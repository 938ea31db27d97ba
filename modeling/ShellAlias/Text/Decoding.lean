import ShellAlias.Text.Basic

namespace ShellAlias.Text

def ofBytes? (bytes : List UInt8) : Option Text :=
  (String.fromUTF8? bytes.toByteArray).map String.toList

theorem ofBytes?_bytes (text : Text) : ofBytes? (bytes text) = some text := by
  have hwhole : (bytes text).toByteArray = text.utf8Encode := rfl
  have hvalid : String.fromUTF8? text.utf8Encode = some (String.ofList text) := by
    rw [String.fromUTF8?]
    exact dif_pos ByteArray.isValidUTF8_utf8Encode
  rw [ofBytes?,hwhole,hvalid]
  exact congrArg some String.toList_ofList

def invalidBytesMessage : Text := "stream did not contain valid UTF-8".toList

end ShellAlias.Text
