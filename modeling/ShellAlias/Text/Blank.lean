import ShellAlias.Text.Basic

namespace ShellAlias

/-- The characters with the Unicode property White_Space. -/
def isBlank (c : Char) : Bool :=
  let n := c.toNat
  (0x09 ≤ n && n ≤ 0x0D) || n = 0x20 || n = 0x85 || n = 0xA0 || n = 0x1680 ||
    (0x2000 ≤ n && n ≤ 0x200A) || n = 0x2028 || n = 0x2029 || n = 0x202F || n = 0x205F ||
    n = 0x3000

namespace Text

def trim (text : Text) : Text := trimEnd isBlank (text.dropWhile isBlank)

def firstWord (text : Text) : Text := (text.dropWhile isBlank).takeWhile fun c => !isBlank c

def isBlankText (text : Text) : Bool := text.all isBlank

end Text
end ShellAlias
