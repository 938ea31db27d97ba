import ShellAlias.Text.Basic
import ShellAlias.Text.Printable

namespace ShellAlias.Text

def quotedChar (c : Char) : Text :=
  if c = '\x00' then ['\\', '0']
  else if c = '\t' then ['\\', 't']
  else if c = '\r' then ['\\', 'r']
  else if c = '\n' then ['\\', 'n']
  else if c = '\\' then ['\\', '\\']
  else if c = '"' then ['\\', '"']
  else if isPrintable c then [c]
  else ['\\', 'u', '{'] ++ hexadecimal c.toNat ++ ['}']

def quoted (text : Text) : Text := '"' :: text.flatMap quotedChar ++ ['"']

end ShellAlias.Text
