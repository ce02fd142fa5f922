import CodecDocs.Text.Hidden

/-! Quoted text for messages. Double quotes, backslashes and the usual controls are written with a
backslash, characters without a visible form as code points, and everything else as it is. -/

namespace CodecDocs.Text

def hexDigits (n : Nat) : List Char := Nat.toDigits 16 n

/-- A character as it stands between double quotes. -/
def quotedChar (c : Char) : List Char :=
  if c = '\x00' then ['\\', '0']
  else if c = '\t' then ['\\', 't']
  else if c = '\r' then ['\\', 'r']
  else if c = '\n' then ['\\', 'n']
  else if c = '"' then ['\\', '"']
  else if c = '\\' then ['\\', '\\']
  else if isHidden c then ['\\', 'u', '\x7b'] ++ hexDigits c.toNat ++ ['\x7d']
  else [c]

def quoted (text : String) : String :=
  String.ofList (['"'] ++ text.toList.flatMap quotedChar ++ ['"'])

end CodecDocs.Text
