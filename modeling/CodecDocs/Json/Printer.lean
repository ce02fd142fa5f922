import CodecDocs.Json.Basic
import CodecDocs.Number.Layout
import CodecDocs.Text.Quoted

/-! JSON text in two layouts: without any blanks, and with one entry to a line, two blanks for each
level. Characters are written as they are, except quotes, backslashes and controls. -/

namespace CodecDocs.Json

/-- Numbers from `10 ^ -5` up to `10 ^ 16` are written with all their places and always with a
fraction, the others with a signed exponent. -/
def numberStyle : NumberStyle where
  plain k := decide (-5 ≤ k ∧ k < 16)
  fraction := true
  plus := "+"
  tie := .even

def numberText : JsonNumber → String
  | .natural n => toString n
  | .negative n => "-" ++ toString (n + 1)
  | .float x => numberStyle.write x

def stringChar (c : Char) : List Char :=
  if c = '"' then ['\\', '"']
  else if c = '\\' then ['\\', '\\']
  else if c = '\n' then ['\\', 'n']
  else if c = '\r' then ['\\', 'r']
  else if c = '\t' then ['\\', 't']
  else if c = '\x08' then ['\\', 'b']
  else if c = '\x0c' then ['\\', 'f']
  else if c.toNat < 0x20 then
    ['\\', 'u', '0', '0', if c.toNat < 0x10 then '0' else '1'] ++ Nat.toDigits 16 (c.toNat % 16)
  else [c]

def stringText (s : String) : String :=
  String.ofList (['"'] ++ s.toList.flatMap stringChar ++ ['"'])

/-! ### Without blanks -/

mutual

def compact : Json → String
  | .null => "null"
  | .bool true => "true"
  | .bool false => "false"
  | .number n => numberText n
  | .string s => stringText s
  | .array items => "[" ++ String.intercalate "," (compactItems items) ++ "]"
  | .object fields => "\x7b" ++ String.intercalate "," (compactFields fields) ++ "\x7d"

def compactItems : List Json → List String
  | [] => []
  | item :: items => item.compact :: compactItems items

def compactFields : List (String × Json) → List String
  | [] => []
  | (k, v) :: fields => (stringText k ++ ":" ++ v.compact) :: compactFields fields

end

/-! ### One entry to a line -/

def newLine (level : Nat) : String := "\n" ++ String.ofList (List.replicate (2 * level) ' ')

/-- Entries between brackets, each on a line of the next level. -/
def block (level : Nat) (openMark closeMark : String) (entries : List String) : String :=
  if entries.isEmpty then openMark ++ closeMark
  else openMark ++ newLine (level + 1) ++
    String.intercalate ("," ++ newLine (level + 1)) entries ++ newLine level ++ closeMark

mutual

def indented (level : Nat) : Json → String
  | .array items => block level "[" "]" (indentedItems (level + 1) items)
  | .object fields => block level "\x7b" "\x7d" (indentedFields (level + 1) fields)
  | .null => "null"
  | .bool true => "true"
  | .bool false => "false"
  | .number n => numberText n
  | .string s => stringText s

def indentedItems (level : Nat) : List Json → List String
  | [] => []
  | item :: items => item.indented level :: indentedItems level items

def indentedFields (level : Nat) : List (String × Json) → List String
  | [] => []
  | (k, v) :: fields => (stringText k ++ ": " ++ v.indented level) :: indentedFields level fields

end

def pretty (value : Json) : String := value.indented 0

end CodecDocs.Json
