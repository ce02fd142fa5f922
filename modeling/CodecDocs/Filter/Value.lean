import CodecDocs.Json.Printer
import CodecDocs.Json.Reader

/-! The values that filters work on. A number that is no integer of 64 bits stays as it is written
until something is computed from it, and only then becomes a floating-point number. -/

namespace CodecDocs.Filter

inductive Value where
  | null
  | bool (b : Bool)
  /-- An integer of 64 bits. -/
  | int (n : Int)
  | float (x : Binary64)
  /-- Any other number, as it is written. -/
  | numeral (text : String)
  | string (s : String)
  | array (items : List Value)
  | object (fields : List (String × Value))
  deriving Inhabited

namespace Value

/-- The number that a text of digits stands for. -/
def ofNumeral (text : String) : Value :=
  match Numeral.int64? text.toList with
  | some n => .int n
  | none => .numeral text

mutual

def ofJson : Json → Value
  | .null => .null
  | .bool b => .bool b
  | .number n => ofNumeral (Json.numberText n)
  | .string s => .string s
  | .array items => .array (ofItems items)
  | .object fields => .object (ofFields fields)

def ofItems : List Json → List Value
  | [] => []
  | item :: items => ofJson item :: ofItems items

def ofFields : List (String × Json) → List (String × Value)
  | [] => []
  | (name, value) :: fields => (name, ofJson value) :: ofFields fields

end

/-! ### Text -/

/-- Computed numbers have all their places from `10 ^ -4` up to `10 ^ 16`, and always a fraction. -/
def numberStyle : NumberStyle where
  plain k := decide (-4 ≤ k ∧ k < 16)
  fraction := true
  plus := ""
  tie := .up

mutual

/-- The text of a value. It is no JSON where a numeral is none. -/
def text : Value → String
  | .null => "null"
  | .bool true => "true"
  | .bool false => "false"
  | .int n => toString n
  | .float x => if x.isFinite then numberStyle.write x else "null"
  | .numeral text => text
  | .string s => Json.stringText s
  | .array items => "[" ++ String.intercalate "," (itemTexts items) ++ "]"
  | .object fields => "\x7b" ++ String.intercalate "," (fieldTexts fields) ++ "\x7d"

def itemTexts : List Value → List String
  | [] => []
  | item :: items => item.text :: itemTexts items

def fieldTexts : List (String × Value) → List String
  | [] => []
  | (name, value) :: fields => (Json.stringText name ++ ":" ++ value.text) :: fieldTexts fields

end

/-- The value as JSON, read from its text. -/
def toJson? (value : Value) : Option Json := Json.parse? value.text

/-! ### Entries -/

/-- The item at a place, where a negative place counts from the end. -/
def itemAt (items : List Value) (i : Int) : Value :=
  let place := if i < 0 then i + items.length else i
  if place < 0 then .null else (items[place.toNat]?).getD .null

/-- Names belong to objects and integers to arrays; what is not there is `null`. -/
def get? : Value → Value → Option Value
  | .object fields, .string name => some ((Table.get? fields name).getD .null)
  | .array items, .int i => some (itemAt items i)
  | _, _ => none

/-- What an array or an object holds. -/
def entries? : Value → Option (List Value)
  | .array items => some items
  | .object fields => some (Table.values fields)
  | _ => none

/-- The sorted names of an object or the places of an array. -/
def keys? : Value → Option Value
  | .object fields =>
    some (.array ((Table.keys fields).mergeSort (fun a b => decide (a ≤ b)) |>.map .string))
  | .array items => some (.array ((List.range items.length).map fun (i : Nat) => .int i))
  | _ => none

/-! ### Numbers -/

/-- An integer in the range of 64 bits, reached by leaving out whole turns of it. -/
def wrap (n : Int) : Value := .int (Int.bmod n (twoTo 64))

/-- A numeral as a number to compute with, if it is one. -/
def settled : Value → Value
  | .numeral text => ((Numeral.float? text.toList).map .float).getD .null
  | value => value

def negated? (value : Value) : Option Value :=
  match value.settled with
  | .int n => some (wrap (-n))
  | .float x => some (.float x.neg)
  | _ => none

/-- The length of a number is its absolute value. -/
def length? (value : Value) : Option Value :=
  match value.settled with
  | .null => some (.int 0)
  | .bool _ => none
  | .int n => some (wrap n.natAbs)
  | .float x => some (.float x.abs)
  | .numeral _ => none
  | .string s => some (.int s.length)
  | .array items => some (.int items.length)
  | .object fields => some (.int fields.length)

end Value

end CodecDocs.Filter
