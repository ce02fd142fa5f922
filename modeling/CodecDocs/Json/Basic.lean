import CodecDocs.Number.Binary64
import CodecDocs.Table

/-! JSON values. Integers that fit 64 bits stay integers and differ from floating-point numbers of
the same value; the fields of an object keep the order in which they were first written, and
equality does not look at that order. -/

namespace CodecDocs

inductive JsonNumber where
  /-- An integer that is not negative. -/
  | natural (n : Nat)
  /-- The integer `-(n + 1)`. -/
  | negative (n : Nat)
  | float (x : Binary64)
  deriving DecidableEq, Inhabited

namespace JsonNumber

def same : JsonNumber → JsonNumber → Bool
  | .natural m, .natural n => m == n
  | .negative m, .negative n => m == n
  | .float x, .float y => x.same y
  | _, _ => false

def ofInt : Int → JsonNumber
  | .ofNat n => .natural n
  | .negSucc n => .negative n

/-- The floating-point number nearest to the value. -/
def toBinary64 : JsonNumber → Binary64
  | .natural n => Binary64.ofNat n
  | .negative n => (Binary64.ofNat (n + 1)).neg
  | .float x => x

end JsonNumber

inductive Json where
  | null
  | bool (b : Bool)
  | number (n : JsonNumber)
  | string (s : String)
  | array (items : List Json)
  | object (fields : List (String × Json))
  deriving Inhabited

namespace Json

def nat (n : Nat) : Json := .number (.natural n)

def int (n : Int) : Json := .number (.ofInt n)

/-- A number that is not finite has no written form. -/
def float (x : Binary64) : Json := if x.isFinite then .number (.float x) else .null

def get? : Json → String → Option Json
  | .object fields, key => Table.get? fields key
  | _, _ => none

mutual

/-- Equality of values, blind to the order of fields. -/
def same : Json → Json → Bool
  | .null, .null => true
  | .bool a, .bool b => a == b
  | .number m, .number n => m.same n
  | .string s, .string t => s == t
  | .array xs, .array ys => sameItems xs ys
  | .object fs, .object gs => fs.length == gs.length && sameFields fs gs
  | _, _ => false

def sameItems : List Json → List Json → Bool
  | [], [] => true
  | x :: xs, y :: ys => x.same y && sameItems xs ys
  | _, _ => false

/-- Whether each field has an equal one of the same name among `others`. -/
def sameFields : List (String × Json) → List (String × Json) → Bool
  | [], _ => true
  | (k, v) :: fields, others =>
    (match Table.get? others k with
      | some w => v.same w
      | none => false) && sameFields fields others

end

end Json

end CodecDocs
