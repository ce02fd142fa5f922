import CodecDocs.Json.Basic
import CodecDocs.Number.Reading

/-! Reading of JSON text. A failure tells the path to the place in the value where reading stopped.
Containers nest at most 127 deep. A number is read as its first digits that fit 64 bits times a
power of ten, the product or quotient being rounded. -/

namespace CodecDocs.Json

/-! ### Paths -/

inductive Step where
  | key (name : String)
  | index (i : Nat)
  /-- Where the name of a field should have stood. -/
  | unnamed
  deriving DecidableEq

abbrev Path := List Step

/-- Names are divided by points, and an index stands in brackets right after what it belongs to. -/
def Path.text : Path → String
  | [] => "."
  | steps => String.join (steps.zipIdx.map fun (step, i) =>
      match step with
      | .key name => (if i = 0 then "" else ".") ++ name
      | .index n => "[" ++ toString n ++ "]"
      | .unnamed => (if i = 0 then "" else ".") ++ "?")

/-- Reads from the front of a text or names the path at which that failed. -/
abbrev Reader := StateT (List Char) (Except Path)

namespace Reader

def fail {α : Type} : Reader α := throw []

/-- Failures inside lie one step further down. -/
def under {α : Type} (step : Step) (read : Reader α) : Reader α := fun text =>
  match read text with
  | .ok result => .ok result
  | .error path => .error (step :: path)

def peek : Reader (Option Char) := do return (← get).head?

def skip : Reader Unit := modify (List.drop 1)

def isBlank (c : Char) : Bool := c = ' ' || c = '\n' || c = '\t' || c = '\r'

def blanks : Reader Unit := modify (List.dropWhile isBlank)

/-- The next character that is no blank, which stays unread. -/
def peekToken : Reader (Option Char) := do blanks; peek

/-- The whole of a word. -/
def word (w : String) : Reader Unit := do
  let text ← get
  if w.toList.isPrefixOf text then set (text.drop w.length) else fail

def digits : Reader (List Char) := do
  let text ← get
  set (text.dropWhile Numeral.isDigit)
  return text.takeWhile Numeral.isDigit

/-! ### Numbers -/

def wordLimit : Nat := twoTo 64

/-- Takes digits into a number of 64 bits while they fit: the number, how many were taken, and the
digits left over. -/
def fitting : Nat → Nat → List Char → Nat × Nat × List Char
  | n, taken, [] => (n, taken, [])
  | n, taken, c :: rest =>
    let next := n * 10 + (c.toNat - '0'.toNat)
    if next < wordLimit then fitting next (taken + 1) rest else (n, taken, c :: rest)

/-- Divides by `10 ^ 308` until the rest of the exponent is in the range of one power. -/
def scaleDown : Nat → Binary64 → Nat → Binary64
  | 0, x, _ => x
  | steps + 1, x, exponent =>
    if exponent ≤ 308 then x.div (Binary64.ofDecimal false 1 exponent)
    else if x.isZero then x
    else scaleDown steps (x.div (Binary64.ofDecimal false 1 308)) (exponent - 308)

/-- The number times a power of ten, unless that is too large. -/
def scaled (n : Nat) (exponent : Int) : Option Binary64 :=
  let x := Binary64.ofNat n
  if exponent < 0 then some (scaleDown (exponent.natAbs / 308 + 1) x exponent.natAbs)
  else if 308 < exponent then if x.isZero then some x else none
  else some (x.mul (Binary64.ofDecimal false 1 exponent)) |>.filter Binary64.isFinite

def signed (negative : Bool) (x : Binary64) : JsonNumber :=
  .float (if negative then x.neg else x)

def scaledNumber (negative : Bool) (n : Nat) (exponent : Int) : Reader JsonNumber :=
  match scaled n exponent with
  | some x => return signed negative x
  | none => fail

def exponentLimit : Nat := twoTo 31

/-- The exponent after its mark. One that needs more than 32 bits makes a zero or a failure. -/
def exponent (negative : Bool) (n : Nat) (start : Int) : Reader JsonNumber := do
  skip
  let sign ← peek
  let down := sign == some '-'
  if sign == some '+' || down then skip
  let some e := Numeral.digits? 10 (← digits) | fail
  if e < exponentLimit then scaledNumber negative n (if down then start - e else start + e)
  else if n ≠ 0 && !down then fail
  else return signed negative (Binary64.zero false)

/-- What follows the digits of a number: an exponent or nothing. -/
def afterDigits (negative : Bool) (n : Nat) (start : Int) : Reader JsonNumber := do
  match ← peek with
  | some 'e' | some 'E' => exponent negative n start
  | _ => scaledNumber negative n start

/-- A fraction; digits that no longer fit do not count. -/
def fraction (negative : Bool) (n : Nat) (start : Int) : Reader JsonNumber := do
  skip
  let ds ← digits
  if ds.isEmpty then fail
  let (n, taken, _) := fitting n 0 ds
  afterDigits negative n (start - taken)

/-- Digits that no longer fit only raise the exponent. -/
def number (negative : Bool) : Reader JsonNumber := do
  let ds ← digits
  match ds with
  | [] => fail
  | '0' :: _ :: _ => fail
  | _ => pure ()
  let (n, _, left) := fitting 0 0 ds
  match ← peek with
  | some '.' => fraction negative n left.length
  | some 'e' | some 'E' => exponent negative n left.length
  | _ =>
    if ¬ left.isEmpty then scaledNumber negative n left.length
    else if ¬ negative then return .natural n
    else if 0 < n ∧ n ≤ twoTo 63 then return .negative (n - 1)
    else return signed true (Binary64.ofNat n)

/-! ### Strings -/

/-- Four hexadecimal digits. -/
def hex4? : List Char → Option (Nat × List Char)
  | a :: b :: c :: d :: rest => (Numeral.digits? 16 [a, b, c, d]).map fun n => (n, rest)
  | _ => none

/-- The character of an escape given by its code unit, two of which make up one character beyond
the first plane. -/
def unicode? (text : List Char) : Option (Char × List Char) :=
  match hex4? text with
  | none => none
  | some (n, rest) =>
    if n < 0xD800 ∨ 0xDFFF < n then some (Char.ofNat n, rest)
    else if 0xDC00 ≤ n then none
    else match rest with
      | '\\' :: 'u' :: more =>
        match hex4? more with
        | some (m, rest) =>
          if 0xDC00 ≤ m ∧ m ≤ 0xDFFF then
            some (Char.ofNat (0x10000 + (n - 0xD800) * 0x400 + (m - 0xDC00)), rest)
          else none
        | none => none
      | _ => none

def escape? : List Char → Option (Char × List Char)
  | '"' :: rest => some ('"', rest)
  | '\\' :: rest => some ('\\', rest)
  | '/' :: rest => some ('/', rest)
  | 'b' :: rest => some ('\x08', rest)
  | 'f' :: rest => some ('\x0c', rest)
  | 'n' :: rest => some ('\n', rest)
  | 'r' :: rest => some ('\r', rest)
  | 't' :: rest => some ('\t', rest)
  | 'u' :: rest => unicode? rest
  | _ => none

/-- The characters up to the closing quote, those read so far given backwards. Each round takes at
least one character of the text, so its length bounds the rounds. -/
def stringBody : Nat → List Char → List Char → Option (List Char × List Char)
  | 0, _, _ => none
  | _ + 1, _, [] => none
  | rounds + 1, read, c :: rest =>
    if c = '"' then some (read.reverse, rest)
    else if c = '\\' then
      match escape? rest with
      | some (d, rest) => stringBody rounds (d :: read) rest
      | none => none
    else if c.toNat < 0x20 then none
    else stringBody rounds (c :: read) rest

/-- A string whose opening quote is the next character. -/
def string : Reader String := do
  let text := (← get).drop 1
  match stringBody (text.length + 1) [] text with
  | some (s, rest) => set rest; return String.ofList s
  | none => fail

/-! ### Containers -/

/-- The comma before an item of an array, after which the array does not end. -/
def comma : Reader Unit := do
  if (← peekToken) ≠ some ',' then fail
  skip
  if (← peekToken) == some ']' then fail

/-- The item number `i` of an array, unless the array ends before it. -/
def item? {α : Type} (item : Reader α) (i : Nat) : Reader (Option α) := do
  if (← peekToken) == some ']' then return none
  if 0 < i then comma
  if (← peek).isNone then fail
  return some (← under (.index i) item)

/-- Items up to the closing bracket, after the opening one. -/
def items {α : Type} (item : Reader α) : Nat → Nat → List α → Reader (List α)
  | 0, _, _ => fail
  | rounds + 1, i, read => do
    match ← item? item i with
    | none => skip; return read.reverse
    | some x => items item rounds (i + 1) (x :: read)

/-- The name of the next field, unless the object ends here. -/
def fieldName (first : Bool) : Reader (Option String) := do
  match ← peekToken with
  | some '\x7d' => skip; return none
  | some ',' =>
    if first then under .unnamed fail
    skip
    if (← peekToken) == some '"' then return some (← under .unnamed string)
    else under .unnamed fail
  | some '"' => if first then return some (← under .unnamed string) else under .unnamed fail
  | _ => under .unnamed fail

/-- A character that is no blank. -/
def token (c : Char) : Reader Unit := do
  if (← peekToken) == some c then skip else fail

/-- What stands at a name after its colon. -/
def named {α : Type} (name : String) (read : Reader α) : Reader α := do
  token ':'
  under (.key name) read

/-- Fields up to the closing brace, after the opening one; `field` reads what follows a name and
changes what has been gathered. -/
def fields {α : Type} (field : String → α → Reader α) : Nat → Bool → α → Reader α
  | 0, _, _ => fail
  | rounds + 1, first, gathered => do
    match ← fieldName first with
    | none => return gathered
    | some name => fields field rounds false (← field name gathered)

/-- As many rounds as there are characters left. -/
def rounds : Reader Nat := do return (← get).length + 1

/-- A value in which containers nest less than `depth` deep. -/
def value : Nat → Reader Json
  | 0 => fail
  | depth + 1 => do
    match ← peekToken with
    | some 'n' => word "null"; return .null
    | some 't' => word "true"; return .bool true
    | some 'f' => word "false"; return .bool false
    | some '"' => return .string (← string)
    | some '-' => skip; return .number (← number true)
    | some '[' =>
      if depth = 0 then fail
      skip
      return .array (← items (value depth) (← rounds) 0 [])
    | some '\x7b' =>
      if depth = 0 then fail
      skip
      return .object (← fields (fun name read =>
        return Table.insert read name (← named name (value depth))) (← rounds) true [])
    | some c => if Numeral.isDigit c then return .number (← number false) else fail
    | none => fail

/-- The containers of a text may nest one less deep than this. -/
def depthLimit : Nat := 128

/-- Nothing but blanks is left. -/
def finish : Reader Unit := do
  if (← peekToken).isSome then fail

end Reader

/-- The value that a text holds. -/
def parse? (text : String) : Option Json :=
  match (do let v ← Reader.value Reader.depthLimit; Reader.finish; return v) text.toList with
  | .ok (v, _) => some v
  | .error _ => none

end CodecDocs.Json
