import CodecDocs.Number.Binary64

/-! Numbers read from text: signed integers of 64 bits, natural numbers in a radix, and decimal
numerals with an optional fraction and exponent. -/

namespace CodecDocs.Numeral

/-- The value of a digit in a radix of at most thirty-six. -/
def digit? (radix : Nat) (c : Char) : Option Nat :=
  let value :=
    if '0' ≤ c ∧ c ≤ '9' then some (c.toNat - '0'.toNat)
    else if 'a' ≤ c ∧ c ≤ 'z' then some (c.toNat - 'a'.toNat + 10)
    else if 'A' ≤ c ∧ c ≤ 'Z' then some (c.toNat - 'A'.toNat + 10)
    else none
  value.filter (· < radix)

def isDigit (c : Char) : Bool := decide ('0' ≤ c ∧ c ≤ '9')

/-- The number that the digits continue. -/
def extend (radix : Nat) : Nat → List Char → Option Nat
  | n, [] => some n
  | n, c :: rest => (digit? radix c).bind fun d => extend radix (n * radix + d) rest

/-- One or more digits. -/
def digits? (radix : Nat) : List Char → Option Nat
  | [] => none
  | text => extend radix 0 text

/-- Digits with an optional plus sign that stay below `bound`. -/
def natural? (radix bound : Nat) (text : List Char) : Option Nat :=
  (digits? radix (match text with | '+' :: rest => rest | _ => text)).filter (· < bound)

/-- A signed integer of 64 bits. -/
def int64? : List Char → Option Int
  | '-' :: rest => ((digits? 10 rest).filter (· ≤ twoTo 63)).map fun n => -(n : Int)
  | text => (natural? 10 (twoTo 63) text).map Int.ofNat

/-- The exponent of a numeral, after its mark. -/
def exponent? : List Char → Option Int
  | '-' :: rest => (digits? 10 rest).map fun n => -(n : Int)
  | '+' :: rest => (digits? 10 rest).map Int.ofNat
  | text => (digits? 10 text).map Int.ofNat

/-- A numeral without a sign: digits, a point at any place among them or none, and an optional
exponent. -/
def unsigned? (negative : Bool) (text : List Char) : Option Binary64 :=
  let whole := text.takeWhile isDigit
  let rest := text.dropWhile isDigit
  let (fraction, rest) := match rest with
    | '.' :: more => (more.takeWhile isDigit, more.dropWhile isDigit)
    | _ => ([], rest)
  let exponent := match rest with
    | [] => some 0
    | mark :: more => if mark = 'e' ∨ mark = 'E' then exponent? more else none
  match digits? 10 (whole ++ fraction), exponent with
  | some digits, some exponent =>
    some (Binary64.ofDecimal negative digits (exponent - fraction.length))
  | _, _ => none

/-- A floating-point number; the infinities and the absent value go by name in any case. -/
def float? (text : List Char) : Option Binary64 :=
  let (negative, size) := match text with
    | '-' :: rest => (true, rest)
    | '+' :: rest => (false, rest)
    | _ => (false, text)
  let name := String.ofList (size.map Char.toLower)
  if name = "inf" ∨ name = "infinity" then some (Binary64.infinity negative)
  else if name = "nan" then some Binary64.nan
  else unsigned? negative size

end CodecDocs.Numeral
