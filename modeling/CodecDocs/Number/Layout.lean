import CodecDocs.Number.Shortest

/-! Texts of numbers. A style says which numbers are written with all their places and how the
others carry their exponent; the digits are always the shortest ones. -/

namespace CodecDocs

/-- How a number is written. -/
structure NumberStyle where
  /-- Whether a number from `10 ^ k` up to `10 ^ (k + 1)` is written with all its places. -/
  plain : Int → Bool
  /-- Whether whole numbers carry a fraction of zero. -/
  fraction : Bool
  /-- The sign of an exponent that is not negative. -/
  plus : String
  tie : Decimal.Tie

namespace NumberStyle

def zeros (n : Nat) : List Char := List.replicate n '0'

/-- All places of `0.digits * 10 ^ point`. -/
def allPlaces (style : NumberStyle) (digits : List Char) (point : Int) : List Char :=
  if point ≤ 0 then ['0', '.'] ++ zeros (-point).toNat ++ digits
  else if digits.length ≤ point.toNat then
    digits ++ zeros (point.toNat - digits.length) ++ (if style.fraction then ['.', '0'] else [])
  else digits.take point.toNat ++ ['.'] ++ digits.drop point.toNat

/-- One place before the point and the exponent behind a mark. -/
def scientific (style : NumberStyle) (digits : List Char) (exponent : Int) : List Char :=
  let fraction := digits.drop 1
  digits.take 1 ++ (if fraction.isEmpty then [] else '.' :: fraction) ++ ['e'] ++
    (if exponent < 0 then ['-'] else style.plus.toList) ++ Nat.toDigits 10 exponent.natAbs

/-- The absolute value of a finite number. -/
def unsigned (style : NumberStyle) (x : Binary64) : List Char :=
  if x.isZero then style.allPlaces ['0'] 1
  else
    let decimal := Decimal.shortest style.tie x
    let written := Nat.toDigits 10 decimal.digits
    let point : Int := written.length + decimal.exponent
    let digits := (written.reverse.dropWhile (· == '0')).reverse
    if style.plain (point - 1) then style.allPlaces digits point
    else style.scientific digits (point - 1)

def write (style : NumberStyle) (x : Binary64) : String :=
  if x.isNaN then "NaN"
  else
    let size := if x.isFinite then style.unsigned x else "inf".toList
    String.ofList (if x.isNegative then '-' :: size else size)

end NumberStyle

end CodecDocs
