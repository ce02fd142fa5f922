import CodecDocs.Number.Binary64

/-! Shortest decimals. Among the decimals that round to a given number, the one with the fewest
digits is taken, and of those the nearest to the number. -/

namespace CodecDocs

/-- The decimal `digits * 10 ^ exponent`. -/
structure Decimal where
  digits : Nat
  exponent : Int
  deriving DecidableEq

namespace Decimal

/-- Which of two equally near decimals is taken. -/
inductive Tie where
  | up | even
  deriving DecidableEq

/-- The real numbers that round to `value / scale` reach from `low / scale` to `high / scale`. -/
structure Interval where
  low : Nat
  value : Nat
  high : Nat
  scale : Nat
  closed : Bool

namespace Interval

/-- Half a unit on both sides, and a quarter below a power of two, where the unit halves. The ends
belong to it when the significand is even. -/
def around (x : Binary64) : Interval :=
  let unit := x.unitExponent - 2
  let up := twoTo unit.toNat
  let below := if x.significand = twoTo 52 ∧ -1074 < x.unitExponent then 1 else 2
  { low := (4 * x.significand - below) * up
    value := 4 * x.significand * up
    high := (4 * x.significand + 2) * up
    scale := twoTo (-unit).toNat
    closed := x.significand % 2 == 0 }

/-- Whether `num / den` rounds to the number. -/
def holds (i : Interval) (num den : Nat) : Bool :=
  if i.closed then decide (i.low * den ≤ num * i.scale) && decide (num * i.scale ≤ i.high * den)
  else decide (i.low * den < num * i.scale) && decide (num * i.scale < i.high * den)

/-- The greatest `k` with `10 ^ k` not above the value. -/
def floorLog10 (i : Interval) : Int :=
  let guess := Int.fdiv (Binary64.floorLog2 i.value i.scale * 30103) 100000
  let reaches (k : Int) : Bool := decide (i.scale * tenTo k.toNat ≤ i.value * tenTo (-k).toNat)
  if reaches (guess + 1) then guess + 1 else if reaches guess then guess else guess - 1

/-- The nearest decimal on the grid of multiples of `10 ^ exponent` that rounds to the number. -/
def onGrid (i : Interval) (tie : Tie) (exponent : Int) : Option Decimal :=
  let up := tenTo exponent.toNat
  let down := tenTo (-exponent).toNat
  let lower := i.value * down / (i.scale * up)
  let upper := lower + 1
  match i.holds (lower * up) down, i.holds (upper * up) down with
  | false, false => none
  | true, false => some ⟨lower, exponent⟩
  | false, true => some ⟨upper, exponent⟩
  | true, true =>
    let before := i.value * down - lower * up * i.scale
    let after := upper * up * i.scale - i.value * down
    if before < after then some ⟨lower, exponent⟩
    else if after < before then some ⟨upper, exponent⟩
    else match tie with
      | .up => some ⟨upper, exponent⟩
      | .even => some ⟨if lower % 2 = 0 then lower else upper, exponent⟩

end Interval

/-- The decimal for a finite number other than zero, up to sign. Seventeen digits always do. -/
def shortest (tie : Tie) (x : Binary64) : Decimal :=
  let i := Interval.around x
  let top := i.floorLog10
  ((List.range 17).findSome? fun (n : Nat) => i.onGrid tie (top - n)).getD ⟨0, 0⟩

end Decimal

end CodecDocs
