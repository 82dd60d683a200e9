import PetriTree.Number.Binary

/-!
# PetriTree — positional decimal text of binary64 values

Numbers are written with the fewest significant digits that read back to the same value, always
positionally: no exponent, no trailing fraction zeros, no point before an empty fraction. Among
two decimals of that length the nearer is taken, and of two equally near the greater.

* `Decimal` — a decimal fraction, with its value (`Decimal.toFloat`) and text (`Decimal.chars`);
* `Decimal.ofDigits` — the decimal that a digit sequence with a fraction denotes;
* `shortest` — the decimal chosen for a bit pattern;
* `render` — the text of a value.
-/

namespace PetriTree.Number

/-- The number `digits / 10 ^ places`. -/
structure Decimal where
  digits : Nat
  places : Nat
deriving DecidableEq, Repr

namespace Decimal

/-- The magnitude pattern of the nearest binary64 value. -/
def pattern (d : Decimal) : Nat := nearestPattern d.digits (Nat.pow 10 d.places)

/-- The nearest binary64 value. -/
def toFloat (d : Decimal) : Float := ofPattern false d.pattern

/-- The decimal written as `integer.fraction`. -/
def ofDigits (integer fraction : List Char) : Decimal :=
  ⟨Nat.ofDigitChars 10 (integer ++ fraction) 0, fraction.length⟩

/-- The digits after the point, without trailing zeros. -/
def fraction (d : Decimal) : List Char :=
  let digits := Nat.toDigits 10 (d.digits % Nat.pow 10 d.places)
  let padded := List.replicate (d.places - digits.length) '0' ++ digits
  (padded.reverse.dropWhile (· == '0')).reverse

/-- The positional text of a decimal. -/
def chars (d : Decimal) : List Char :=
  let integer := Nat.toDigits 10 (d.digits / Nat.pow 10 d.places)
  match d.fraction with
  | [] => integer
  | fraction => integer ++ '.' :: fraction

end Decimal

/-- How many digits the integer part of `10 ^ 340` times the value has; a positive binary64 value
times `10 ^ 340` is at least one. -/
def scaledLength (units : Nat) : Nat := (Nat.toDigits 10 (units * Nat.pow 10 340 / unitsPerOne)).length

/-- The two neighbours of a value on the grid of decimals with `n` significant digits, the nearer
one first and the upper one first when they are equally near. -/
def neighbours (units n : Nat) : List Decimal :=
  -- the last of the `n` digits stands after the point, or zeros fill the gap up to it
  let places := 340 + n - scaledLength units
  let zeros := Nat.pow 10 (scaledLength units - (340 + n))
  let step := unitsPerOne * zeros
  let value := units * Nat.pow 10 places
  let lower : Decimal := ⟨value / step * zeros, places⟩
  let upper : Decimal := ⟨(value / step + 1) * zeros, places⟩
  if step ≤ 2 * (value % step) then [upper, lower] else [lower, upper]

/-- The decimal that is exactly the value: a unit is `5 ^ 1074 / 10 ^ 1074`. -/
def exact (units : Nat) : Decimal := ⟨units * Nat.pow 5 unitPlaces, unitPlaces⟩

/-- The decimal with the fewest significant digits that reads back to the pattern. -/
def shortest (pattern : Nat) : Decimal :=
  ((List.range 17).findSome? fun n =>
    (neighbours (units pattern) (n + 1)).find? fun d => d.pattern == pattern).getD
      (exact (units pattern))

def render (x : Float) : List Char :=
  if infinityPattern < magnitude x then ['N', 'a', 'N']
  else
    let text := if magnitude x = infinityPattern then ['i', 'n', 'f'] else (shortest (magnitude x)).chars
    if isNegative x then '-' :: text else text

end PetriTree.Number
