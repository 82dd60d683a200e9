/-!
# PetriTree — binary64 values as exact quotients

A finite binary64 value is a whole number of units of `2 ^ -1074`, so rounding, truncation and
comparison with decimal texts are questions about natural numbers.

* `roundDiv` — a quotient rounded to the nearest integer, a half to the even neighbour;
* `nearestPattern` — the bit pattern of the binary64 value nearest to a quotient;
* `units` — the units a bit pattern stands for, the inverse of the rounding;
* `bits` — the 64 bits a value is shown as;
* `floor`, `ceil`, `whole` — the integers around a value.
-/

namespace PetriTree.Number

/-- `n / d` to the nearest integer; a half goes to the even neighbour. -/
def roundDiv (n d : Nat) : Nat :=
  if 2 * (n % d) < d ∨ (2 * (n % d) = d ∧ n / d % 2 = 0) then n / d else n / d + 1

/-- How many binary places the finest binary64 grid has. -/
def unitPlaces : Nat := 1074

/-- How many units of the finest binary64 grid make one. -/
def unitsPerOne : Nat := 1 <<< unitPlaces

/-- One in the lowest bit of the exponent field, above the 52 bits of the fraction. -/
def exponentStep : Nat := 0x10000000000000

/-- The bit above the magnitude pattern, which the negative values have. -/
def signBit : Nat := 0x8000000000000000

/-- The magnitude pattern of infinity; greater patterns are not numbers. -/
def infinityPattern : Nat := 0x7ff0000000000000

/-- The magnitude pattern of the binary64 value nearest to `n / d`, ties to the even pattern.
The exponent is the least that leaves a significand of at most 53 bits, and a significand that
rounds up to `2 ^ 53` carries into it, which is why the two fields are simply added. -/
def nearestPattern (n d : Nat) : Nat :=
  let scaled := n * unitsPerOne
  -- below the normal values the difference stops at zero, where the grid is as fine as it gets
  let shift := Nat.log2 (scaled / d) - 52
  min (shift * exponentStep + roundDiv scaled (d <<< shift)) infinityPattern

/-- The units of `2 ^ -1074` in a finite magnitude pattern. -/
def units (pattern : Nat) : Nat :=
  if pattern < exponentStep then pattern
  -- a normal value has a leading bit that the pattern leaves out
  else (exponentStep + pattern % exponentStep) <<< (pattern / exponentStep - 1)

def isNegative (x : Float) : Bool := decide (signBit ≤ x.toBits.toNat)

/-- The bit pattern of a value without its sign. -/
def magnitude (x : Float) : Nat := x.toBits.toNat % signBit

/-- The 64 bits of a value. All values that are not numbers have one pattern, that of the quiet
value with its sign set which an invalid operation yields. -/
def bits (x : Float) : UInt64 := if x.isNaN then 0xfff8000000000000 else x.toBits

/-- The value of a sign and a magnitude pattern. -/
def ofPattern (negative : Bool) (pattern : Nat) : Float :=
  Float.ofBits (UInt64.ofNat (if negative then pattern + signBit else pattern))

/-- The value nearest to `n / d`. -/
def nearest (n d : Nat) : Float := ofPattern false (nearestPattern n d)

/-- The integer part of the magnitude of a finite value. -/
def whole (x : Float) : Nat := units (magnitude x) / unitsPerOne

/-- Is the value infinite, not a number, or already an integer? -/
def isIntegral (x : Float) : Bool :=
  decide (infinityPattern ≤ magnitude x ∨ units (magnitude x) % unitsPerOne = 0)

def floor (x : Float) : Float :=
  if isIntegral x then x
  else ofPattern (isNegative x) (nearestPattern (if isNegative x then whole x + 1 else whole x) 1)

/-- The least integer that is not below the value; it keeps the sign, so `-0.5` goes to `-0`. -/
def ceil (x : Float) : Float :=
  if isIntegral x then x
  else ofPattern (isNegative x) (nearestPattern (if isNegative x then whole x else whole x + 1) 1)

end PetriTree.Number
