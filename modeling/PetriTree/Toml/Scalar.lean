import PetriTree.Number.Positional
import PetriTree.Toml

/-!
# PetriTree — TOML numbers and moments

A value without quotes and brackets is a truth value, a whole number in base ten, sixteen, eight or
two, a number with a fraction or an exponent, or a moment. Underscores may stand between digits. A
whole number must fit 128 bits, and a number with a fraction must be finite unless it is written
`inf`. A time may lack its seconds, and only after seconds may it have a fraction.

* `Toml.scalar?` — the value of such a word.
-/

namespace PetriTree.Toml

/-! ## Digits -/

def isDigitOf (base : Nat) (c : Char) : Bool :=
  if base = 16 then c.isDigit || ('a' ≤ c && c ≤ 'f') || ('A' ≤ c && c ≤ 'F')
  else decide ('0' ≤ c ∧ c.toNat < '0'.toNat + base)

/-- Digits without their underscores, each of which must stand between two digits. -/
def digits? (base : Nat) : List Char → Option (List Char)
  | [] => none
  | [c] => if isDigitOf base c then some [c] else none
  | c :: '_' :: rest => do
    let rest ← digits? base rest
    if isDigitOf base c then some (c :: rest) else none
  | c :: rest => do
    let rest ← digits? base rest
    if isDigitOf base c then some (c :: rest) else none

def digitValue (c : Char) : Nat :=
  if c.isDigit then c.toNat - '0'.toNat else c.toLower.toNat - 'a'.toNat + 10

def numberOf (base : Nat) (digits : List Char) : Nat := digits.foldl (fun n c => n * base + digitValue c) 0

/-- Digits in base ten that do not start with a needless zero. -/
def plainDigits? (text : List Char) : Option (List Char) := do
  let digits ← digits? 10 text
  if 1 < digits.length ∧ digits.head? = some '0' then none else some digits

def signed (text : List Char) : Bool × List Char :=
  match text with
  | '-' :: rest => (true, rest)
  | '+' :: rest => (false, rest)
  | rest => (false, rest)

/-! ## Whole numbers -/

/-- A whole number that fits 128 bits, signed or unsigned. -/
def fit? (n : Int) : Option Toml :=
  if -0x80000000000000000000000000000000 ≤ n ∧ n ≤ 0xffffffffffffffffffffffffffffffff then some (int n)
  else none

/-- A whole number. Only one in base ten may have a sign. -/
def whole? (text : List Char) : Option Toml :=
  match text with
  | '0' :: 'x' :: rest => (digits? 16 rest).bind fun digits => fit? (numberOf 16 digits)
  | '0' :: 'o' :: rest => (digits? 8 rest).bind fun digits => fit? (numberOf 8 digits)
  | '0' :: 'b' :: rest => (digits? 2 rest).bind fun digits => fit? (numberOf 2 digits)
  | text =>
    let (negative, rest) := signed text
    (plainDigits? rest).bind fun digits =>
      let n : Int := numberOf 10 digits
      fit? (if negative then -n else n)

/-! ## Numbers with a fraction or an exponent -/

/-- The value of a significand times a power of ten. Exponents far outside the range of binary64 are
cut off before any power is taken. -/
def scaled (digits : List Char) (exponent : Int) : Float :=
  let significand := numberOf 10 digits
  let reach : Int := digits.length + 400
  if significand = 0 ∨ exponent < -reach then Number.nearest 0 1
  else if 400 < exponent then Number.ofPattern false Number.infinityPattern
  else if exponent < 0 then (Number.Decimal.mk significand exponent.natAbs).toFloat
  else (Number.Decimal.mk (significand * Nat.pow 10 exponent.toNat) 0).toFloat

/-- The exponent of a number; leading zeros are allowed in it. -/
def exponent? (text : List Char) : Option Int :=
  let (negative, rest) := signed text
  (digits? 10 rest).map fun digits =>
    let n : Int := numberOf 10 digits
    if negative then -n else n

/-- A number with a fraction, an exponent or both. -/
def fractional? (text : List Char) : Option Toml := do
  let (negative, text) := signed text
  let (mantissa, power) := text.span fun c => c != 'e' && c != 'E'
  let (before, after) := mantissa.span (· != '.')
  if power.isEmpty ∧ after.isEmpty then none
  let integer ← plainDigits? before
  let fraction ← if after.isEmpty then some [] else digits? 10 (after.drop 1)
  let exponent ← if power.isEmpty then some 0 else exponent? (power.drop 1)
  let x := scaled (integer ++ fraction) (exponent - fraction.length)
  if Number.magnitude x = Number.infinityPattern then none else some (float (if negative then -x else x))

def named? (text : List Char) : Option Toml :=
  let (negative, rest) := signed text
  let infinity := Number.ofPattern negative Number.infinityPattern
  if rest = ['i', 'n', 'f'] then some (float infinity)
  else if rest = ['n', 'a', 'n'] then some (float (infinity - infinity))
  else none

/-! ## Moments -/

/-- The number that exactly `n` digits at the start of a text denote, and the rest. -/
def field : Nat → Nat → List Char → Option (Nat × List Char)
  | 0, value, text => some (value, text)
  | n + 1, value, c :: rest => if c.isDigit then field n (value * 10 + digitValue c) rest else none
  | _ + 1, _, [] => none

/-- Does a text start with a character? The rest, if it does. -/
def after? (c : Char) : List Char → Option (List Char)
  | [] => none
  | first :: rest => if first = c then some rest else none

def daysIn (year month : Nat) : Nat :=
  if month = 2 then if year % 4 = 0 ∧ (year % 100 ≠ 0 ∨ year % 400 = 0) then 29 else 28
  else if month = 4 ∨ month = 6 ∨ month = 9 ∨ month = 11 then 30
  else 31

/-- A date at the start of a text; answers the rest. -/
def date? (text : List Char) : Option (List Char) := do
  let (year, text) ← field 4 0 text
  let (month, text) ← field 2 0 (← after? '-' text)
  let (day, text) ← field 2 0 (← after? '-' text)
  if 1 ≤ month ∧ month ≤ 12 ∧ 1 ≤ day ∧ day ≤ daysIn year month then some text else none

/-- The fraction of a second at the start of a text, which may be missing; answers the rest. -/
def secondFraction? (text : List Char) : Option (List Char) :=
  match text with
  | '.' :: rest => if (rest.head?.any Char.isDigit) then some (rest.dropWhile Char.isDigit) else none
  | rest => some rest

/-- The seconds of a time, which may be missing; answers the rest. A minute may have a leap second. -/
def seconds? (text : List Char) : Option (List Char) :=
  match text with
  | ':' :: rest => do
    let (second, rest) ← field 2 0 rest
    if second ≤ 60 then secondFraction? rest else none
  | rest => some rest

/-- A time at the start of a text; answers the rest. -/
def time? (text : List Char) : Option (List Char) := do
  let (hour, text) ← field 2 0 text
  let (minute, text) ← field 2 0 (← after? ':' text)
  if hour ≤ 23 ∧ minute ≤ 59 then seconds? text else none

/-- Is a text nothing, or the distance from universal time? -/
def isOffset : List Char → Bool
  | [] | ['Z'] | ['z'] => true
  | sign :: rest =>
    (sign == '+' || sign == '-') &&
      (do
        let (hours, rest) ← field 2 0 rest
        let (minutes, rest) ← field 2 0 (← after? ':' rest)
        some (decide (hours ≤ 23 ∧ minutes ≤ 59) && rest.isEmpty)).getD false

/-- Is a text a date, a time or both? -/
def isMoment (text : List Char) : Bool :=
  match date? text with
  | some [] => true
  | some (separator :: rest) =>
    (separator == 'T' || separator == 't' || separator == ' ') &&
      match time? rest with
      | some rest => isOffset rest
      | none => false
  | none => time? text == some []

/-! ## Words -/

def scalar? (word : List Char) : Option Toml :=
  if word = ['t', 'r', 'u', 'e'] then some (bool true)
  else if word = ['f', 'a', 'l', 's', 'e'] then some (bool false)
  else if isMoment word then some (moment (String.ofList word))
  else ((named? word).or (whole? word)).or (fractional? word)

end PetriTree.Toml
