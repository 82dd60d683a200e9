import PetriTree.Json
import PetriTree.SortedMap

/-!
# PetriTree — reading JSON

Reading is total: nesting is bounded by the length of the text. A number without fraction and
exponent that fits 64 bits is a whole number. Any other is its digits, cut off where they no longer
fit 64 bits, times or divided by one power of ten, each of the three rounded to binary64. Of two
members with one name the later counts.

* `Json.ofText?` — the value of a text.
-/

namespace PetriTree.Json

def isBlank (c : Char) : Bool := c == ' ' || c == '\t' || c == '\n' || c == '\r'

def skip (text : List Char) : List Char := text.dropWhile isBlank

/-! ## Numbers -/

def wordLimit : Nat := 0xffffffffffffffff

/-- Reads digits into a significand as long as it fits 64 bits; also answers how many fitted. -/
def fitDigits (significand used : Nat) : List Char → Nat × Nat
  | [] => (significand, used)
  | c :: rest =>
    let next := significand * 10 + (c.toNat - '0'.toNat)
    if next ≤ wordLimit then fitDigits next (used + 1) rest else (significand, used)

/-- A value divided by a power of ten; powers beyond `10 ^ 308` are divided away in steps, until
nothing is left. -/
def divideByPower (x : Float) (power : Nat) : Float :=
  if power ≤ 308 then x / Number.nearest (Nat.pow 10 power) 1
  else if x == 0 then x
  else divideByPower (x / Number.nearest (Nat.pow 10 308) 1) (power - 308)
termination_by power

/-- The value of a significand and a decimal exponent; nothing when it is out of range. -/
def scale? (significand : Nat) (exponent : Int) : Option Float :=
  let x := Number.nearest significand 1
  if exponent < 0 then some (divideByPower x exponent.natAbs)
  else if significand = 0 then some x
  else if 308 < exponent then none
  else
    let y := x * Number.nearest (Nat.pow 10 exponent.toNat) 1
    if Number.magnitude y = Number.infinityPattern then none else some y

/-- The value of a number with the given digits before and after the point and exponent. -/
def fractional? (negative : Bool) (integer fraction : List Char) (exponent : Int) : Option Json :=
  let (significand, used) := fitDigits 0 0 integer
  let (significand, places) := fitDigits significand 0 fraction
  -- digits dropped before the point count as zeros, those after it not at all
  let dropped := integer.length - used
  (scale? significand (exponent + dropped - places)).map fun x => float (if negative then -x else x)

def whole? (negative : Bool) (integer : List Char) : Option Json :=
  let n := Nat.ofDigitChars 10 integer 0
  if negative then
    -- only a fractional number can tell `-0` from `0`
    if 0 < n ∧ n ≤ 0x8000000000000000 then some (int (-n)) else fractional? true integer [] 0
  else if n ≤ wordLimit then some (nat n)
  else fractional? false integer [] 0

/-- The digits at the start of a text, and the rest. -/
def spanDigits (text : List Char) : List Char × List Char := text.span Char.isDigit

/-- The exponent at the start of a text, if there is one. -/
def exponent? : List Char → Option (Option Int × List Char)
  | e :: rest =>
    if e = 'e' ∨ e = 'E' then
      let (negative, rest) := match rest with
        | '-' :: rest => (true, rest)
        | '+' :: rest => (false, rest)
        | rest => (false, rest)
      let (digits, rest) := spanDigits rest
      if digits.isEmpty then none
      else
        let n : Int := Nat.ofDigitChars 10 digits 0
        some (some (if negative then -n else n), rest)
    else some (none, e :: rest)
  | [] => some (none, [])

def number? (text : List Char) : Option (Json × List Char) := do
  let (negative, text) := match text with
    | '-' :: rest => (true, rest)
    | rest => (false, rest)
  let (integer, text) := spanDigits text
  if integer.isEmpty ∨ (1 < integer.length ∧ integer.head? = some '0') then none
  let (fraction, text) ← match text with
    | '.' :: rest =>
      let (digits, rest) := spanDigits rest
      if digits.isEmpty then none else some (some digits, rest)
    | rest => some (none, rest)
  let (exponent, text) ← exponent? text
  let value ← match fraction, exponent with
    | none, none => whole? negative integer
    | fraction, exponent => fractional? negative integer (fraction.getD []) (exponent.getD 0)
  some (value, text)

/-! ## Strings -/

def hexDigit? (c : Char) : Option Nat :=
  if '0' ≤ c ∧ c ≤ '9' then some (c.toNat - '0'.toNat)
  else if 'a' ≤ c ∧ c ≤ 'f' then some (c.toNat - 'a'.toNat + 10)
  else if 'A' ≤ c ∧ c ≤ 'F' then some (c.toNat - 'A'.toNat + 10)
  else none

def hexUnit? : List Char → Option (Nat × List Char)
  | a :: b :: c :: d :: rest => do
    let n := (← hexDigit? a) * 4096 + (← hexDigit? b) * 256 + (← hexDigit? c) * 16 + (← hexDigit? d)
    some (n, rest)
  | _ => none

/-- The character of an escape by code; a pair of surrogates is one character. -/
def unicodeEscape? (text : List Char) : Option (Char × List Char) := do
  let (first, rest) ← hexUnit? text
  -- half of a pair has to be followed by the other half
  if first < 0xd800 ∨ 0xdfff < first then some (Char.ofNat first, rest)
  else match rest with
    | '\\' :: 'u' :: rest =>
      let (second, rest) ← hexUnit? rest
      if first < 0xdc00 ∧ 0xdc00 ≤ second ∧ second ≤ 0xdfff then
        some (Char.ofNat (0x10000 + (first - 0xd800) * 1024 + (second - 0xdc00)), rest)
      else none
    | _ => none

def letterEscape? (c : Char) : Option Char :=
  if c = 'n' then some '\n'
  else if c = 't' then some '\t'
  else if c = 'r' then some '\r'
  else if c = 'b' then some (Char.ofNat 8)
  else if c = 'f' then some (Char.ofNat 12)
  else if c = '"' ∨ c = '\\' ∨ c = '/' then some c
  else none

/-- The rest of a string whose opening quote was read; `read` holds its characters in reverse. -/
def stringTail? : Nat → List Char → List Char → Option (String × List Char)
  | 0, _, _ => none
  | _ + 1, _, [] => none
  | fuel + 1, read, c :: rest =>
    if c = '"' then some (String.ofList read.reverse, rest)
    else if c = '\\' then
      match rest with
      | 'u' :: rest => do
        let (c, rest) ← unicodeEscape? rest
        stringTail? fuel (c :: read) rest
      | e :: rest => do
        stringTail? fuel ((← letterEscape? e) :: read) rest
      | [] => none
    else if c.toNat < 32 then none
    else stringTail? fuel (c :: read) rest

/-! ## Values -/

/-- An object of members, in name order, the later of two members of one name. -/
def ofMembers (members : List (String × Json)) : Json := obj (SortedMap.ofList members).entries

mutual

def value? : Nat → List Char → Option (Json × List Char)
  | 0, _ => none
  | fuel + 1, text =>
    match skip text with
    | 'n' :: 'u' :: 'l' :: 'l' :: rest => some (null, rest)
    | 't' :: 'r' :: 'u' :: 'e' :: rest => some (bool true, rest)
    | 'f' :: 'a' :: 'l' :: 's' :: 'e' :: rest => some (bool false, rest)
    | '"' :: rest => (stringTail? (rest.length + 1) [] rest).map fun (s, rest) => (str s, rest)
    | '[' :: rest =>
      match skip rest with
      | ']' :: rest => some (arr [], rest)
      | rest => (items? fuel rest).map fun (items, rest) => (arr items, rest)
    | '{' :: rest =>
      match skip rest with
      | '}' :: rest => some (obj [], rest)
      | rest => (members? fuel rest).map fun (members, rest) => (ofMembers members, rest)
    | rest => number? rest

def items? : Nat → List Char → Option (List Json × List Char)
  | 0, _ => none
  | fuel + 1, text => do
    let (item, text) ← value? fuel text
    match skip text with
    | ']' :: rest => some ([item], rest)
    | ',' :: rest =>
      let (items, rest) ← items? fuel rest
      some (item :: items, rest)
    | _ => none

def members? : Nat → List Char → Option (List (String × Json) × List Char)
  | 0, _ => none
  | fuel + 1, text =>
    match skip text with
    | '"' :: rest => do
      let (name, rest) ← stringTail? (rest.length + 1) [] rest
      match skip rest with
      | ':' :: rest =>
        let (value, rest) ← value? fuel rest
        match skip rest with
        | '}' :: rest => some ([(name, value)], rest)
        | ',' :: rest =>
          let (members, rest) ← members? fuel rest
          some ((name, value) :: members, rest)
        | _ => none
      | _ => none
    | _ => none

end

/-- The value of a text; nothing when the text is not one JSON value. -/
def ofText? (text : String) : Option Json := do
  let chars := text.toList
  let (value, rest) ← value? (chars.length + 1) chars
  if (skip rest).isEmpty then some value else none

end PetriTree.Json
