import PetriTree.Count
import PetriTree.Expr
import PetriTree.Text.Quoted

/-!
# PetriTree — the value of an expression

An expression is evaluated from left to right in binary64. Every part has to be a number: the first
part whose value is not one, or which cannot be looked up, decides the error.

* `ExprError` — why an expression has no value or cannot be read, with its `code` and `message`;
* `Reading` — what an expression looks up;
* `Expr.evaluate` — the value;
* `toCount`, `Expr.evaluateWeight` — the value as a number of tokens.
-/

namespace PetriTree

/-- How reading an expression failed: where no expression begins, or what follows a complete one. -/
inductive ParseFailure where
  | noExpression (rest : String)
  | leftover (rest : String)
deriving DecidableEq, Repr

/-- Why an expression cannot be read or has no value. -/
inductive ExprError where
  | unreadable (input : String) (failure : ParseFailure)
  | unknownPlace (place : String)
  | unknownColor (color : String)
  | unknownParameter (id : String)
  | divisionByZero
  | negativeWeight (value : Float)
  | notANumber
  | arity (callee : Callee) (count : Nat)
deriving DecidableEq

/-- What went wrong while reading, with the unread rest. -/
def ParseFailure.message : ParseFailure → String
  | noExpression rest => "Parsing Error: Error \x7b input: " ++ Text.quote rest ++ ", code: TakeWhile1 \x7d"
  | leftover rest => "Parsing Error: Error \x7b input: " ++ Text.quote rest ++ ", code: Eof \x7d"

/-- The name of the cause, for programs that tell errors apart. -/
def ExprError.code : ExprError → String
  | unreadable .. => "Parse"
  | unknownPlace _ => "UnknownPlace"
  | unknownColor _ => "UnknownColor"
  | unknownParameter _ => "UnknownParameter"
  | divisionByZero => "DivisionByZero"
  | negativeWeight _ => "NegativeWeight"
  | notANumber => "NotANumber"
  | arity .. => "Arity"

def ExprError.message : ExprError → String
  | unreadable input failure => "cannot parse expression `" ++ input ++ "`: " ++ failure.message
  | unknownPlace place => "expression references unknown place `" ++ place ++ "`"
  | unknownColor color => "expression references unknown color `" ++ color ++ "`"
  | unknownParameter id => "expression references unknown rate parameter `" ++ id ++ "`"
  | divisionByZero => "division by zero"
  | negativeWeight value =>
    "weight evaluates to a negative value (" ++ String.ofList (Number.render value) ++ ")"
  | notANumber => "expression evaluates to NaN"
  | arity callee count => "`" ++ callee.name ++ "` cannot take " ++ toString count ++ " arguments"

/-- What an expression looks up while it is evaluated. -/
structure Reading where
  /-- The tokens of a place, of one colour or of all; nothing for an unknown place. -/
  tokens : String → Option String → Option Count
  /-- The capacity of a place; nothing for an unknown place. -/
  capacity : String → Option UInt64
  /-- The value of a rate parameter. -/
  parameter : String → Except ExprError Float

namespace Expr

def checked (value : Float) : Except ExprError Float :=
  if value.isNaN then .error .notANumber else .ok value

def found (place : String) : Option Float → Except ExprError Float
  | none => .error (.unknownPlace place)
  | some value => checked value

def operate : Operation → Float → Float → Except ExprError Float
  | .add, x, y => checked (x + y)
  | .sub, x, y => checked (x - y)
  | .mul, x, y => checked (x * y)
  -- both zeros equal zero, so neither is divided by
  | .div, x, y => if y == 0 then .error .divisionByZero else checked (x / y)

/-- The value of a call. Of equal arguments, which only zeros of either sign can be and yet differ,
the last one is the least and the greatest. -/
def apply : Callee → List Float → Except ExprError Float
  | .ceil, [x] => checked (Number.ceil x)
  | .floor, [x] => checked (Number.floor x)
  | .min, x :: rest =>
    checked ((x :: rest).foldl (fun least y => if y ≤ least then y else least)
      (Number.ofPattern false Number.infinityPattern))
  | .max, x :: rest =>
    checked ((x :: rest).foldl (fun greatest y => if greatest ≤ y then y else greatest)
      (Number.ofPattern true Number.infinityPattern))
  -- no arguments, or more than one where one is due
  | callee, values => .error (.arity callee values.length)

mutual

/-- The value of an expression. -/
def evaluate (reading : Reading) : Expr → Except ExprError Float
  | number value => checked value
  | tokens place color => found place ((reading.tokens place color).map Count.toFloat)
  | capacity place => found place ((reading.capacity place).map fun n => Number.nearest n.toNat 1)
  | parameter id => do checked (← reading.parameter id)
  | neg inner => do checked (-(← inner.evaluate reading))
  | binary operation left right => do
    let x ← left.evaluate reading
    let y ← right.evaluate reading
    operate operation x y
  | call callee arguments => do apply callee (← evaluateAll reading arguments)

def evaluateAll (reading : Reading) : List Expr → Except ExprError (List Float)
  | [] => .ok []
  | e :: rest => do
    let x ← e.evaluate reading
    let xs ← evaluateAll reading rest
    .ok (x :: xs)

end

end Expr

/-- The number of tokens a value stands for: its integer part, infinity for infinity. -/
def toCount (value : Float) : Except ExprError Count :=
  if value.isNaN then .error .notANumber
  -- zero of either sign is not below zero
  else if value < 0 then .error (.negativeWeight value)
  else if Number.magnitude value = Number.infinityPattern then .ok .infinite
  else .ok (Count.ofNat (Number.whole value))

/-- The number of tokens an expression stands for. -/
def Expr.evaluateWeight (reading : Reading) (e : Expr) : Except ExprError Count := do
  toCount (← e.evaluate reading)

end PetriTree
