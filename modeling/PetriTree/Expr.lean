import PetriTree.Number.Positional
import PetriTree.SortedMap

/-!
# PetriTree — expressions

Arc weights, transition rates and rate parameters are arithmetic expressions that may read the
marking. `#(P)` is the number of tokens in place `P`, `#(P,c)` that of one colour, `cap(P)` the
capacity of the place, and a bare word names a rate parameter.

* `Expr` — the expressions;
* `Expr.mentionedPlaces`, `Expr.mentionedColors`, `Expr.mentionedParameters` — what they read;
* `Expr.rename` — the expression with places and parameters renamed;
* `Expr.text` — the fully bracketed text.
-/

namespace PetriTree

/-- The infix operations. -/
inductive Operation where
  | add | sub | mul | div
deriving DecidableEq, Repr

namespace Operation

def sign : Operation → Char
  | add => '+'
  | sub => '-'
  | mul => '*'
  | div => '/'

def ofSign? (sign : Char) : Option Operation := [add, sub, mul, div].find? fun f => f.sign == sign

end Operation

/-- The functions that can be called. -/
inductive Callee where
  | ceil | floor | min | max
deriving DecidableEq, Repr

namespace Callee

def name : Callee → String
  | ceil => "ceil"
  | floor => "floor"
  | min => "min"
  | max => "max"

def named? (word : String) : Option Callee := [ceil, floor, min, max].find? fun f => f.name == word

def isUnary : Callee → Bool
  | ceil | floor => true
  | min | max => false

end Callee

/-- An arithmetic expression over a marking. -/
inductive Expr where
  | number (value : Float)
  | tokens (place : String) (color : Option String)
  | capacity (place : String)
  | parameter (id : String)
  | neg (inner : Expr)
  | binary (operation : Operation) (left right : Expr)
  | call (callee : Callee) (arguments : List Expr)

namespace Expr

instance : Inhabited Expr := ⟨number 0⟩

/-! ## Equality of trees -/

mutual

/-- Are two expressions the same tree? Numbers are compared by value. -/
def same : Expr → Expr → Bool
  | number x, number y => x == y
  | tokens p c, tokens q d => p == q && c == d
  | capacity p, capacity q => p == q
  | parameter r, parameter s => r == s
  | neg a, neg b => same a b
  | binary f a b, binary g c d => f == g && same a c && same b d
  | call f as, call g bs => f == g && sameAll as bs
  | _, _ => false

def sameAll : List Expr → List Expr → Bool
  | [], [] => true
  | a :: as, b :: bs => same a b && sameAll as bs
  | _, _ => false

end

/-! ## What an expression reads -/

mutual

/-- The places an expression mentions, from left to right. -/
def placeMentions : Expr → List String
  | number _ => []
  | tokens place _ => [place]
  | capacity place => [place]
  | parameter _ => []
  | neg inner => inner.placeMentions
  | binary _ left right => left.placeMentions ++ right.placeMentions
  | call _ arguments => placeMentionsAll arguments

def placeMentionsAll : List Expr → List String
  | [] => []
  | e :: rest => e.placeMentions ++ placeMentionsAll rest

end

mutual

/-- The colours an expression mentions, from left to right. -/
def colorMentions : Expr → List String
  | number _ => []
  | tokens _ color => color.toList
  | capacity _ => []
  | parameter _ => []
  | neg inner => inner.colorMentions
  | binary _ left right => left.colorMentions ++ right.colorMentions
  | call _ arguments => colorMentionsAll arguments

def colorMentionsAll : List Expr → List String
  | [] => []
  | e :: rest => e.colorMentions ++ colorMentionsAll rest

end

mutual

/-- The rate parameters an expression mentions, from left to right. -/
def parameterMentions : Expr → List String
  | number _ => []
  | tokens _ _ => []
  | capacity _ => []
  | parameter id => [id]
  | neg inner => inner.parameterMentions
  | binary _ left right => left.parameterMentions ++ right.parameterMentions
  | call _ arguments => parameterMentionsAll arguments

def parameterMentionsAll : List Expr → List String
  | [] => []
  | e :: rest => e.parameterMentions ++ parameterMentionsAll rest

end

def mentionedPlaces (e : Expr) : SortedSet String := SortedSet.ofList e.placeMentions

def mentionedColors (e : Expr) : SortedSet String := SortedSet.ofList e.colorMentions

def mentionedParameters (e : Expr) : SortedSet String := SortedSet.ofList e.parameterMentions

def mentionsPlace (e : Expr) (place : String) : Bool := e.placeMentions.contains place

mutual

/-- May the value depend on the marking? It may as soon as tokens, a capacity or a parameter is
read, even where the parameter turns out to be constant. -/
def isFunctional : Expr → Bool
  | number _ => false
  | tokens _ _ => true
  | capacity _ => true
  | parameter _ => true
  | neg inner => inner.isFunctional
  | binary _ left right => left.isFunctional || right.isFunctional
  | call _ arguments => isFunctionalAny arguments

/-- May the value of any of the expressions depend on the marking? -/
def isFunctionalAny : List Expr → Bool
  | [] => false
  | e :: rest => e.isFunctional || isFunctionalAny rest

end

/-! ## Renaming -/

mutual

/-- The expression with every place and every parameter renamed; each mention is renamed once. -/
def rename (places parameters : String → String) : Expr → Expr
  | number value => number value
  | tokens place color => tokens (places place) color
  | capacity place => capacity (places place)
  | parameter id => parameter (parameters id)
  | neg inner => neg (inner.rename places parameters)
  | binary operation left right =>
    binary operation (left.rename places parameters) (right.rename places parameters)
  | call callee arguments => call callee (renameAll places parameters arguments)

def renameAll (places parameters : String → String) : List Expr → List Expr
  | [] => []
  | e :: rest => e.rename places parameters :: renameAll places parameters rest

end

/-! ## Text -/

mutual

/-- The text of an expression; every infix operation and every negated part is bracketed, so the
text needs no rule of precedence. -/
def chars : Expr → List Char
  | number value => Number.render value
  | tokens place none => '#' :: '(' :: place.toList ++ [')']
  | tokens place (some color) => '#' :: '(' :: place.toList ++ ',' :: color.toList ++ [')']
  | capacity place => 'c' :: 'a' :: 'p' :: '(' :: place.toList ++ [')']
  | parameter id => id.toList
  | neg inner => '-' :: '(' :: inner.chars ++ [')']
  | binary operation left right => '(' :: left.chars ++ operation.sign :: right.chars ++ [')']
  | call callee arguments => callee.name.toList ++ '(' :: charsAll arguments ++ [')']

/-- The texts of arguments, parted by commas. -/
def charsAll : List Expr → List Char
  | [] => []
  | [e] => e.chars
  | e :: rest => e.chars ++ ',' :: charsAll rest

end

def text (e : Expr) : String := String.ofList e.chars

end Expr

end PetriTree
