import PetriTree.Expr.Evaluate
import PetriTree.Text.Alphanumeric

/-!
# PetriTree — reading expressions

    expr   := term (("+" | "-") term)*
    term   := unary (("*" | "/") unary)*
    unary  := "-" unary | atom
    atom   := number | "#" "(" word ["," word] ")" | "cap" "(" word ")"
            | ("min" | "max") "(" expr ("," expr)* ")" | ("ceil" | "floor") "(" expr ")"
            | "(" expr ")" | word

Infix operations associate to the left. Blanks may stand around every token; words and numbers reach
as far as they can. The alternatives of an atom are tried in the order given, and one that fails in
its middle is given up for the next, so `ceil` with two arguments is read as the word `ceil`.

* `Expr.ofText` — the expression of a text, or where reading stopped.
-/

namespace PetriTree.Expr

/-! ## Tokens -/

def isBlank (c : Char) : Bool := c == ' ' || c == '\t' || c == '\r' || c == '\n'

def isWordChar (c : Char) : Bool := c == '_' || c == '.' || Text.isAlphanumeric c

def skip (text : List Char) : List Char := text.dropWhile isBlank

def char? (c : Char) : List Char → Option (List Char)
  | [] => none
  | first :: rest => if first = c then some rest else none

def spacedChar? (c : Char) (text : List Char) : Option (List Char) := (char? c (skip text)).map skip

def tag? : List Char → List Char → Option (List Char)
  | [], text => some text
  | c :: cs, text => (char? c text).bind (tag? cs)

/-- Reads a word, which has at least one character. -/
def word? (text : List Char) : Option (String × List Char) :=
  match text.span isWordChar with
  | ([], _) => none
  | (word, rest) => some (String.ofList word, rest)

def spacedWord? (text : List Char) : Option (String × List Char) :=
  (word? (skip text)).map fun (word, rest) => (word, skip rest)

/-! ## Atoms without parts -/

/-- Reads digits with an optional fraction; a point that no digit follows is left unread. -/
def number? (text : List Char) : Option (Expr × List Char) :=
  match text.span Char.isDigit with
  | ([], _) => none
  | (integer, '.' :: rest) =>
    match rest.span Char.isDigit with
    | ([], _) => some (number (Number.Decimal.ofDigits integer []).toFloat, '.' :: rest)
    | (fraction, rest) => some (number (Number.Decimal.ofDigits integer fraction).toFloat, rest)
  | (integer, rest) => some (number (Number.Decimal.ofDigits integer []).toFloat, rest)

def colorOption (text : List Char) : Option String × List Char :=
  match char? ',' text with
  | none => (none, text)
  | some rest =>
    match spacedWord? rest with
    | none => (none, text)
    | some (color, rest) => (some color, rest)

def tokens? (text : List Char) : Option (Expr × List Char) := do
  let text ← char? '#' text
  let text ← spacedChar? '(' text
  let (place, text) ← spacedWord? text
  let (color, text) := colorOption text
  let text ← char? ')' text
  some (tokens place color, text)

def capacity? (text : List Char) : Option (Expr × List Char) := do
  let text ← tag? ['c', 'a', 'p'] text
  let text ← spacedChar? '(' text
  let (place, text) ← spacedWord? text
  let text ← char? ')' text
  some (capacity place, text)

def parameter? (text : List Char) : Option (Expr × List Char) :=
  (word? text).map fun (id, rest) => (parameter id, rest)

def callee? (text : List Char) : Option (Callee × List Char) :=
  [Callee.ceil, Callee.floor, Callee.min, Callee.max].findSome? fun callee =>
    (tag? callee.name.toList text).map fun rest => (callee, rest)

def operation? (first second : Operation) (text : List Char) : Option (Operation × List Char) :=
  match spacedChar? first.sign text with
  | some rest => some (first, rest)
  | none => (spacedChar? second.sign text).map fun rest => (second, rest)

/-! ## The grammar -/

mutual

def expr? : Nat → List Char → Option (Expr × List Char)
  | 0, _ => none
  | fuel + 1, text => do
    let (first, text) ← term? fuel text
    some (terms fuel first text)

/-- Reads further summands; one that does not read is left with its sign. -/
def terms : Nat → Expr → List Char → Expr × List Char
  | 0, left, text => (left, text)
  | fuel + 1, left, text =>
    match operation? .add .sub text with
    | none => (left, text)
    | some (operation, rest) =>
      match term? fuel rest with
      | none => (left, text)
      | some (right, rest) => terms fuel (binary operation left right) rest

def term? : Nat → List Char → Option (Expr × List Char)
  | 0, _ => none
  | fuel + 1, text => do
    let (first, text) ← unary? fuel text
    some (unaries fuel first text)

/-- Reads further factors; one that does not read is left with its sign. -/
def unaries : Nat → Expr → List Char → Expr × List Char
  | 0, left, text => (left, text)
  | fuel + 1, left, text =>
    match operation? .mul .div text with
    | none => (left, text)
    | some (operation, rest) =>
      match unary? fuel rest with
      | none => (left, text)
      | some (right, rest) => unaries fuel (binary operation left right) rest

def unary? : Nat → List Char → Option (Expr × List Char)
  | 0, _ => none
  | fuel + 1, text =>
    match (spacedChar? '-' text).bind (unary? fuel) with
    | some (inner, rest) => some (neg inner, rest)
    -- no atom starts with the sign, so a sign before nothing fails here too
    | none => (atom? fuel (skip text)).map fun (e, rest) => (e, skip rest)

def atom? : Nat → List Char → Option (Expr × List Char)
  | 0, _ => none
  | fuel + 1, text =>
    -- a word may start with `cap` or with the word of a function, so bare words come last
    (number? text).orElse fun _ =>
    (tokens? text).orElse fun _ =>
    (capacity? text).orElse fun _ =>
    (call? fuel text).orElse fun _ =>
    (bracketed? fuel text).orElse fun _ =>
    parameter? text

def call? : Nat → List Char → Option (Expr × List Char)
  | 0, _ => none
  | fuel + 1, text => do
    let (callee, text) ← callee? text
    let text ← spacedChar? '(' text
    let (first, text) ← expr? fuel (skip text)
    let (rest, text) := arguments fuel (skip text)
    let text ← char? ')' text
    if callee.isUnary && !rest.isEmpty then none else some (call callee (first :: rest), text)

/-- Reads further arguments; one that does not read is left with its comma. -/
def arguments : Nat → List Char → List Expr × List Char
  | 0, text => ([], text)
  | fuel + 1, text =>
    match char? ',' text with
    | none => ([], text)
    | some rest =>
      match expr? fuel (skip rest) with
      | none => ([], text)
      | some (first, rest) =>
        let (others, rest) := arguments fuel (skip rest)
        (first :: others, rest)

def bracketed? : Nat → List Char → Option (Expr × List Char)
  | 0, _ => none
  | fuel + 1, text => do
    let text ← char? '(' text
    let (inner, text) ← expr? fuel (skip text)
    let text ← char? ')' (skip text)
    some (inner, text)

end

/-- How many nested steps reading a text can take: a round through the grammar takes six and reads
at least one character. -/
def depth (text : List Char) : Nat := 6 * (text.length + 1)

/-- The expression of a text, or where reading stopped. -/
def ofChars (text : List Char) : Except ParseFailure Expr :=
  match expr? (depth text) (skip text) with
  | none => .error (.noExpression (String.ofList (skip text)))
  | some (e, rest) =>
    match skip rest with
    | [] => .ok e
    | rest => .error (.leftover (String.ofList rest))

/-- The expression of a text. -/
def ofText (text : String) : Except ExprError Expr :=
  match ofChars text.toList with
  | .ok e => .ok e
  | .error failure => .error (.unreadable text failure)

end PetriTree.Expr
