import PetriTree.Number.Positional

/-!
# PetriTree — JSON values

Nets are exchanged and state spaces reported as JSON. Whole numbers and fractional numbers are kept
apart, because a document that writes `1.0` where a count belongs is refused. The members of an
object that was read are in name order.

* `Json` — the values;
* `Json.field?` — the member of an object;
* `Json.pretty`, `Json.compact` — the two ways of writing a value.
-/

namespace PetriTree

/-- A JSON value. -/
inductive Json where
  | null
  | bool (value : Bool)
  | int (value : Int)
  | float (value : Float)
  | str (value : String)
  | arr (items : List Json)
  | obj (members : List (String × Json))

namespace Json

instance : Inhabited Json := ⟨null⟩

def nat (n : Nat) : Json := int n

def field? (name : String) : Json → Option Json
  | obj members => members.lookup name
  | _ => none

/-! ## Writing -/

def escape (c : Char) : List Char :=
  if c = '"' then ['\\', '"']
  else if c = '\\' then ['\\', '\\']
  else if c = '\n' then ['\\', 'n']
  else if c = '\r' then ['\\', 'r']
  else if c = '\t' then ['\\', 't']
  else if c.toNat = 8 then ['\\', 'b']
  else if c.toNat = 12 then ['\\', 'f']
  else if c.toNat < 32 then
    ['\\', 'u', '0', '0'] ++ (if c.toNat < 16 then ['0'] else []) ++ Nat.toDigits 16 c.toNat
  else [c]

def quote (text : String) : String :=
  String.ofList ('"' :: text.toList.flatMap escape ++ ['"'])

/-- A fractional number, with a point even when it is whole, so that it is read as one again. JSON has
no infinity and nothing that is not a number. -/
def floatText (x : Float) : String :=
  let digits := Number.render x
  if Number.infinityPattern ≤ Number.magnitude x then "null"
  else String.ofList (if digits.contains '.' then digits else digits ++ ['.', '0'])

def breakLine (depth : Nat) : String := "\n" ++ String.ofList (List.replicate (2 * depth) ' ')

/-- Items between brackets, each on a line of its own; empty brackets stay together. -/
def bracketed (opening closing : String) (depth : Nat) (items : List String) : String :=
  if items.isEmpty then opening ++ closing
  else
    opening ++ breakLine (depth + 1) ++ ("," ++ breakLine (depth + 1)).intercalate items ++
      breakLine depth ++ closing

mutual

/-- A value over several lines, nested parts indented by two blanks a level. -/
def prettyAt (depth : Nat) : Json → String
  | null => "null"
  | bool value => if value then "true" else "false"
  | int value => toString value
  | float value => floatText value
  | str value => quote value
  | arr items => bracketed "[" "]" depth (prettyItems (depth + 1) items)
  | obj members => bracketed "\x7b" "\x7d" depth (prettyMembers (depth + 1) members)

def prettyItems (depth : Nat) : List Json → List String
  | [] => []
  | item :: rest => prettyAt depth item :: prettyItems depth rest

def prettyMembers (depth : Nat) : List (String × Json) → List String
  | [] => []
  | (name, value) :: rest => (quote name ++ ": " ++ prettyAt depth value) :: prettyMembers depth rest

end

def pretty (value : Json) : String := prettyAt 0 value

mutual

def compact : Json → String
  | null => "null"
  | bool value => if value then "true" else "false"
  | int value => toString value
  | float value => floatText value
  | str value => quote value
  | arr items => "[" ++ ",".intercalate (compactItems items) ++ "]"
  | obj members => "\x7b" ++ ",".intercalate (compactMembers members) ++ "\x7d"

def compactItems : List Json → List String
  | [] => []
  | item :: rest => compact item :: compactItems rest

def compactMembers : List (String × Json) → List String
  | [] => []
  | (name, value) :: rest => (quote name ++ ":" ++ compact value) :: compactMembers rest

end

end Json

end PetriTree
