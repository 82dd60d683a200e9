/-!
# PetriTree — TOML documents

A document is a table. Its lines give values to paths of keys; headers say to which table the lines
after them belong. A table may be named on the way to another before it is opened by its own header,
but no table is opened twice, and no value is given twice.

* `Toml` — values;
* `Toml.Section` — a header with the lines under it;
* `Toml.ofSections?` — the table of a document.
-/

namespace PetriTree

/-- A value. The members of a table stand in the order in which they were first named. -/
inductive Toml where
  | str (text : String)
  | int (value : Int)
  | float (value : Float)
  | bool (value : Bool)
  /-- A date, a time or both, as written. -/
  | moment (text : String)
  | arr (items : List Toml)
  | table (members : List (String × Toml))

namespace Toml

def field? (key : String) : Toml → Option Toml
  | table members => members.lookup key
  | _ => none

/-! ## Tables in the making -/

/-- How a table came into being. -/
inductive Origin where
  /-- By its own header. -/
  | opened
  /-- On the way to a table that a header named. -/
  | passed
  /-- By a path of keys in a line. -/
  | dotted
deriving DecidableEq

/-- What a key stands for while a document is read. -/
inductive Entry where
  | value (value : Toml)
  | table (origin : Origin) (members : List (String × Entry))
  /-- The tables of a repeated header, the last one first. -/
  | repeated (tables : List (List (String × Entry)))

/-- The members of a table in the making. -/
abbrev Members : Type := List (String × Entry)

def replace (members : Members) (key : String) (entry : Entry) : Members :=
  members.map fun e => if e.1 = key then (key, entry) else e

/-- Changes the table at the end of a path, making the tables on the way that are missing. The change
is told the origin of that table. A path in a line, which makes `dotted` tables, does not enter a
table that was opened by its own header. -/
def enter? (way : Origin) (change : Origin → Members → Option Members) (origin : Origin) :
    List String → Members → Option Members
  | [], members => change origin members
  | key :: path, members =>
    match members.lookup key with
    | none => do
      let inner ← enter? way change way path []
      some (members ++ [(key, .table way inner)])
    | some (.value _) => none
    | some (.table known inner) =>
      -- a header speaks for its table alone; no line elsewhere may add to it
      if way = .dotted ∧ known = .opened then none
      else do
        let inner ← enter? way change known path inner
        some (replace members key (.table known inner))
    | some (.repeated []) => none
    -- a path leads into the table that was opened last
    | some (.repeated (last :: earlier)) => do
      let last ← enter? way change .opened path last
      some (replace members key (.repeated (last :: earlier)))

/-- A key, reached by the keys before it. -/
structure Path where
  before : List String
  key : String

/-- Gives a value to a path. Beyond the first key, the table the value goes into must have been made
by such paths. -/
def assign? (members : Members) (line : Path × Toml) : Option Members :=
  let add (origin : Origin) (members : Members) : Option Members :=
    if (!line.1.before.isEmpty && origin != .dotted) || (members.lookup line.1.key).isSome then none
    else some (members ++ [(line.1.key, .value line.2)])
  enter? .dotted add .opened line.1.before members

def assignAll? (members : Members) (lines : List (Path × Toml)) : Option Members := lines.foldlM assign? members

mutual

def Entry.close : Entry → Toml
  | .value value => value
  | .table _ members => .table (closeMembers members)
  | .repeated tables => .arr (closeTables tables).reverse

def closeMembers : List (String × Entry) → List (String × Toml)
  | [] => []
  | (key, entry) :: rest => (key, entry.close) :: closeMembers rest

def closeTables : List (List (String × Entry)) → List Toml
  | [] => []
  | members :: rest => .table (closeMembers members) :: closeTables rest

end

/-- The table of lines alone; nothing when they contradict each other. -/
def ofLines? (lines : List (Path × Toml)) : Option Toml := do
  some (.table (closeMembers (← assignAll? [] lines)))

/-! ## Documents -/

/-- What opens a section. -/
inductive Header where
  /-- One table. -/
  | single (path : Path)
  /-- One more of several tables. -/
  | repeated (path : Path)

/-- A header with the lines up to the next one. -/
structure Section where
  header : Header
  lines : List (Path × Toml)

def addSection? (document : Members) (part : Section) : Option Members :=
  match part.header with
  | .single path =>
    let openHere (_ : Origin) (members : Members) : Option Members :=
      match members.lookup path.key with
      | none => do
        let inner ← assignAll? [] part.lines
        some (members ++ [(path.key, .table .opened inner)])
      | some (.table .passed inner) => do
        let inner ← assignAll? inner part.lines
        some (replace members path.key (.table .opened inner))
      | some _ => none
    enter? .passed openHere .opened path.before document
  | .repeated path =>
    let extendHere (_ : Origin) (members : Members) : Option Members :=
      match members.lookup path.key with
      | none => do
        let inner ← assignAll? [] part.lines
        some (members ++ [(path.key, .repeated [inner])])
      | some (.repeated tables) => do
        let inner ← assignAll? [] part.lines
        some (replace members path.key (.repeated (inner :: tables)))
      | some _ => none
    enter? .passed extendHere .opened path.before document

/-- The table of a document: the lines before the first header, then the sections. -/
def ofSections? (lines : List (Path × Toml)) (sections : List Section) : Option Toml := do
  let top ← assignAll? [] lines
  some (.table (closeMembers (← sections.foldlM addSection? top)))

end Toml

end PetriTree
