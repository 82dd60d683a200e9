import PetriTree.Json
import PetriTree.Net

/-!
# PetriTree — nets as JSON documents

A net is stored as a document with one object per kind of component, keyed by id. Reading checks
the shape of the document only: ids, references and expressions are taken as they stand, under the
keys they stand under. A record may also be written as the list of its fields, a plain word as an
object with that one member.

* `Net.ofJson?` — the net of a document;
* `Net.toJson` — the document of a net.
-/

namespace PetriTree.Document

/-! ## Reading parts -/

def text? : Json → Option String
  | .str s => some s
  | _ => none

def bool? : Json → Option Bool
  | .bool b => some b
  | _ => none

def int? (least greatest : Int) : Json → Option Int
  | .int n => if least ≤ n ∧ n ≤ greatest then some n else none
  | _ => none

def word? (value : Json) : Option UInt64 :=
  (int? 0 0xffffffffffffffff value).map fun n => UInt64.ofNat n.toNat

def byte? (value : Json) : Option UInt8 := (int? 0 255 value).map fun n => UInt8.ofNat n.toNat

/-- A number, whole or not. -/
def float? : Json → Option Float
  | .float x => some x
  | .int n =>
    let x := Number.nearest n.natAbs 1
    some (if n < 0 then -x else x)
  | _ => none

/-- Nothing, or a value. -/
def optional? (read : Json → Option α) : Json → Option (Option α)
  | .null => some none
  | value => (read value).map some

def plainWord? : Json → Option String
  | .str s => some s
  | .obj [(s, .null)] => some s
  | _ => none

/-- The fields of a record; a missing member counts as null. -/
def fields? (names : List String) : Json → Option (List Json)
  | .obj members => some (names.map fun name => (members.lookup name).getD .null)
  | .arr items => if items.length = names.length then some items else none
  | _ => none

def items? (read : Json → Option α) : Json → Option (List α)
  | .arr items => items.mapM read
  | _ => none

/-- The value of every member of an object, by name. -/
def table? (read : Json → Option α) : Json → Option (Table α)
  | .obj members =>
    (members.mapM fun (m : String × Json) => (read m.2).map fun a => (m.1, a)).map Table.ofList
  | _ => none

/-! ## Reading components -/

def color? (value : Json) : Option TokenColor := do
  match ← fields? ["id", "rgb"] value with
  | [id, .arr [red, green, blue]] =>
    some ⟨← text? id, ← byte? red, ← byte? green, ← byte? blue⟩
  | _ => none

def note? (value : Json) : Option Note := do
  match ← fields? ["id", "text", "x", "y"] value with
  | [id, text, x, y] => some ⟨← text? id, ← text? text, ← float? x, ← float? y⟩
  | _ => none

def mergeStates : List (String × MergeState) :=
  [("NoOp", .noOp), ("Home", .home), ("Available", .available), ("InUse", .inUse), ("Away", .away)]

def home? (value : Json) : Option HomeRef := do
  match ← fields? ["node", "place"] value with
  | [node, place] => some ⟨⟨(← int? 0 0xffffffff node).toNat⟩, ← text? place⟩
  | _ => none

def status? (value : Json) : Option PlaceStatus := do
  match ← fields? ["merge", "home", "external", "input_only", "output_only"] value with
  | [merge, home, external, inputOnly, outputOnly] =>
    some ⟨← mergeStates.lookup (← plainWord? merge), ← optional? home? home, ← bool? external,
      ← bool? inputOnly, ← bool? outputOnly⟩
  | _ => none

def place? (value : Json) : Option Place := do
  match ← fields? ["id", "tokens", "capacity", "status"] value with
  | [id, tokens, capacity, status] =>
    some ⟨← text? id, ← table? (fun n => (word? n).map Count.ofRank) tokens, ← word? capacity,
      ← status? status⟩
  | _ => none

def parameter? (value : Json) : Option RateParameter := do
  match ← fields? ["id", "expression"] value with
  | [id, expression] => some ⟨← text? id, ← text? expression⟩
  | _ => none

def transitionKinds : List (String × TransitionKind) :=
  [("Immediate", .immediate), ("Timed", .timed), ("TimedInfiniteServer", .timedInfiniteServer)]

def rate? : Json → Option Rate
  | .obj [("Expression", text)] => (text? text).map .expression
  | .obj [("Parameter", id)] => (text? id).map .parameter
  | _ => none

def transition? (value : Json) : Option Transition := do
  match ← fields? ["id", "priority", "kind", "rate", "delay", "handler"] value with
  | [id, priority, kind, rate, delay, handler] =>
    some ⟨← text? id, ← int? (-0x80000000) 0x7fffffff priority, ← transitionKinds.lookup (← plainWord? kind),
      ← rate? rate, ← word? delay, ← optional? text? handler⟩
  | _ => none

def directions : List (String × ArcDirection) :=
  [("PlaceToTransition", .placeToTransition), ("TransitionToPlace", .transitionToPlace)]

def arcKinds : List (String × ArcKind) := [("Normal", .normal), ("Inhibitor", .inhibitor), ("Test", .test)]

def point? (value : Json) : Option ArcPoint := do
  match ← fields? ["x", "y", "curved"] value with
  | [x, y, curved] => some ⟨← float? x, ← float? y, ← bool? curved⟩
  | _ => none

def arcBetween (id source target : String) (direction : ArcDirection) (kind : ArcKind)
    (weights : Table String) (points : List ArcPoint) : Arc :=
  match direction with
  | .placeToTransition => ⟨id, source, target, direction, kind, weights, points⟩
  | .transitionToPlace => ⟨id, target, source, direction, kind, weights, points⟩

def arc? (value : Json) : Option Arc := do
  match ← fields? ["id", "source", "target", "direction", "kind", "weights", "points"] value with
  | [id, source, target, direction, kind, weights, points] =>
    some (arcBetween (← text? id) (← text? source) (← text? target)
      (← directions.lookup (← plainWord? direction)) (← arcKinds.lookup (← plainWord? kind))
      (← table? text? weights) (← items? point? points))
  | _ => none

/-! ## Writing -/

/-- The name of a value in a list of names. -/
def nameIn [BEq α] (names : List (String × α)) (value : α) : String :=
  ((names.find? fun e => e.2 == value).map Prod.fst).getD ""

def ofTable (write : α → Json) (t : Table α) : Json := .obj (t.entries.map fun e => (e.1, write e.2))

/-- Nothing, or a value. -/
def ofOption (write : α → Json) : Option α → Json
  | none => .null
  | some a => write a

def ofColor (c : TokenColor) : Json :=
  .obj [("id", .str c.id), ("rgb", .arr [.nat c.red.toNat, .nat c.green.toNat, .nat c.blue.toNat])]

def ofNote (a : Note) : Json :=
  .obj [("id", .str a.id), ("text", .str a.text), ("x", .float a.x), ("y", .float a.y)]

def ofHome (h : HomeRef) : Json := .obj [("node", .nat h.node.index), ("place", .str h.place)]

def ofStatus (s : PlaceStatus) : Json :=
  .obj [("merge", .str (nameIn mergeStates s.merge)), ("home", ofOption ofHome s.home),
    ("external", .bool s.external), ("input_only", .bool s.inputOnly), ("output_only", .bool s.outputOnly)]

def ofPlace (p : Place) : Json :=
  .obj [("id", .str p.id), ("tokens", ofTable (fun n : Count => .nat n.rank) p.tokens),
    ("capacity", .nat p.capacity.toNat), ("status", ofStatus p.status)]

def ofParameter (r : RateParameter) : Json := .obj [("id", .str r.id), ("expression", .str r.expression)]

def ofRate : Rate → Json
  | .expression text => .obj [("Expression", .str text)]
  | .parameter id => .obj [("Parameter", .str id)]

def ofTransition (t : Transition) : Json :=
  .obj [("id", .str t.id), ("priority", .int t.priority), ("kind", .str (nameIn transitionKinds t.kind)),
    ("rate", ofRate t.rate), ("delay", .nat t.delay.toNat), ("handler", ofOption .str t.handler)]

def ofPoint (p : ArcPoint) : Json := .obj [("x", .float p.x), ("y", .float p.y), ("curved", .bool p.curved)]

def ofArc (a : Arc) : Json :=
  .obj [("id", .str a.id), ("source", .str a.source), ("target", .str a.target),
    ("direction", .str (nameIn directions a.direction)), ("kind", .str (nameIn arcKinds a.kind)),
    ("weights", ofTable .str a.weights), ("points", .arr (a.points.map ofPoint))]

/-- The document of a marking: counts by place and colour. -/
def ofMarking (m : Marking) : Json :=
  .obj (m.places.entries.map fun p =>
    (p.1, .obj (p.2.counts.entries.map fun c => (c.1, .nat c.2.rank))))

end PetriTree.Document

namespace PetriTree.Net

open Document

/-- The net of a document; its revisions start at zero. -/
def ofJson? (value : Json) : Option Net := do
  match ← fields? ["name", "colors", "annotations", "places", "rate_parameters", "transitions", "arcs"]
      value with
  | [name, colors, notes, places, parameters, transitions, arcs] =>
    some {
      name := ← text? name
      colors := ← table? color? colors
      notes := ← table? note? notes
      places := ← table? place? places
      parameters := ← table? parameter? parameters
      transitions := ← table? transition? transitions
      arcs := ← table? arc? arcs
      revision := 0
      markingRevision := 0 }
  | _ => none

def toJson (net : Net) : Json :=
  .obj [("name", .str net.name), ("colors", ofTable ofColor net.colors),
    ("annotations", ofTable ofNote net.notes), ("places", ofTable ofPlace net.places),
    ("rate_parameters", ofTable ofParameter net.parameters),
    ("transitions", ofTable ofTransition net.transitions), ("arcs", ofTable ofArc net.arcs)]

end PetriTree.Net
