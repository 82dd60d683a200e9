import PetriTree.Flat.Assembly
import PetriTree.Flat.Cycle
import PetriTree.Flat.Net

/-!
# PetriTree — from an assembly to a flat net

Every expression is read once and everything it mentions has to be there, so that later evaluation
can fail on values only. Rate parameters come first, then rates, then arcs.

* `Assembly.compile` — the flat net of an assembly;
* `FlatNet.ofTree` — the flat net of an include tree.
-/

namespace PetriTree

namespace Assembly

/-- The first member of a set that a table lacks. -/
def firstMissing (mentions : SortedSet String) (t : Table α) : Option String :=
  mentions.toList.find? fun id => !t.contains id

/-- Refuses an expression that mentions what the assembly lacks: places first, then colours, then
rate parameters. -/
def checkMentions (a : Assembly) (component : String) (e : Expr) : Except FlattenError Unit :=
  match firstMissing e.mentionedPlaces a.places with
  | some place => .error (.unknownPlace component place)
  | none =>
    match firstMissing e.mentionedColors a.colors with
    | some color => .error (.unknownColor component color)
    | none =>
      match firstMissing e.mentionedParameters a.parameters with
      | some parameter => .error (.unknownParameter component parameter)
      | none => .ok ()

def compileText (a : Assembly) (component text : String) : Except FlattenError Expr := do
  let e ← read component text
  a.checkMentions component e
  return e

def compileParameters (a : Assembly) : List RateParameter → Except FlattenError (List (String × Expr))
  | [] => .ok []
  | p :: rest => do
    let e ← a.compileText p.id p.expression
    let others ← a.compileParameters rest
    return (p.id, e) :: others

def compileTransition (a : Assembly) (t : Transition) : Except FlattenError FlatTransition := do
  -- a rate parameter is an expression that consists of its name
  let e ← match t.rate with
    | .expression text => read t.id text
    | .parameter id => .ok (.parameter id)
  a.checkMentions t.id e
  return ⟨t, e⟩

/-- Refuses an end of an arc that is neither a place nor a transition. -/
def checkEndpoint (a : Assembly) (arc endpoint : String) : Except FlattenError Unit :=
  -- which end is the place is not asked again: the nets saw to that
  if a.places.contains endpoint || a.transitions.contains endpoint then .ok ()
  else .error (.danglingArc arc endpoint)

def compileWeights (a : Assembly) (arc : String) :
    List (String × String) → Except FlattenError (List (String × Expr))
  | [] => .ok []
  | (color, text) :: rest => do
    -- the colour before its text: a weight of an unknown colour is not read at all
    if !a.colors.contains color then .error (.unknownColor arc color)
    let e ← a.compileText arc text
    let others ← a.compileWeights arc rest
    return (color, e) :: others

/-- An arc with its ends checked and its weights read and checked. -/
def compileArc (a : Assembly) (arc : Arc) : Except FlattenError FlatArc := do
  a.checkEndpoint arc.id arc.place
  a.checkEndpoint arc.id arc.transition
  return ⟨arc, ← a.compileWeights arc.id arc.weights.entries⟩

/-- The flat net of an assembly. -/
def compile (a : Assembly) (name : String) : Except FlattenError FlatNet := do
  let definitions ← a.compileParameters a.parameters.values
  let definitions ← match definitionOrder definitions with
    | .ok order => .ok order
    | .error parameter => .error (.parameterCycle parameter)
  let transitions ← a.transitions.mapExcept fun _ => a.compileTransition
  let arcs ← a.arcs.mapExcept fun _ => a.compileArc
  return {
    name := name
    colors := a.colors
    notes := a.notes
    places := a.places
    parameters := a.parameters
    definitions := definitions
    transitions := transitions
    arcs := arcs
    bindings := a.bindings }

end Assembly

/-- The flat net of an include tree, named as the net of its root. -/
def FlatNet.ofTree (tree : IncludeTree) : Except FlattenError FlatNet := do
  let a ← Assembly.joined tree
  a.compile (((tree.net? tree.root).map Net.name).getD "")

end PetriTree
