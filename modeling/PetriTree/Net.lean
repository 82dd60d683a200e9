import PetriTree.Expr.Reader
import PetriTree.Net.Error

/-!
# PetriTree — editable nets

A net keeps its components by id, in the order in which they were added. Every edit is checked; a
refused one leaves the net as it is. A structural edit advances `revision`, a change of tokens
`markingRevision`, so whatever was derived from the net can tell when it is out of date.

* `Net.addColor` … `Net.addArc` — adding components;
* `Net.removePlace` … `Net.removeParameter` — removing them;
* `Net.setTokens` … `Net.setDelay` — changing them;
* `Net.component` — any component by kind and id.
-/

namespace PetriTree

/-- A net under construction. -/
structure Net where
  name : String
  colors : Table TokenColor
  notes : Table Note
  places : Table Place
  parameters : Table RateParameter
  transitions : Table Transition
  arcs : Table Arc
  revision : Nat
  markingRevision : Nat

namespace Net

/-- The net that holds nothing but the default colour. -/
def new (name : String) : Net where
  name := name
  colors := Table.empty.insert defaultColor TokenColor.default
  notes := Table.empty
  places := Table.empty
  parameters := Table.empty
  transitions := Table.empty
  arcs := Table.empty
  revision := 0
  markingRevision := 0

instance : Inhabited Net := ⟨new ""⟩

def touch (net : Net) : Net := { net with revision := net.revision + 1 }

/-! ## Look-up -/

def place (net : Net) (id : String) : Except NetError Place := NetError.required id .place (net.places.get? id)

def transition (net : Net) (id : String) : Except NetError Transition :=
  NetError.required id .transition (net.transitions.get? id)

def arc (net : Net) (id : String) : Except NetError Arc := NetError.required id .arc (net.arcs.get? id)

def component (net : Net) (id : String) (kind : ComponentKind) : Except NetError Component :=
  NetError.required id kind <|
    match kind with
    | .color => (net.colors.get? id).map .color
    | .note => (net.notes.get? id).map .note
    | .place => (net.places.get? id).map .place
    | .rateParameter => (net.parameters.get? id).map .rateParameter
    | .transition => (net.transitions.get? id).map .transition
    | .arc => (net.arcs.get? id).map .arc

/-- The arcs into transitions, in order. -/
def inboundArcs (net : Net) : List Arc := net.arcs.values.filter Arc.isInbound

/-- The arcs out of transitions, in order. -/
def outboundArcs (net : Net) : List Arc := net.arcs.values.filter fun a => !a.isInbound

/-- Is the id taken by a place or a transition? The two share their ids. -/
def isNode (net : Net) (id : String) : Bool := net.places.contains id || net.transitions.contains id

/-! ## Adding -/

def refuseIf (condition : Bool) (error : NetError) : Except NetError Unit :=
  if condition then .error error else .ok ()

def checkExpression (component text : String) : Except NetError Unit :=
  match Expr.ofText text with
  | .ok _ => .ok ()
  | .error cause => .error (.invalidExpression component cause)

def addColor (net : Net) (color : TokenColor) : Except NetError Net := do
  refuseIf (net.colors.contains color.id) (.duplicate color.id .color)
  return { net with colors := net.colors.insert color.id color }.touch

def addNote (net : Net) (note : Note) : Except NetError Net := do
  refuseIf (net.notes.contains note.id) (.duplicate note.id .note)
  return { net with notes := net.notes.insert note.id note }.touch

def addPlace (net : Net) (place : Place) : Except NetError Net := do
  refuseIf (net.isNode place.id) (.duplicate place.id .place)
  return { net with places := net.places.insert place.id place }.touch

def addParameter (net : Net) (parameter : RateParameter) : Except NetError Net := do
  refuseIf (net.parameters.contains parameter.id) (.duplicate parameter.id .rateParameter)
  checkExpression parameter.id parameter.expression
  return { net with parameters := net.parameters.insert parameter.id parameter }.touch

/-- Adds a transition; a rate parameter it names has to exist. -/
def addTransition (net : Net) (transition : Transition) : Except NetError Net := do
  refuseIf (net.isNode transition.id) (.duplicate transition.id .transition)
  match transition.rate with
  | .expression text => checkExpression transition.id text
  | .parameter id => refuseIf (!net.parameters.contains id) (.notFound id .rateParameter)
  return { net with transitions := net.transitions.insert transition.id transition }.touch

def checkStatus (arc : Arc) (status : PlaceStatus) : Except NetError Unit := do
  refuseIf (status.inputOnly && arc.isInbound) (.feedsFromInputOnly arc.id arc.place)
  refuseIf (status.outputOnly && !arc.isInbound) (.fillsOutputOnly arc.id arc.place)

/-- Refuses weights of unknown colours and weights that are no expressions. -/
def checkWeights (net : Net) (arc : String) : List (String × String) → Except NetError Unit
  | [] => .ok ()
  | (color, weight) :: rest => do
    refuseIf (!net.colors.contains color) (.notFound color .color)
    checkExpression arc weight
    checkWeights net arc rest

/-- Adds an arc, after checking both ends, the status of its place and its weights. -/
def addArc (net : Net) (arc : Arc) : Except NetError Net := do
  refuseIf (net.arcs.contains arc.id) (.duplicate arc.id .arc)
  -- which end has to be the place follows from the direction
  match net.places.get? arc.place, net.transitions.contains arc.transition with
  | some place, true => checkStatus arc place.status
  | _, _ => .error (.invalidEndpoint arc.id arc.source arc.target)
  refuseIf (!arc.isInbound && arc.kind != .normal) (.outboundKind arc.id)
  checkWeights net arc.id arc.weights.entries
  return { net with arcs := net.arcs.insert arc.id arc }.touch

/-! ## Removing -/

/-- Removes a place together with every arc attached to it. -/
def removePlace (net : Net) (id : String) : Except NetError (Place × Net) := do
  let place ← net.place id
  return (place, { net with
    places := net.places.erase id
    arcs := net.arcs.filter fun _ arc => arc.place != id }.touch)

/-- Removes a transition together with every arc attached to it. -/
def removeTransition (net : Net) (id : String) : Except NetError (Transition × Net) := do
  let transition ← net.transition id
  return (transition, { net with
    transitions := net.transitions.erase id
    arcs := net.arcs.filter fun _ arc => arc.transition != id }.touch)

def removeArc (net : Net) (id : String) : Except NetError (Arc × Net) := do
  let arc ← net.arc id
  return (arc, { net with arcs := net.arcs.erase id }.touch)

/-- Removes a rate parameter that no transition has as its rate. -/
def removeParameter (net : Net) (id : String) : Except NetError (RateParameter × Net) := do
  match net.transitions.values.find? fun t => t.rate == .parameter id with
  | some user => .error (.inUse id .rateParameter user.id)
  | none => .ok ()
  let parameter ← NetError.required id .rateParameter (net.parameters.get? id)
  return (parameter, { net with parameters := net.parameters.erase id }.touch)

/-! ## Changing -/

def setTokens (net : Net) (place color : String) (n : Count) : Except NetError Net := do
  refuseIf (!net.colors.contains color) (.notFound color .color)
  let _ ← net.place place
  return { net with
    places := net.places.modify place fun p => { p with tokens := p.tokens.insert color n }
    markingRevision := net.markingRevision + 1 }

def setCapacity (net : Net) (place : String) (capacity : UInt64) : Except NetError Net := do
  let _ ← net.place place
  return { net with places := net.places.modify place fun p => { p with capacity := capacity } }.touch

def setStatus (net : Net) (place : String) (status : PlaceStatus) : Except NetError Net := do
  let _ ← net.place place
  return { net with places := net.places.modify place fun p => { p with status := status } }.touch

def setWeight (net : Net) (arc color expression : String) : Except NetError Net := do
  checkExpression arc expression
  refuseIf (!net.colors.contains color) (.notFound color .color)
  let _ ← net.arc arc
  return { net with
    arcs := net.arcs.modify arc fun a => { a with weights := a.weights.insert color expression } }.touch

def setRate (net : Net) (transition : String) (rate : Rate) : Except NetError Net := do
  match rate with
  | .expression text => checkExpression transition text
  | .parameter _ => .ok ()
  let _ ← net.transition transition
  return { net with
    transitions := net.transitions.modify transition fun t => { t with rate := rate } }.touch

def setDelay (net : Net) (transition : String) (delay : UInt64) : Except NetError Net := do
  let _ ← net.transition transition
  return { net with
    transitions := net.transitions.modify transition fun t => { t with delay := delay } }.touch

end Net

end PetriTree
