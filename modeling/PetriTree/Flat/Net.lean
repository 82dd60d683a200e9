import PetriTree.Expr.Evaluate
import PetriTree.Flat.Bindings
import PetriTree.Net.Error

/-!
# PetriTree — flat nets

A flat net is what an include tree is joined into: one name space, every expression read and checked,
every interface place merged into its home. Its structure is all that firing depends on; the marking
is given separately.

* `FlatNet` — the structure;
* `FlatNet.reading` — what expressions look up in a marking;
* `FlatNet.initial` — the marking the places start with.
-/

namespace PetriTree

/-- A transition with its rate read. -/
structure FlatTransition where
  transition : Transition
  rate : Expr

/-- An arc with its weights read. -/
structure FlatArc where
  arc : Arc
  weights : List (String × Expr)

/-- The structure of a joined net. -/
structure FlatNet where
  name : String
  colors : Table TokenColor
  notes : Table Note
  places : Table Place
  parameters : Table RateParameter
  /-- The expressions of the rate parameters, in an order in which each mentions later ones only. -/
  definitions : List (String × Expr)
  transitions : Table FlatTransition
  arcs : Table FlatArc
  bindings : Bindings

namespace FlatNet

/-! ## Look-up -/

def place (net : FlatNet) (id : String) : Except NetError Place := NetError.required id .place (net.places.get? id)

def transition (net : FlatNet) (id : String) : Except NetError Transition :=
  NetError.required id .transition ((net.transitions.get? id).map FlatTransition.transition)

def arc (net : FlatNet) (id : String) : Except NetError Arc :=
  NetError.required id .arc ((net.arcs.get? id).map FlatArc.arc)

/-- The weights of an arc; none for an unknown arc. -/
def weights (net : FlatNet) (id : String) : List (String × Expr) :=
  ((net.arcs.get? id).map FlatArc.weights).getD []

def rate (net : FlatNet) (id : String) : Option Expr := (net.transitions.get? id).map FlatTransition.rate

def isTimed (net : FlatNet) (id : String) : Bool :=
  (net.transitions.get? id).any fun t => t.transition.kind.isTimed

/-- The capacity of a place; zero, which means no bound, for an unknown place. -/
def capacity (net : FlatNet) (id : String) : UInt64 := ((net.places.get? id).map Place.capacity).getD 0

/-- The arcs into a transition, in order. -/
def inbound (net : FlatNet) (transition : String) : List FlatArc :=
  net.arcs.values.filter fun a => a.arc.isInbound && a.arc.transition == transition

/-- The arcs out of a transition, in order. -/
def outbound (net : FlatNet) (transition : String) : List FlatArc :=
  net.arcs.values.filter fun a => !a.arc.isInbound && a.arc.transition == transition

/-- The arcs by which a transition takes tokens, in order. -/
def taking (net : FlatNet) (transition : String) : List FlatArc :=
  (net.inbound transition).filter fun a => a.arc.kind == .normal

/-! ## Reading a marking -/

def tokensIn (net : FlatNet) (m : Marking) (place : String) (color : Option String) : Option Count :=
  if net.places.contains place then
    some (match color with
      | some color => m.tokens place color
      | none => m.total place)
  else none

def capacityOf (net : FlatNet) (place : String) : Option UInt64 := (net.places.get? place).map Place.capacity

/-- The value of a rate parameter defined by the first of the definitions that carries its name;
that definition is evaluated with the ones after it. -/
def parameterValue (net : FlatNet) (m : Marking) : List (String × Expr) → String → Except ExprError Float
  | [], id => .error (.unknownParameter id)
  | (key, e) :: rest, id =>
    if key = id then e.evaluate ⟨net.tokensIn m, net.capacityOf, parameterValue net m rest⟩
    else parameterValue net m rest id

/-- What expressions look up in a marking. -/
def reading (net : FlatNet) (m : Marking) : Reading :=
  ⟨net.tokensIn m, net.capacityOf, net.parameterValue m net.definitions⟩

/-- The marking the places start with. -/
def initial (net : FlatNet) : Marking :=
  Marking.ofPlaces (net.places.values.map fun p => (p.id, p.tokens.entries))

/-! ## Changing -/

def setDelay (net : FlatNet) (id : String) (delay : UInt64) : Except NetError FlatNet := do
  let _ ← net.transition id
  return { net with transitions := net.transitions.modify id fun t =>
    { t with transition := { t.transition with delay := delay } } }

/-! ## Comparison -/

/-- The same structure, whatever the order of its components. -/
def same (a b : FlatNet) : Bool :=
  a.name == b.name && a.colors.agree (· == ·) b.colors && a.notes.agree (· == ·) b.notes &&
    a.places.agree Place.same b.places && a.parameters.agree (· == ·) b.parameters &&
    a.transitions.agree (fun s t => s.transition == t.transition) b.transitions &&
    a.arcs.agree (fun s t => s.arc.same t.arc) b.arcs && a.bindings.same b.bindings &&
    a.initial == b.initial

end FlatNet

end PetriTree
