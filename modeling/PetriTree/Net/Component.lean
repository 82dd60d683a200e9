import PetriTree.Arena
import PetriTree.Count
import PetriTree.Marking
import PetriTree.Table

/-!
# PetriTree — the components of a net

A coloured net consists of token colours, notes, places, rate parameters, transitions and
arcs. Expressions are kept as the author wrote them.

* `Place`, `Transition`, `Arc` — the net proper;
* `PlaceStatus` — the part a place plays in the interface between nets;
* `Component` — any of them, by kind.
-/

namespace PetriTree

/-- The kinds of components. -/
inductive ComponentKind where
  | color | note | place | rateParameter | transition | arc
deriving DecidableEq, Repr

def ComponentKind.text : ComponentKind → String
  | color => "color"
  | note => "annotation"
  | place => "place"
  | rateParameter => "rate parameter"
  | transition => "transition"
  | arc => "arc"

/-- The id a component gets inside a node with the given path: the root has an empty path and
leaves ids as they are. -/
def qualify (path localId : String) : String :=
  if path.isEmpty then localId else path ++ "." ++ localId

/-- A token colour and how it is drawn. -/
structure TokenColor where
  id : String
  red : UInt8
  green : UInt8
  blue : UInt8
deriving DecidableEq

def TokenColor.default : TokenColor := ⟨defaultColor, 0, 0, 0⟩

/-- A text beside the net. -/
structure Note where
  id : String
  text : String
  x : Float
  y : Float
deriving BEq

/-- The part a place plays in the interface between nets. -/
inductive MergeState where
  /-- Not an interface place. -/
  | noOp
  /-- Defined here and visible elsewhere. -/
  | home
  /-- Visible here, without a place of its own. -/
  | available
  /-- Used here through a place that stands for the home place. -/
  | inUse
  /-- A used place once nets are joined, waiting to be merged into its home. -/
  | away
deriving DecidableEq, Repr

/-- The place an interface place stands for. -/
structure HomeRef where
  node : NodeId
  place : String
deriving DecidableEq, Repr

/-- The interface status of a place. -/
structure PlaceStatus where
  merge : MergeState
  home : Option HomeRef
  external : Bool
  inputOnly : Bool
  outputOnly : Bool
deriving DecidableEq, Repr

namespace PlaceStatus

def plain : PlaceStatus := ⟨.noOp, none, false, false, false⟩

def isInterface (s : PlaceStatus) : Bool := s.merge != .noOp

end PlaceStatus

/-- A place with its initial tokens. A capacity of zero means that there is no bound. -/
structure Place where
  id : String
  tokens : Table Count
  capacity : UInt64
  status : PlaceStatus
deriving DecidableEq

namespace Place

def count (p : Place) (color : String) : Count := (p.tokens.get? color).getD Count.zero

def isBounded (p : Place) : Bool := decide (0 < p.capacity)

/-- The same place, whatever the order in which its tokens were given. -/
def same (p q : Place) : Bool :=
  p.id == q.id && p.tokens.agree (· == ·) q.tokens && p.capacity == q.capacity && p.status == q.status

end Place

/-- When a transition fires. -/
inductive TransitionKind where
  /-- As soon as it is enabled. -/
  | immediate
  /-- After a delay. -/
  | timed
  /-- After a delay, at a rate that grows with the number of times it could fire. -/
  | timedInfiniteServer
deriving DecidableEq, Repr

def TransitionKind.isTimed : TransitionKind → Bool
  | immediate => false
  | timed | timedInfiniteServer => true

/-- How fast a transition fires. -/
inductive Rate where
  | expression (text : String)
  | parameter (id : String)
deriving DecidableEq, Repr

def Rate.one : Rate := expression "1"

/-- A transition. The priority orders immediate transitions, the delay is that of timed ones, and
the handler is called when the transition fires. -/
structure Transition where
  id : String
  priority : Int
  kind : TransitionKind
  rate : Rate
  delay : UInt64
  handler : Option String
deriving DecidableEq

/-- Which way tokens flow along an arc. -/
inductive ArcDirection where
  | placeToTransition
  | transitionToPlace
deriving DecidableEq, Repr

/-- What an arc into a transition asks for. -/
inductive ArcKind where
  /-- Tokens, which are taken. -/
  | normal
  /-- The absence of tokens. -/
  | inhibitor
  /-- Tokens, which stay. -/
  | test
deriving DecidableEq, Repr

/-- A point an arc is drawn through. -/
structure ArcPoint where
  x : Float
  y : Float
  curved : Bool
deriving BEq

/-- An arc between a place and a transition, with a weight expression per colour. -/
structure Arc where
  id : String
  place : String
  transition : String
  direction : ArcDirection
  kind : ArcKind
  weights : Table String
  points : List ArcPoint

namespace Arc

def isInbound (a : Arc) : Bool := a.direction == .placeToTransition

def source (a : Arc) : String :=
  match a.direction with
  | .placeToTransition => a.place
  | .transitionToPlace => a.transition

def target (a : Arc) : String :=
  match a.direction with
  | .placeToTransition => a.transition
  | .transitionToPlace => a.place

/-- The same arc, whatever the order in which its weights were given. -/
def same (a b : Arc) : Bool :=
  a.id == b.id && a.place == b.place && a.transition == b.transition && a.direction == b.direction &&
    a.kind == b.kind && a.weights.agree (· == ·) b.weights && a.points == b.points

end Arc

/-- A named expression that rates and weights can use. -/
structure RateParameter where
  id : String
  expression : String
deriving DecidableEq

/-- A component of any kind. -/
inductive Component where
  | color (value : TokenColor)
  | note (value : Note)
  | place (value : Place)
  | rateParameter (value : RateParameter)
  | transition (value : Transition)
  | arc (value : Arc)

namespace Component

def kind : Component → ComponentKind
  | color _ => .color
  | note _ => .note
  | place _ => .place
  | rateParameter _ => .rateParameter
  | transition _ => .transition
  | arc _ => .arc

def id : Component → String
  | color value => value.id
  | note value => value.id
  | place value => value.id
  | rateParameter value => value.id
  | transition value => value.id
  | arc value => value.id

end Component

end PetriTree
