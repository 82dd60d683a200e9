import PetriTree.Firing.Error
import PetriTree.Flat.Net

/-!
# PetriTree — when a transition is enabled

A transition is enabled in a marking when every arc into it finds what it asks for and no bounded
place would overflow. A place that the transition is also fed from may overflow: its capacity is not
checked.

* `FlatNet.weigh` — a weight in a marking;
* `FlatNet.isEnabled` — the enabling test, without the rule of priorities.
-/

namespace PetriTree.FlatNet

def weigh (net : FlatNet) (m : Marking) (arc : String) (e : Expr) : Except FiringError Count :=
  match e.evaluateWeight (net.reading m) with
  | .ok n => .ok n
  | .error cause => .error (.evaluation arc cause)

/-- Does the place of an arc hold every weight? The first weight that is missing decides. -/
def holdsWeights (net : FlatNet) (m : Marking) (arc : Arc) : List (String × Expr) → Except FiringError Bool
  | [] => .ok true
  | (color, e) :: rest => do
    let n ← net.weigh m arc.id e
    -- an infinite weight asks for infinitely many tokens
    if !n.isZero && ((m.tokens arc.place color).sub? n).isNone then return false
    net.holdsWeights m arc rest

/-- Is the place of an inhibitor arc empty, altogether or in the colours the arc lists? -/
def isEmptyFor (m : Marking) (a : FlatArc) : Bool :=
  if a.weights.isEmpty then (m.total a.arc.place).isZero
  else a.weights.all fun w => (m.tokens a.arc.place w.1).isZero

/-- Does an arc into a transition find what it asks for? -/
def isSatisfied (net : FlatNet) (m : Marking) (a : FlatArc) : Except FiringError Bool :=
  match a.arc.kind with
  -- the weights of an inhibitor arc name colours, and are never evaluated
  | .inhibitor => .ok (isEmptyFor m a)
  | .normal | .test => net.holdsWeights m a.arc a.weights

/-- Do all arcs into a transition find what they ask for? The first that does not decides. -/
def areSatisfied (net : FlatNet) (m : Marking) : List FlatArc → Except FiringError Bool
  | [] => .ok true
  | a :: rest => do
    if ← net.isSatisfied m a then net.areSatisfied m rest else return false

/-- The sum of weights, all colours together, added to what is there. -/
def addWeights (net : FlatNet) (m : Marking) (arc : String) (sum : Count) :
    List (String × Expr) → Except FiringError Count
  | [] => .ok sum
  | (_, e) :: rest => do
    let n ← net.weigh m arc e
    net.addWeights m arc (sum.add n) rest

/-- What the arcs out of a transition would add to each bounded place outside `sources`. -/
def addArrivals (net : FlatNet) (m : Marking) (sources : List String) (arrivals : SortedMap String Count) :
    List FlatArc → Except FiringError (SortedMap String Count)
  | [] => .ok arrivals
  | a :: rest => do
    if net.capacity a.arc.place = 0 ∨ a.arc.place ∈ sources then net.addArrivals m sources arrivals rest
    else
      let sum ← net.addWeights m a.arc.id ((arrivals.get? a.arc.place).getD Count.zero) a.weights
      net.addArrivals m sources (arrivals.insert a.arc.place sum) rest

/-- Does a place stay within its capacity when tokens arrive? An infinite place takes anything. -/
def hasRoom (net : FlatNet) (m : Marking) (place : String) (arriving : Count) : Bool :=
  match m.total place, (m.total place).add arriving with
  | .infinite, _ => true
  -- infinity arriving fits no bound
  | .finite _, .infinite => false
  | .finite _, .finite after => decide (after.val ≤ (net.capacity place).toNat)

/-- Is a transition enabled in a marking? -/
def isEnabled (net : FlatNet) (m : Marking) (transition : String) : Except FiringError Bool := do
  if !net.transitions.contains transition then .error (.unknownTransition transition)
  let inbound := net.inbound transition
  if !(← net.areSatisfied m inbound) then return false
  -- arcs of every kind count here, also those that take nothing
  let sources := inbound.map fun a => a.arc.place
  let arrivals ← net.addArrivals m sources SortedMap.empty (net.outbound transition)
  return arrivals.entries.all fun e => net.hasRoom m e.1 e.2

end PetriTree.FlatNet
