import PetriTree.Firing.Enabled

/-!
# PetriTree — firing

Firing takes the weights of the arcs into a transition and adds those of the arcs out of it. All
weights are evaluated in the marking before the firing. Firing backwards undoes that, with the
weights evaluated in the marking it starts from.

* `FlatNet.fire`, `FlatNet.fireBackwards` — the marking after firing;
* `FlatNet.degree` — how often a transition could fire at once;
* `FlatNet.actualRate` — the rate in a marking.
-/

namespace PetriTree.FlatNet

/-- Takes weights out of the place of an arc, refusing with `short` when too little is there. -/
def takeWeights (net : FlatNet) (m : Marking) (arc : Arc) (short : FiringError) (left : Marking) :
    List (String × Expr) → Except FiringError Marking
  | [] => .ok left
  | (color, e) :: rest => do
    -- weights are read in `m`, the marking before anything was taken
    let n ← net.weigh m arc.id e
    match (left.tokens arc.place color).sub? n with
    | none => .error short
    | some after => net.takeWeights m arc short (left.put arc.place color after) rest

def giveWeights (net : FlatNet) (m : Marking) (arc : Arc) (left : Marking) :
    List (String × Expr) → Except FiringError Marking
  | [] => .ok left
  | (color, e) :: rest => do
    let n ← net.weigh m arc.id e
    net.giveWeights m arc (left.put arc.place color ((left.tokens arc.place color).add n)) rest

def takeAll (net : FlatNet) (m : Marking) (short : Arc → FiringError) (left : Marking) :
    List FlatArc → Except FiringError Marking
  | [] => .ok left
  | a :: rest => do
    let left ← net.takeWeights m a.arc (short a.arc) left a.weights
    net.takeAll m short left rest

def giveAll (net : FlatNet) (m : Marking) (left : Marking) : List FlatArc → Except FiringError Marking
  | [] => .ok left
  | a :: rest => do
    let left ← net.giveWeights m a.arc left a.weights
    net.giveAll m left rest

/-- The marking after a transition fired; whether it is enabled is not asked. -/
def fire (net : FlatNet) (m : Marking) (transition : String) : Except FiringError Marking := do
  -- everything is taken before anything is given, so no arc lives on what another one gives
  let left ← net.takeAll m (fun _ => .notEnabled transition) m (net.taking transition)
  net.giveAll m left (net.outbound transition)

/-- The marking before a transition fired, its weights evaluated in the marking after it. -/
def fireBackwards (net : FlatNet) (m : Marking) (transition : String) : Except FiringError Marking := do
  -- the same two halves with the ends exchanged
  let left ← net.takeAll m (fun arc => .negativeCount transition arc.place) m (net.outbound transition)
  net.giveAll m left (net.taking transition)

/-- The lesser of a bound that may be missing and another one. -/
def tighten : Option Nat → Option Nat → Option Nat
  | bound, none => bound
  | none, some k => some k
  | some d, some k => some (min d k)

/-- How often the weights of an arc can be taken, under a bound found so far. -/
def boundByWeights (net : FlatNet) (m : Marking) (arc : Arc) (bound : Option Nat) :
    List (String × Expr) → Except FiringError (Option Nat)
  | [] => .ok bound
  | (color, e) :: rest => do
    let n ← net.weigh m arc.id e
    net.boundByWeights m arc (tighten bound ((m.tokens arc.place color).multiplesOf n)) rest

/-- How often the weights of several arcs can be taken, under a bound found so far. -/
def boundByArcs (net : FlatNet) (m : Marking) (bound : Option Nat) : List FlatArc → Except FiringError (Option Nat)
  | [] => .ok bound
  | a :: rest => do
    let bound ← net.boundByWeights m a.arc bound a.weights
    net.boundByArcs m bound rest

/-- How often a transition could fire at once: not at all when it is disabled, and once when nothing
finite bounds it. -/
def degree (net : FlatNet) (m : Marking) (transition : String) : Except FiringError Nat := do
  if ← net.isEnabled m transition then
    let bound ← net.boundByArcs m none (net.taking transition)
    return bound.getD 1
  else return 0

/-- The rate of a transition in a marking. That of an infinite server grows with its degree. -/
def actualRate (net : FlatNet) (m : Marking) (transition : String) : Except FiringError Float := do
  match net.transitions.get? transition with
  | none => .error (.unknownTransition transition)
  | some t =>
    let base ← match t.rate.evaluate (net.reading m) with
      | .ok x => .ok x
      | .error cause => .error (.evaluation transition cause)
    if t.transition.kind = .timedInfiniteServer then
      return base * Number.nearest (← net.degree m transition) 1
    else return base

end PetriTree.FlatNet
