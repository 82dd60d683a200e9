import PetriTree.Firing.Enabled

/-!
# PetriTree — which transitions may fire

Several transitions may be enabled at once. Among immediate ones only those of the highest priority
present count; timed ones count whatever their priority.

* `FlatNet.enabled` — the enabled transitions, in the order of the net;
* `FlatNet.candidates` — those that the rule of priorities leaves.
-/

namespace PetriTree.FlatNet

/-- The transitions of a list that are enabled in a marking. The first that cannot be evaluated
decides. -/
def enabledOf (net : FlatNet) (m : Marking) : List Transition → Except FiringError (List Transition)
  | [] => .ok []
  | t :: rest => do
    if ← net.isEnabled m t.id then
      let others ← net.enabledOf m rest
      return t :: others
    else net.enabledOf m rest

/-- The enabled transitions of a net, in its order. -/
def enabled (net : FlatNet) (m : Marking) : Except FiringError (List Transition) :=
  net.enabledOf m (net.transitions.values.map FlatTransition.transition)

/-- Does a transition give way to none of the others? Only an immediate one gives way, to immediate
ones of higher priority. -/
def prevails (t : Transition) (others : List Transition) : Bool :=
  -- `t` may be among the others: its own priority does not exceed itself
  t.kind.isTimed || others.all fun other => other.kind.isTimed || decide (other.priority ≤ t.priority)

/-- The enabled transitions that the rule of priorities leaves. -/
def candidates (net : FlatNet) (m : Marking) : Except FiringError (SortedSet String) := do
  let enabled ← net.enabled m
  return SortedSet.ofList ((enabled.filter fun t => prevails t enabled).map fun t => t.id)

end PetriTree.FlatNet
