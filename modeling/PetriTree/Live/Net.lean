import PetriTree.Firing.Fire
import PetriTree.Live.Handler
import PetriTree.Schedule
import PetriTree.Tree

/-!
# PetriTree — live nets

A live net is a flat net together with what changes while it runs: the marking, the schedule of its
timed transitions and its handlers. It remembers the revisions of the tree it was made from, so it can
tell when it is out of date, and carries a stamp that changes whenever its structure does.

* `LiveNet.ofTree` — the live net of an include tree;
* `LiveNet.refresh`, `LiveNet.needsRefresh` — following the tree;
* `LiveNet.setTokens`, `LiveNet.resetTiming` — changing marking and schedule.
-/

namespace PetriTree

/-- The revisions of a tree and of every net in it. -/
structure Revisions where
  tree : Nat
  nets : List (NodeId × Nat)
deriving DecidableEq

def Revisions.ofTree (tree : IncludeTree) : Revisions :=
  ⟨tree.revision, tree.walk.map fun e => (e.1, e.2.net.revision)⟩

/-- The identity of the structure of a live net; it changes with every change of the structure. -/
structure Stamp where
  instanceId : Nat
  version : Nat
deriving DecidableEq, Repr

/-- A net that runs. -/
structure LiveNet where
  net : FlatNet
  marking : Marking
  schedule : Schedule
  handlers : Table Handler
  registry : Registry
  revisions : Revisions
  stamp : Stamp
  refreshRequired : Bool

namespace LiveNet

/-- The timed transitions among some that are enabled in a marking, each with its delay. -/
def enabledAmong (net : FlatNet) (m : Marking) : List Transition → Except FiringError (List (String × UInt64))
  | [] => .ok []
  | t :: rest => do
    -- an immediate transition is not even asked, so it cannot fail here
    if !t.kind.isTimed then enabledAmong net m rest
    else if ← net.isEnabled m t.id then
      let others ← enabledAmong net m rest
      return (t.id, t.delay) :: others
    else enabledAmong net m rest

/-- The timed transitions that are enabled in the current marking, each with its delay. -/
def enabledTimed (live : LiveNet) : Except FiringError (List (String × UInt64)) :=
  enabledAmong live.net live.marking (live.net.transitions.values.map FlatTransition.transition)

/-- Queues the enabled timed transitions anew, relative to a time. -/
def resetTiming (live : LiveNet) (now : UInt64) : Except FiringError LiveNet := do
  return { live with schedule := Schedule.reset now (← live.enabledTimed) }

/-- The live net of an include tree: in its initial marking, at time zero, with handlers from the
registry. The handlers are also answered when something fails after they were made. -/
def ofTree (registry : Registry) (instanceId : Nat) (tree : IncludeTree) :
    Table Handler × Except FlattenError LiveNet :=
  match FlatNet.ofTree tree with
  | .error e => (Table.empty, .error e)
  | .ok net =>
    match registry.attach net with
    | (handlers, .error e) => (handlers, .error e)
    | (handlers, .ok ()) =>
      let live : LiveNet := {
        net := net
        marking := net.initial
        schedule := Schedule.empty
        handlers := handlers
        registry := registry
        revisions := Revisions.ofTree tree
        stamp := ⟨instanceId, 0⟩
        refreshRequired := false }
      match live.resetTiming 0 with
      | .error e => (handlers, .error (.schedule e))
      | .ok live => (handlers, .ok live)

/-! ## The clock -/

/-- Does the clock allow a transition to fire? Only a timed one has to be due. -/
def mayFireNow (live : LiveNet) (transition : String) : Bool :=
  !live.net.isTimed transition || live.schedule.isDue transition

/-! ## Changing -/

def setTokens (live : LiveNet) (place color : String) (n : Count) : Except NetError LiveNet := do
  -- only asked for the errors: the marking has no entry for a count of zero
  let _ ← live.net.place place
  let _ ← NetError.required color .color (live.net.colors.get? color)
  return { live with marking := live.marking.put place color n }

/-- Changes the delay of a transition; what is queued keeps its time. -/
def setDelay (live : LiveNet) (transition : String) (delay : UInt64) : Except NetError LiveNet := do
  return { live with net := ← live.net.setDelay transition delay }

/-! ## Following the tree -/

def requireRefresh (live : LiveNet) : LiveNet :=
  { live with
    refreshRequired := true
    stamp := { live.stamp with version := live.stamp.version + 1 } }

/-- Is the net marked, or did the tree or a net in it change since this net was made? -/
def needsRefresh (live : LiveNet) (tree : IncludeTree) : Bool :=
  live.refreshRequired || live.revisions != Revisions.ofTree tree

/-- Makes the net anew from the tree. The clock is kept, the marking starts again, and the enabled
timed transitions are queued relative to the kept clock. -/
def refresh (live : LiveNet) (tree : IncludeTree) : Table Handler × Except FlattenError LiveNet :=
  match ofTree live.registry live.stamp.instanceId tree with
  | (handlers, .error e) => (handlers, .error e)
  | (handlers, .ok fresh) =>
    -- the same net with another structure: caches that know the old version let go of it
    let fresh := { fresh with stamp := ⟨live.stamp.instanceId, live.stamp.version + 1⟩ }
    match fresh.resetTiming live.schedule.now with
    | .error e => (handlers, .error (.schedule e))
    | .ok fresh => (handlers, .ok fresh)

/-! ## Text -/

def debugText (live : LiveNet) : String :=
  "ExecutableNet \x7b name: " ++ Text.quote live.net.name ++
    ", places: " ++ Text.quoteList live.net.places.names ++
    ", transitions: " ++ Text.quoteList live.net.transitions.names ++
    ", arcs: " ++ Text.quoteList live.net.arcs.names ++
    ", state: " ++ live.marking.text ++
    ", handlers: " ++ Text.quoteList (SortedSet.ofList live.handlers.names).toList ++
    ", structure_version: " ++ toString live.stamp.version ++ " \x7d"

end LiveNet

end PetriTree
