import PetriTree.Chance
import PetriTree.Live.Cache
import PetriTree.Marking.Change

/-!
# PetriTree — simulation

A simulation fires the transitions of a live net one at a time, keeps its schedule in step with the
marking and records every firing, so that firings can be undone. The clock moves only when told to,
and nothing fires by itself.

Every operation answers the simulation after it together with its outcome, because an operation
that is refused may still have moved something: the cache always, a handler when it was asked, and
the marking when a rewind could not bring the schedule in step.

* `Simulation.new`, `Simulation.reset` — the initial marking at the start time;
* `Simulation.enabled`, `Simulation.pick` — the transitions that may fire, and one of them by chance;
* `Simulation.fire`, `Simulation.fireBackwards`, `Simulation.undo` — moving between markings;
* `Simulation.advance`, `Simulation.resync` — the clock and the schedule.
-/

namespace PetriTree

/-- One firing as it was applied. -/
structure Firing where
  transition : String
  time : UInt64
  changes : List TokenChange
deriving DecidableEq

/-- A live net with the firings applied to it, oldest first. -/
structure Simulation where
  live : LiveNet
  cache : EnabledCache
  /-- Makes the choices that are left open. -/
  chance : Chance
  startTime : UInt64
  history : List Firing

namespace Simulation

def now (sim : Simulation) : UInt64 := sim.live.schedule.now

def marking (sim : Simulation) : Marking := sim.live.marking

/-- The simulation in another marking; the schedule is left alone. -/
def withMarking (sim : Simulation) (m : Marking) : Simulation :=
  { sim with live := { sim.live with marking := m } }

def withSchedule (sim : Simulation) (s : Schedule) : Simulation :=
  { sim with live := { sim.live with schedule := s } }

/-! ## The clock -/

/-- Moves the clock; nothing fires. -/
def advance (sim : Simulation) (time : UInt64) : Simulation :=
  sim.withSchedule (sim.live.schedule.advance time)

/-- Brings the schedule in step with the marking. -/
def resync (sim : Simulation) : Except FiringError Simulation := do
  return sim.withSchedule (sim.live.schedule.rebuild (← sim.live.enabledTimed))

/-! ## Starting -/

/-- Back to the initial marking and the start time, with an empty history. Chance goes on from where
it is. When the enabled timed transitions cannot be determined, the schedule stays as it was. -/
def reset (sim : Simulation) : Simulation × Except FiringError Unit :=
  let sim := { sim.withMarking sim.live.net.initial with history := [] }
  match sim.live.resetTiming sim.startTime with
  | .error e => (sim, .error e)
  | .ok live => ({ sim with live := live }, .ok ())

/-- The simulation of a net from its initial marking. -/
def new (live : LiveNet) (chance : Chance) (startTime : UInt64) : Except FiringError Simulation :=
  -- a failed reset answers a simulation too, but none was there to keep
  match reset ⟨live, EnabledCache.empty, chance, startTime, []⟩ with
  | (_, .error e) => .error e
  | (sim, .ok ()) => .ok sim

/-! ## Firing -/

/-- The transitions that may fire now. -/
def enabled (sim : Simulation) : Simulation × Except FiringError (SortedSet String) :=
  match sim.cache.candidates sim.live sim.marking with
  | (cache, .error e) => ({ sim with cache := cache }, .error e)
  | (cache, .ok found) =>
    ({ sim with cache := cache }, .ok (SortedSet.ofList (found.toList.filter sim.live.mayFireNow)))

/-- One of the transitions that may fire now, if there are any. -/
def pick (sim : Simulation) : Simulation × Except FiringError (Option String) :=
  match sim.enabled with
  | (sim, .error e) => (sim, .error e)
  | (sim, .ok found) =>
    let (chosen, chance) := sim.chance.choose found.toList
    ({ sim with chance := chance }, .ok chosen)

/-- Asks the handler of a transition, if it has one, about a firing. -/
def askHandler (sim : Simulation) (transition : String) (after : Marking) :
    Simulation × Except FiringError Unit :=
  match sim.live.handlers.get? transition with
  | none => (sim, .ok ())
  | some handler =>
    let call := HandlerCall.fire transition after
    -- the handler has heard the call whatever it answers
    let asked :=
      { sim with live := { sim.live with
          handlers := sim.live.handlers.insert transition (handler.hear call) } }
    match handler.answer call with
    | .error text => (asked, .error (.handler transition text))
    | .ok () => (asked, .ok ())

/-- Applies a firing that its handler agreed to and records it. When the schedule cannot follow,
marking and schedule stay as they were. -/
def commit (sim : Simulation) (transition : String) (after : Marking) :
    Simulation × Except FiringError Firing :=
  let fired := sim.withMarking after
  -- a timed transition that is enabled again right away has to wait for its delay again
  let fired :=
    if sim.live.net.isTimed transition then fired.withSchedule (sim.live.schedule.dequeue transition)
    else fired
  match fired.resync with
  | .error e => (sim, .error e)
  | .ok done =>
    let record : Firing := ⟨transition, done.now, TokenChange.diff sim.marking after⟩
    ({ done with history := done.history ++ [record] }, .ok record)

/-- Fires a transition that may fire now. -/
def fire (sim : Simulation) (transition : String) : Simulation × Except FiringError Firing :=
  if !sim.live.net.transitions.contains transition then (sim, .error (.unknownTransition transition))
  else
    match sim.enabled with
    | (sim, .error e) => (sim, .error e)
    | (sim, .ok found) =>
      -- enabled is not enough: priorities and the clock have their say as well
      if transition ∉ found then (sim, .error (.notEnabled transition))
      else
        match sim.live.net.fire sim.marking transition with
        | .error e => (sim, .error e)
        | .ok after =>
          match sim.askHandler transition after with
          | (sim, .error e) => (sim, .error e)
          | (sim, .ok ()) => sim.commit transition after

/-! ## Rewinding -/

/-- The history without its last firing, if that was a firing of the given transition. -/
def dropLast (history : List Firing) (transition : String) : List Firing :=
  if history.getLast?.any fun last => last.transition == transition then history.dropLast else history

/-- Fires a transition backwards, whether or not it fired before. The record of the last firing goes
if it was the same transition. -/
def fireBackwards (sim : Simulation) (transition : String) : Simulation × Except FiringError Firing :=
  if !sim.live.net.transitions.contains transition then (sim, .error (.unknownTransition transition))
  else
    match sim.live.net.fireBackwards sim.marking transition with
    | .error e => (sim, .error e)
    | .ok before =>
      match (sim.withMarking before).resync with
      -- unlike a firing, a rewind is not taken back when the schedule cannot follow
      | .error e => (sim.withMarking before, .error e)
      | .ok done =>
        ({ done with history := dropLast done.history transition },
          .ok ⟨transition, done.now, TokenChange.diff sim.marking before⟩)

/-- A marking with the counts that a firing changed put back. -/
def restore (m : Marking) (changes : List TokenChange) : Marking :=
  changes.foldl (fun m change => m.put change.place change.color change.before) m

/-- Takes the last firing back and answers its record, if there is one. -/
def undo (sim : Simulation) : Simulation × Except FiringError (Option Firing) :=
  match sim.history.getLast? with
  | none => (sim, .ok none)
  | some last =>
    let rewound := { sim.withMarking (restore sim.marking last.changes) with history := sim.history.dropLast }
    match rewound.resync with
    -- the record is gone and the marking moved, although the schedule lags behind
    | .error e => (rewound, .error e)
    | .ok done => (done, .ok (some last))

end Simulation

end PetriTree
