import PetriTree.Simulation

/-!
# PetriTree — playback

Playback advances the clock by a fixed step and fires one of the transitions that may fire, over and
over. It ends when it is told to stop, when its budget of firings is used up, or when nothing may fire
and nothing is scheduled for later. With an unbounded budget it need not end, so a run is followed for a
number of rounds.

Which of several transitions fires is left to the chance of the simulation, whose stream is
arbitrary.

* `Simulation.playRound` — one round;
* `Simulation.playUntil` — the rounds up to the end, which may be asked for from outside;
* `Simulation.play` — the rounds up to the end when nobody asks for it.
-/

namespace PetriTree.Simulation

/-- How a round of playback ended. -/
inductive Round where
  /-- A transition fired. -/
  | fired
  /-- Nothing may fire yet, but something is scheduled. -/
  | waited
  /-- Nothing may fire, and nothing is scheduled. -/
  | finished

/-- Advances the clock by a step and fires one of the transitions that may fire. -/
def playRound (sim : Simulation) (step : UInt64) : Simulation × Except FiringError Round :=
  -- the clock moves first, so what becomes due in this round can fire in it
  match (sim.advance (saturatingAdd sim.now step)).pick with
  | (sim, .error e) => (sim, .error e)
  | (sim, .ok none) => (sim, .ok (if sim.live.schedule.next.isNone then .finished else .waited))
  | (sim, .ok (some transition)) =>
    match sim.fire transition with
    | (sim, .error e) => (sim, .error e)
    | (sim, .ok _) => (sim, .ok .fired)

/-- Plays for at most the given number of rounds; `fired` firings came before, and this is the `round`th round. Before
every round it is looked up whether playback was `told` to stop. The outcome is the number of firings, and missing
when the rounds did not suffice. -/
def playFrom (step : UInt64) (budget : Option Nat) (told : Nat → Bool) (fired round : Nat) :
    Nat → Simulation → Simulation × Option (Except FiringError Nat)
  | 0, sim => (sim, none)
  | rounds + 1, sim =>
    if told round then (sim, some (.ok fired))
    else if budget.any fun most => decide (most ≤ fired) then (sim, some (.ok fired))
    else
      match sim.playRound step with
      | (sim, .error e) => (sim, some (.error e))
      | (sim, .ok .finished) => (sim, some (.ok fired))
      | (sim, .ok .waited) => playFrom step budget told fired (round + 1) rounds sim
      | (sim, .ok .fired) => playFrom step budget told (fired + 1) (round + 1) rounds sim

/-- Plays a simulation that may be told to stop; see `playFrom`. -/
def playUntil (sim : Simulation) (told : Nat → Bool) (step : UInt64) (budget : Option Nat) (rounds : Nat) :
    Simulation × Option (Except FiringError Nat) :=
  playFrom step budget told 0 0 rounds sim

/-- Plays a simulation that is never told to stop. -/
def play (sim : Simulation) (step : UInt64) (budget : Option Nat) (rounds : Nat) :
    Simulation × Option (Except FiringError Nat) :=
  sim.playUntil (fun _ => false) step budget rounds

end PetriTree.Simulation
