import PetriTree.Simulation

/-!
# PetriTree — operations of a simulation

A run of a simulation is a sequence of operations, each applied to what the one before it left, also
when that one was refused.

* `Operation` and `Simulation.perform` — one operation;
* `Simulation.performAll` — a run.
-/

namespace PetriTree.Simulation

/-- What can be done with a simulation. -/
inductive Operation where
  | fire (transition : String)
  | fireBackwards (transition : String)
  | undo
  | reset
  | resync
  | advance (time : UInt64)

/-- The simulation after an operation, with the firing that it made or took back. -/
def perform (sim : Simulation) : Operation → Simulation × Except FiringError (Option Firing)
  | .fire transition => ((sim.fire transition).1, (sim.fire transition).2.map some)
  | .fireBackwards transition => ((sim.fireBackwards transition).1, (sim.fireBackwards transition).2.map some)
  | .undo => sim.undo
  | .reset => (sim.reset.1, sim.reset.2.map fun _ => none)
  | .resync =>
    match sim.resync with
    | .error e => (sim, .error e)
    | .ok after => (after, .ok none)
  | .advance time => (sim.advance time, .ok none)

def performAll (sim : Simulation) (operations : List Operation) : Simulation :=
  operations.foldl (fun sim operation => (sim.perform operation).1) sim

end PetriTree.Simulation
