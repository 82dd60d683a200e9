import PetriTree.Live.Session
import PetriTree.Simulation.Operation

/-!
# PetriTree — handling a simulation

Between its operations the net of a simulation can be reached: tokens are set in it or pulled from the tree, and it
follows the tree. The simulation is not told, so its history and its cache stay as they are.

* `Handling` and `Simulation.handle` — an operation, or an edit of the net;
* `Simulation.handleAll` — a run of both.
-/

namespace PetriTree.Simulation

/-- What can be done with a simulation and, in between, with its net. -/
inductive Handling where
  | operate (operation : Operation)
  | edit (edit : LiveEdit)

/-- The simulation after an operation, or after an edit of its net; an edit that is refused changes nothing. -/
def handle (sim : Simulation) : Handling → Simulation
  | .operate operation => (sim.perform operation).1
  | .edit edit => { sim with live := sim.live.edited edit }

def handleAll (sim : Simulation) (handlings : List Handling) : Simulation := handlings.foldl handle sim

end PetriTree.Simulation
