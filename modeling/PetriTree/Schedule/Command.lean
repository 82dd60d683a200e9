import PetriTree.Schedule

/-!
# PetriTree — commands to a schedule

A schedule is made for some time and then given one command after the other.

* `ScheduleCommand` and `Schedule.perform` — one command;
* `Schedule.performAll` — a sequence of them;
* `Schedule.takeOut` — what taking a transition out of the queue answers.
-/

namespace PetriTree

/-- What can be done with a schedule. -/
inductive ScheduleCommand where
  | enqueue (id : String) (delay : UInt64)
  | dequeue (id : String)
  | reset (now : UInt64) (enabled : List (String × UInt64))
  | rebuild (enabled : List (String × UInt64))
  | advance (time : UInt64)

namespace Schedule

/-- The schedule after a command. -/
def perform (s : Schedule) : ScheduleCommand → Schedule
  | .enqueue id delay => s.enqueue id delay
  | .dequeue id => s.dequeue id
  | .reset now enabled => reset now enabled
  | .rebuild enabled => s.rebuild enabled
  | .advance time => s.advance time

def performAll (s : Schedule) (commands : List ScheduleCommand) : Schedule := commands.foldl perform s

/-- Takes a transition out of the queue, and tells whether it was there. -/
def takeOut (s : Schedule) (id : String) : Schedule × Bool :=
  -- the index by id alone decides; the buckets are not asked
  match s.times.get? id with
  | none => (s, false)
  | some _ => (s.dequeue id, true)

end Schedule

end PetriTree
