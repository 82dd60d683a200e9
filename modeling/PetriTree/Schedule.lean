import PetriTree.SortedMap

/-!
# PetriTree — schedules

A schedule holds the clock and the timed transitions that wait for it, each with the absolute time
at which it may fire. That time is fixed when the transition is queued. Times are 64-bit numbers and
stop at the last of them.

The queued transitions are indexed twice, by id and by time; every operation keeps the two in step.

* `Schedule.enqueue`, `Schedule.dequeue` — one transition in and out;
* `Schedule.reset`, `Schedule.rebuild` — the whole schedule from the transitions that are enabled;
* `Schedule.advance` — the clock moves forward;
* `Schedule.dueNow`, `Schedule.next`, `Schedule.pending` — what waits.
-/

namespace PetriTree

/-- A sum that stops at the last 64-bit number. -/
def saturatingAdd (a b : UInt64) : UInt64 := UInt64.ofNat (min (a.toNat + b.toNat) 0xffffffffffffffff)

/-- The clock and what waits for it. -/
structure Schedule where
  now : UInt64
  /-- The transitions that may fire at each time. -/
  buckets : SortedMap UInt64 (SortedSet String)
  /-- The time at which each queued transition may fire. -/
  times : SortedMap String UInt64
deriving DecidableEq

namespace Schedule

/-- Nothing queued, the clock at the given time. -/
def startingAt (now : UInt64) : Schedule := ⟨now, SortedMap.empty, SortedMap.empty⟩

/-- Nothing queued, the clock at zero. -/
def empty : Schedule := startingAt 0

instance : Inhabited Schedule := ⟨empty⟩

/-! ## Asking -/

def fireTime (s : Schedule) (id : String) : Option UInt64 := s.times.get? id

def isScheduled (s : Schedule) (id : String) : Bool := s.times.contains id

def isDue (s : Schedule) (id : String) : Bool :=
  match s.fireTime id with
  | none => false
  | some time => decide (time ≤ s.now)

def bucket (s : Schedule) (time : UInt64) : SortedSet String := (s.buckets.get? time).getD SortedSet.empty

def dueNow (s : Schedule) : SortedSet String :=
  SortedSet.ofList ((s.buckets.entries.takeWhile fun e => e.1 ≤ s.now).flatMap fun e => e.2.toList)

/-- The first time strictly after now; at the last 64-bit time, that time itself still counts. -/
def next (s : Schedule) : Option UInt64 :=
  (s.buckets.entries.find? fun e => saturatingAdd s.now 1 ≤ e.1).map Prod.fst

/-- Every time at which something waits, ascending. -/
def pending (s : Schedule) : List UInt64 := s.buckets.keys

def size (s : Schedule) : Nat := s.times.entries.length

/-! ## Changing -/

/-- Queues a transition after a delay; one that is queued already keeps its time. -/
def enqueue (s : Schedule) (id : String) (delay : UInt64) : Schedule :=
  if s.isScheduled id then s
  else
    -- a delay past the last time waits for the last time
    let time := saturatingAdd s.now delay
    { s with
      buckets := s.buckets.insert time ((s.bucket time).insert id)
      times := s.times.insert id time }

/-- Takes a transition out of the queue; a bucket that becomes empty goes with it. -/
def dequeue (s : Schedule) (id : String) : Schedule :=
  match s.times.get? id with
  | none => s
  | some time =>
    -- an empty bucket must not stay behind, or its time would count as pending
    let rest := (s.bucket time).erase id
    { s with
      buckets := if rest.isEmpty then s.buckets.erase time else s.buckets.insert time rest
      times := s.times.erase id }

/-- Queues several transitions, each after its delay. -/
def enqueueAll (s : Schedule) (enabled : List (String × UInt64)) : Schedule :=
  enabled.foldl (fun s e => s.enqueue e.1 e.2) s

/-- Only the given transitions queued, relative to the given time. -/
def reset (now : UInt64) (enabled : List (String × UInt64)) : Schedule := (startingAt now).enqueueAll enabled

def stale (s : Schedule) (enabled : List (String × UInt64)) : List String :=
  s.times.keys.filter fun id => !enabled.any fun e => e.1 == id

/-- Brings the queue in line with the transitions that are enabled: others are dropped, those that
stay enabled keep their time, new ones are queued after their delay. -/
def rebuild (s : Schedule) (enabled : List (String × UInt64)) : Schedule :=
  ((s.stale enabled).foldl dequeue s).enqueueAll enabled

/-- Moves the clock to a time, never backwards. -/
def advance (s : Schedule) (time : UInt64) : Schedule := if time < s.now then s else { s with now := time }

end Schedule

end PetriTree
