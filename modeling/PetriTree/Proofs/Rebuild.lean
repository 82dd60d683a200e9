import PetriTree.Proofs.Buckets

/-!
# PetriTree — a schedule is rebuilt

A schedule follows the transitions that are enabled by being given a list of them. It drops what the list does not have,
in whatever order the index by id is walked through, and then queues the list, entry by entry. Neither order shows: both
schedules that could be told apart have the same clock, and each transition fires at the same time in both, which leaves
no difference (`Indexed.ext`). Of a transition that the list has more than once, the first delay counts.

Main results:
* `Schedule.Follows` — what a schedule is to become for a list;
* `follows_rebuild` — that is what rebuilding makes of it;
* `Schedule.rebuild_performAll` — whatever was done to a schedule before, and whatever the orders.
-/

namespace PetriTree

/-- Among pairs, the first one with a key is the first of those with that key. -/
theorem lookup_eq_head?_filter {α : Type} (entries : List (String × α)) (id : String) :
    entries.lookup id = ((entries.filter fun e => e.1 == id).head?).map Prod.snd := by
  induction entries with
  | nil => rfl
  | cons e rest ih =>
    rw [List.lookup_cons]
    by_cases hid : id = e.1
    · simp [hid]
    · simp [beq_eq_false_iff_ne.2 hid, beq_eq_false_iff_ne.2 (Ne.symm hid), ih]

namespace Schedule

/-- A schedule as it is to be for a list of transitions: just these are queued; one that was queued fires when it was
to fire, and any other after the first delay that the list has for it, which ends at the last time. -/
structure Follows (s : Schedule) (enabled : List (String × UInt64)) (after : Schedule) : Prop where
  now : after.now = s.now
  queued : ∀ id, after.isScheduled id = true ↔ id ∈ enabled.map Prod.fst
  kept : ∀ id time, s.fireTime id = some time → id ∈ enabled.map Prod.fst → after.fireTime id = some time
  added : ∀ id delay, s.fireTime id = none → enabled.lookup id = some delay →
    ∃ time, after.fireTime id = some time ∧ time.toNat = min (s.now.toNat + delay.toNat) (UInt64.size - 1)

variable {s : Schedule} {enabled : List (String × UInt64)}

theorem isSome_lookup_iff {id : String} : (enabled.lookup id).isSome ↔ id ∈ enabled.map Prod.fst := by
  rw [List.lookup_isSome_iff, List.mem_map]
  refine exists_congr fun e => and_congr_right fun _ => ?_
  rw [beq_iff_eq, eq_comm]

theorem follows_rebuild (s : Schedule) (enabled : List (String × UInt64)) : s.Follows enabled (s.rebuild enabled) where
  now := s.now_rebuild enabled
  queued id := by rw [isScheduled_iff, fireTime_rebuild, Option.isSome_map, isSome_lookup_iff]
  kept id time htime hid := by
    obtain ⟨delay, hdelay⟩ := Option.isSome_iff_exists.1 (isSome_lookup_iff.2 hid)
    rw [fireTime_rebuild, hdelay, htime]
    rfl
  added id delay hnone hdelay := by
    refine ⟨saturatingAdd s.now delay, ?_, toNat_saturatingAdd ..⟩
    rw [fireTime_rebuild, hdelay, hnone]
    rfl

/-- To begin anew is to rebuild a schedule with nothing in it. -/
theorem reset_eq_rebuild (now : UInt64) (enabled : List (String × UInt64)) :
    reset now enabled = (startingAt now).rebuild enabled := rfl

/-- Rebuilding asks for the first delay of each transition and no more. -/
theorem Indexed.rebuild_congr (h : s.Indexed) {other : List (String × UInt64)}
    (hsame : ∀ id, other.lookup id = enabled.lookup id) : s.rebuild other = s.rebuild enabled := by
  refine (h.rebuild other).ext (h.rebuild enabled) ?_ fun id => ?_
  · rw [now_rebuild, now_rebuild]
  · rw [fireTime_rebuild, fireTime_rebuild, hsame]

/-- What is in step with a list stays as it is. -/
theorem Indexed.rebuild_rebuild (h : s.Indexed) (enabled : List (String × UInt64)) :
    (s.rebuild enabled).rebuild enabled = s.rebuild enabled := by
  refine ((h.rebuild enabled).rebuild enabled).ext (h.rebuild enabled) (now_rebuild ..) fun id => ?_
  rw [fireTime_rebuild, fireTime_rebuild]
  -- what the list has is queued by now, and keeps its time
  cases enabled.lookup id <;> rfl

/-- What is not enabled may be dropped in any order. -/
theorem Indexed.rebuild_perm (h : s.Indexed) {ids : List String} (hperm : ids.Perm (s.stale enabled)) :
    (ids.foldl Schedule.dequeue s).enqueueAll enabled = s.rebuild enabled := by
  have hrest : ids.foldl Schedule.dequeue s = (s.stale enabled).foldl Schedule.dequeue s := by
    refine (h.dequeueAll ids).ext (h.dequeueAll _) ?_ fun id => ?_
    · rw [now_dequeueAll, now_dequeueAll]
    · simp only [fireTime_dequeueAll, hperm.mem_iff]
  rw [hrest, Schedule.rebuild]

/-- Whatever was done to a schedule, rebuilding it keeps the clock and leaves just what is enabled, each transition as it
was queued; resetting it does the same from nothing at another time. The order in which the transitions are listed does
not matter, as long as entries of one transition stay in theirs, nor does the order in which others are dropped, and what
was rebuilt for a list is in step with it. -/
theorem rebuild_performAll (start later : UInt64) (commands : List ScheduleCommand) (enabled : List (String × UInt64)) :
    let s := (startingAt start).performAll commands
    let anew := s.perform (.reset later enabled)
    s.Follows enabled (s.rebuild enabled) ∧
      (anew.now = later ∧ (∀ id, anew.isScheduled id = true ↔ id ∈ enabled.map Prod.fst) ∧
        ∀ id delay, enabled.lookup id = some delay →
          ∃ time, anew.fireTime id = some time ∧ time.toNat = min (later.toNat + delay.toNat) (UInt64.size - 1)) ∧
      (∀ other : List (String × UInt64),
        (∀ id, (other.filter fun e => e.1 == id) = enabled.filter fun e => e.1 == id) →
          s.rebuild other = s.rebuild enabled ∧ s.perform (.reset later other) = anew) ∧
      (∀ ids : List String, ids.Perm (s.stale enabled) →
        (ids.foldl Schedule.dequeue s).enqueueAll enabled = s.rebuild enabled) ∧
      (s.rebuild enabled).rebuild enabled = s.rebuild enabled := by
  intro s anew
  have hindexed : s.Indexed := (indexed_startingAt start).performAll commands
  have hanew : anew = (startingAt later).rebuild enabled := reset_eq_rebuild later enabled
  have hfollows := follows_rebuild (startingAt later) enabled
  rw [← hanew] at hfollows
  refine ⟨follows_rebuild s enabled, ⟨hfollows.now, hfollows.queued, fun id delay => hfollows.added id delay rfl⟩,
    fun other hother => ?_, fun ids => hindexed.rebuild_perm, hindexed.rebuild_rebuild enabled⟩
  have hsame : ∀ id, other.lookup id = enabled.lookup id := by
    intro id
    rw [lookup_eq_head?_filter, lookup_eq_head?_filter, hother]
  have hothers : (startingAt later).rebuild other = anew :=
    ((indexed_startingAt later).rebuild_congr hsame).trans hanew.symm
  exact ⟨hindexed.rebuild_congr hsame, (reset_eq_rebuild later other).trans hothers⟩

/-- Of two transitions that wait, one stays enabled and keeps its time; a third one is listed twice, before and after it,
and waits for the first of its delays. -/
theorem rebuild_performAll_overlapping :
    let s := (startingAt 0).performAll [.reset 0 [("T0", 4), ("T1", 6)], .advance 2]
    let rebuilt := s.rebuild [("T2", 1), ("T0", 9), ("T2", 5)]
    rebuilt.fireTime "T0" = some 4 ∧ rebuilt.isScheduled "T1" = false ∧
      (∃ time, rebuilt.fireTime "T2" = some time ∧ time.toNat = 3) ∧
      s.rebuild [("T2", 1), ("T2", 5), ("T0", 9)] = rebuilt := by
  intro s rebuilt
  obtain ⟨hfollows, _, horder, _⟩ := rebuild_performAll 0 0 [.reset 0 [("T0", 4), ("T1", 6)], .advance 2]
    [("T2", 1), ("T0", 9), ("T2", 5)]
  refine ⟨hfollows.kept "T0" 4 (by decide) (by decide), ?_, hfollows.added "T2" 1 (by decide) (by decide),
    (horder _ fun id => ?_).1⟩
  · have hdropped : ¬ rebuilt.isScheduled "T1" = true := fun h => absurd ((hfollows.queued "T1").1 h) (by decide)
    simpa using hdropped
  · -- what stands between the two entries of one transition is an entry of another
    by_cases htwo : id = "T2"
    · subst htwo
      rfl
    · simp [List.filter_cons, beq_eq_false_iff_ne.2 (Ne.symm htwo)]

end Schedule

end PetriTree
