import PetriTree.Proofs.Outcome
import PetriTree.Schedule

/-!
# PetriTree — what schedules remember

All that the clock asks of a schedule is the time at which a transition may fire. Each operation is read
here as what it does to the clock and to this time, whichever transition is asked for, so that nothing
need be known of the two indexes that a schedule keeps.

A transition that is queued already keeps its time. So the order in which several are queued is of no
account, and of a transition that is queued twice the first delay counts.

Main results:
* `fireTime_enqueue`, `fireTime_dequeue` — one transition in and out;
* `fireTime_rebuild`, `fireTime_reset` — the whole schedule;
* `now_le_advance` — the clock moves forward.
-/

namespace PetriTree

theorem toNat_saturatingAdd (a b : UInt64) :
    (saturatingAdd a b).toNat = min (a.toNat + b.toNat) (UInt64.size - 1) := by
  have hbound : min (a.toNat + b.toNat) (UInt64.size - 1) < UInt64.size :=
    Nat.lt_of_le_of_lt (Nat.min_le_right ..) (by decide)
  exact UInt64.toNat_ofNat_of_lt' hbound

namespace Schedule

variable (s : Schedule)

/-! ## One transition -/

theorem isScheduled_iff {id : String} : s.isScheduled id = true ↔ (s.fireTime id).isSome := Iff.rfl

theorem isDue_iff {id : String} : s.isDue id = true ↔ ∃ time, s.fireTime id = some time ∧ time ≤ s.now := by
  unfold isDue
  split
  · rename_i hnone
    simp [hnone]
  · rename_i time htime
    simp [htime]

theorem now_enqueue (id : String) (delay : UInt64) : (s.enqueue id delay).now = s.now := by
  unfold enqueue
  split <;> rfl

/-- One that is queued already keeps its time. -/
theorem fireTime_enqueue (id : String) (delay : UInt64) (key : String) :
    (s.enqueue id delay).fireTime key =
      (s.fireTime key).or (if key = id then some (saturatingAdd s.now delay) else none) := by
  unfold enqueue
  split
  · rename_i hqueued
    rw [isScheduled_iff] at hqueued
    split
    · rename_i hkey
      obtain ⟨time, htime⟩ := Option.isSome_iff_exists.1 (hkey ▸ hqueued)
      rw [htime]
      rfl
    · exact Option.or_none.symm
  · rename_i hfree
    rw [fireTime, SortedMap.get?_insert]
    by_cases hkey : key = id
    · have hnone : s.fireTime key = none := by
        rw [hkey]
        exact Option.not_isSome_iff_eq_none.1 hfree
      simp [hkey, hkey ▸ hnone]
    · simp [hkey, fireTime]

theorem now_dequeue (id : String) : (s.dequeue id).now = s.now := by
  unfold dequeue
  split <;> rfl

theorem fireTime_dequeue (id key : String) :
    (s.dequeue id).fireTime key = if key = id then none else s.fireTime key := by
  unfold dequeue
  split
  · rename_i hnone
    split
    · rename_i hkey
      rw [hkey]
      exact hnone
    · rfl
  · rw [fireTime, SortedMap.get?_erase]
    simp [fireTime]

/-! ## Several transitions -/

theorem now_enqueueAll (enabled : List (String × UInt64)) : (s.enqueueAll enabled).now = s.now := by
  induction enabled generalizing s with
  | nil => rfl
  | cons e rest ih =>
    have hrest : ((s.enqueue e.1 e.2).enqueueAll rest).now = (s.enqueue e.1 e.2).now := ih _
    exact hrest.trans (now_enqueue ..)

/-- What is queued keeps its time, and the first delay given for any other counts. -/
theorem fireTime_enqueueAll (enabled : List (String × UInt64)) (key : String) :
    (s.enqueueAll enabled).fireTime key =
      (s.fireTime key).or ((enabled.lookup key).map (saturatingAdd s.now)) := by
  induction enabled generalizing s with
  | nil => exact Option.or_none.symm
  | cons e rest ih =>
    have hrest : ((s.enqueue e.1 e.2).enqueueAll rest).fireTime key = _ := ih _
    rw [enqueueAll, List.foldl_cons, ← enqueueAll, hrest, fireTime_enqueue, now_enqueue, List.lookup_cons]
    cases s.fireTime key with
    | some time => rfl
    | none =>
      by_cases hkey : key = e.1
      · simp [hkey]
      · simp [hkey, beq_eq_false_iff_ne.2 hkey]

theorem now_dequeueAll (ids : List String) : (ids.foldl dequeue s).now = s.now := by
  induction ids generalizing s with
  | nil => rfl
  | cons id rest ih =>
    rw [List.foldl_cons, ih, now_dequeue]

theorem fireTime_dequeueAll (ids : List String) (key : String) :
    (ids.foldl dequeue s).fireTime key = if key ∈ ids then none else s.fireTime key := by
  induction ids generalizing s with
  | nil => simp
  | cons id rest ih =>
    rw [List.foldl_cons, ih, fireTime_dequeue]
    by_cases hkey : key = id <;> by_cases hrest : key ∈ rest <;> simp [hkey, hrest]

/-! ## The whole schedule -/

theorem now_rebuild (enabled : List (String × UInt64)) : (s.rebuild enabled).now = s.now := by
  rw [rebuild, now_enqueueAll, now_dequeueAll]

/-- Just what is enabled is queued: for the time it had, or after its delay. -/
theorem fireTime_rebuild (enabled : List (String × UInt64)) (key : String) :
    (s.rebuild enabled).fireTime key =
      (enabled.lookup key).map fun delay => (s.fireTime key).getD (saturatingAdd s.now delay) := by
  rw [rebuild, fireTime_enqueueAll, fireTime_dequeueAll, now_dequeueAll]
  -- a transition is stale when it is queued and not enabled
  have hstale : key ∈ s.stale enabled ↔ (s.fireTime key).isSome ∧ enabled.lookup key = none := by
    have hkeys : key ∈ s.times.keys ↔ (s.fireTime key).isSome := SortedMap.mem_keys_iff
    have hnone : (enabled.any fun e => e.1 == key) = false ↔ enabled.lookup key = none := by
      rw [List.any_eq_false, List.lookup_eq_none_iff]
      refine forall₂_congr fun e _ => ?_
      rw [bne_iff_ne, beq_iff_eq, ne_comm]
    rw [stale, List.mem_filter, hkeys, Bool.not_eq_true', hnone]
  cases htime : s.fireTime key with
  | none =>
    simp only [htime, hstale, Option.isSome_none, Option.getD_none]
    simp
  | some time =>
    cases hdelay : enabled.lookup key with
    | none => simp [hstale, htime, hdelay]
    | some delay => simp [hstale, htime, hdelay]

theorem now_reset (now : UInt64) (enabled : List (String × UInt64)) : (reset now enabled).now = now :=
  now_enqueueAll ..

/-- Just what is enabled is queued, after its delay. -/
theorem fireTime_reset (now : UInt64) (enabled : List (String × UInt64)) (key : String) :
    (reset now enabled).fireTime key = (enabled.lookup key).map (saturatingAdd now) :=
  fireTime_enqueueAll ..

/-! ## The clock -/

theorem fireTime_advance (time : UInt64) (key : String) : (s.advance time).fireTime key = s.fireTime key := by
  unfold advance
  split <;> rfl

theorem now_le_advance (time : UInt64) : s.now ≤ (s.advance time).now := by
  unfold advance
  split
  · exact UInt64.le_refl _
  · rename_i hlater
    exact UInt64.not_lt.1 hlater

end Schedule

end PetriTree
