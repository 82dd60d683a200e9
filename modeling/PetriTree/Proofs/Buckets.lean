import PetriTree.Proofs.Schedule
import PetriTree.Schedule.Command

/-!
# PetriTree — the two indexes of a schedule

A schedule is asked by transition whether its time has come, and by time which transitions wait for it, and
keeps an index for either question. Both say the same: a transition is in the bucket of just the time at
which it may fire. A bucket that becomes empty is taken away, so the times that are pending are the times of
the transitions that wait.

Main results:
* `Schedule.Indexed` — the indexes say the same, and no bucket is empty;
* `Indexed.perform`, `Indexed.performAll` — every command keeps them so;
* `Indexed.mem_pending_iff` — what is pending;
* `Indexed.ext` — a schedule is told by its clock and by when each transition may fire.
-/

namespace PetriTree

namespace Schedule

variable {s : Schedule}

/-- Is a transition in the bucket of just the time at which it may fire, and is no bucket empty? -/
structure Indexed (s : Schedule) : Prop where
  mem_bucket : ∀ {time id}, id ∈ s.bucket time ↔ s.fireTime id = some time
  full : ∀ {time waiting}, s.buckets.get? time = some waiting → waiting.isEmpty = false

theorem indexed_startingAt (now : UInt64) : (startingAt now).Indexed where
  mem_bucket := by
    intro time id
    refine iff_of_false (SortedSet.notMem_empty id) ?_
    intro h
    cases h
  full h := by cases h

theorem Indexed.enqueue (h : s.Indexed) (id : String) (delay : UInt64) : (s.enqueue id delay).Indexed := by
  unfold Schedule.enqueue
  split
  · exact h
  · rename_i hfree
    have hnone : s.fireTime id = none := by
      rw [isScheduled_iff] at hfree
      exact Option.not_isSome_iff_eq_none.1 hfree
    refine ⟨fun {time key} => ?_, fun {time waiting} hwaiting => ?_⟩
    · show key ∈ ((s.buckets.insert _ _).get? time).getD SortedSet.empty ↔ (s.times.insert _ _).get? key = some time
      rw [SortedMap.get?_insert, SortedMap.get?_insert]
      have hbefore : key ∈ s.bucket time ↔ s.fireTime key = some time := h.mem_bucket
      rw [bucket, fireTime] at hbefore
      by_cases htime : time = saturatingAdd s.now delay
      · by_cases hkey : key = id
        · simp [htime, hkey, SortedSet.mem_insert]
        · -- what waited for that time before waits on
          subst htime
          simp [hkey, SortedSet.mem_insert, bucket, hbefore]
      · by_cases hkey : key = id
        · -- it is queued for one time only
          subst hkey
          simp only [fireTime] at hnone
          simp [htime, Ne.symm htime, hbefore, hnone]
        · simp [htime, hkey, hbefore]
    · dsimp only at hwaiting
      rw [SortedMap.get?_insert] at hwaiting
      split at hwaiting
      · cases hwaiting
        exact SortedSet.isEmpty_eq_false_iff.2 ⟨id, SortedSet.mem_insert.2 (Or.inl rfl)⟩
      · exact h.full hwaiting

theorem Indexed.dequeue (h : s.Indexed) (id : String) : (s.dequeue id).Indexed := by
  unfold Schedule.dequeue
  split
  · exact h
  · rename_i time htime
    dsimp only
    -- the transition leaves its bucket, and the bucket goes with the last one
    have hbuckets : ∀ t, ((if ((s.bucket time).erase id).isEmpty then s.buckets.erase time
        else s.buckets.insert time ((s.bucket time).erase id)).get? t) =
        if t = time then (if ((s.bucket time).erase id).isEmpty then none else some ((s.bucket time).erase id))
        else s.buckets.get? t := by
      intro t
      split
      · rw [SortedMap.get?_erase]
        simp
      · rw [SortedMap.get?_insert]
        simp
    refine ⟨fun {t key} => ?_, fun {t waiting} hwaiting => ?_⟩
    · show key ∈ (SortedMap.get? _ t).getD SortedSet.empty ↔ (s.times.erase id).get? key = some t
      have hrest : key ∈ (if ((s.bucket time).erase id).isEmpty then none
          else some ((s.bucket time).erase id)).getD SortedSet.empty ↔ key ≠ id ∧ key ∈ s.bucket time := by
        rw [← SortedSet.mem_erase]
        split
        · rename_i hempty
          refine iff_of_false (SortedSet.notMem_empty key) ?_
          intro hkey
          rw [SortedSet.isEmpty_eq_false_iff.2 ⟨key, hkey⟩] at hempty
          cases hempty
        · exact Iff.rfl
      have hbefore : key ∈ s.bucket t ↔ s.fireTime key = some t := h.mem_bucket
      rw [bucket, fireTime] at hbefore
      rw [hbuckets, SortedMap.get?_erase]
      simp only [Std.LawfulEqCmp.compare_eq_iff_eq]
      by_cases hkey : key = id
      · by_cases ht : t = time
        · rw [if_pos ht, hrest]
          simp [hkey]
        · -- it was in the bucket of its time only
          rw [if_neg ht, hbefore, hkey, htime]
          simp [Ne.symm ht]
      · by_cases ht : t = time
        · subst ht
          rw [if_pos rfl, hrest, if_neg hkey, ← hbefore]
          simp [hkey, bucket]
        · rw [if_neg ht, hbefore, if_neg hkey]
    · rw [hbuckets] at hwaiting
      split at hwaiting
      · split at hwaiting
        · cases hwaiting
        · rename_i hfull
          cases hwaiting
          simpa using hfull
      · exact h.full hwaiting

theorem Indexed.enqueueAll (h : s.Indexed) (enabled : List (String × UInt64)) : (s.enqueueAll enabled).Indexed := by
  induction enabled generalizing s with
  | nil => exact h
  | cons e rest ih => exact ih (h.enqueue e.1 e.2)

theorem Indexed.dequeueAll (h : s.Indexed) (ids : List String) : (ids.foldl Schedule.dequeue s).Indexed := by
  induction ids generalizing s with
  | nil => exact h
  | cons id rest ih => exact ih (h.dequeue id)

theorem Indexed.rebuild (h : s.Indexed) (enabled : List (String × UInt64)) : (s.rebuild enabled).Indexed :=
  (h.dequeueAll (s.stale enabled)).enqueueAll enabled

theorem indexed_reset (now : UInt64) (enabled : List (String × UInt64)) : (reset now enabled).Indexed :=
  (indexed_startingAt now).enqueueAll enabled

theorem Indexed.advance (h : s.Indexed) (time : UInt64) : (s.advance time).Indexed := by
  unfold Schedule.advance
  split
  · exact h
  · exact ⟨h.mem_bucket, h.full⟩

theorem Indexed.perform (h : s.Indexed) : ∀ command, (s.perform command).Indexed
  | .enqueue id delay => h.enqueue id delay
  | .dequeue id => h.dequeue id
  | .reset now enabled => indexed_reset now enabled
  | .rebuild enabled => h.rebuild enabled
  | .advance time => h.advance time

theorem Indexed.performAll (h : s.Indexed) (commands : List ScheduleCommand) : (s.performAll commands).Indexed := by
  induction commands generalizing s with
  | nil => exact h
  | cons command rest ih => exact ih (h.perform command)

/-- The pending times are those for which a transition is queued. -/
theorem Indexed.mem_pending_iff (h : s.Indexed) {time : UInt64} :
    time ∈ s.pending ↔ ∃ id, s.fireTime id = some time := by
  rw [pending, SortedMap.mem_keys_iff, SortedMap.contains, Option.isSome_iff_exists]
  constructor
  · rintro ⟨waiting, hbucket⟩
    obtain ⟨id, hid⟩ := SortedSet.isEmpty_eq_false_iff.1 (h.full hbucket)
    refine ⟨id, h.mem_bucket.1 ?_⟩
    rw [bucket, hbucket]
    exact hid
  · rintro ⟨id, hid⟩
    have hmem := h.mem_bucket.2 hid
    rw [bucket] at hmem
    cases hbucket : s.buckets.get? time with
    | none =>
      rw [hbucket] at hmem
      exact absurd hmem (SortedSet.notMem_empty id)
    | some waiting => exact ⟨waiting, rfl⟩

/-- There is a bucket for a time just if something is in it. -/
theorem Indexed.get?_buckets (h : s.Indexed) (time : UInt64) :
    s.buckets.get? time = if (s.bucket time).isEmpty then none else some (s.bucket time) := by
  rw [bucket]
  cases hbucket : s.buckets.get? time with
  | none => rfl
  | some waiting =>
    rw [Option.getD_some, h.full hbucket]
    rfl

/-- A schedule is told by its clock and by when each transition may fire. -/
theorem Indexed.ext {other : Schedule} (h : s.Indexed) (hother : other.Indexed) (hnow : s.now = other.now)
    (htimes : ∀ id, s.fireTime id = other.fireTime id) : s = other := by
  have hbucket : ∀ time, s.bucket time = other.bucket time := by
    intro time
    refine SortedSet.ext_mem fun id => ?_
    rw [h.mem_bucket, hother.mem_bucket, htimes]
  have hbuckets : s.buckets = other.buckets := by
    refine SortedMap.ext_get? fun time => ?_
    rw [h.get?_buckets, hother.get?_buckets, hbucket]
  have htimes : s.times = other.times := SortedMap.ext_get? htimes
  cases s
  cases other
  cases hnow
  cases hbuckets
  cases htimes
  rfl

end Schedule

end PetriTree
