import PetriTree.Proofs.Buckets
import PetriTree.Proofs.Keys

/-!
# PetriTree — what waits

Some questions to a schedule are answered by the buckets: what is due, which times are pending. Others are answered by the
index by id: how many transitions are queued, whether one is, when it may fire. As the two indexes say the same
(`Indexed`), it does not matter which of them is asked. A bucket that stayed behind would be a pending time for which
nothing waits; an entry that was moved in one index only would be due without being counted.

The clock goes forward under every command but one: to begin anew is to set it, to an earlier time if that is asked for.

Main results:
* `Schedule.queued` — the transitions that wait in some bucket;
* `Indexed.mem_dueNow_iff`, `Indexed.encard_queued` — the buckets and the index by id, asked for the same;
* `now_le_perform`, `now_le_performAll` — the clock;
* `Schedule.mirrored_performAll` — all of this whatever was done to a schedule.
-/

namespace PetriTree

namespace Schedule

variable {s : Schedule}

/-- The transitions that are in some bucket. -/
def queued (s : Schedule) : Set String := {id | ∃ time, id ∈ s.bucket time}

/-! ## Either index -/

/-- What a bucket holds, entry by entry. -/
theorem Indexed.mem_entry_iff (h : s.Indexed) {e : UInt64 × SortedSet String} (he : e ∈ s.buckets.entries) {id : String} :
    id ∈ e.2 ↔ s.fireTime id = some e.1 := by
  rw [← h.mem_bucket, bucket, SortedMap.get?_eq_some_iff.2 (show (e.1, e.2) ∈ s.buckets.entries from he)]
  rfl

/-- A transition that is queued at all is in a bucket. -/
theorem Indexed.mem_queued_iff (h : s.Indexed) {id : String} : id ∈ s.queued ↔ s.isScheduled id = true := by
  rw [isScheduled_iff, Option.isSome_iff_exists]
  exact exists_congr fun time => h.mem_bucket

/-- As many transitions are in the buckets as the index by id has entries. -/
theorem Indexed.encard_queued (h : s.Indexed) : s.queued.encard = s.size := by
  have hqueued : s.queued = {id | s.times.contains id = true} := Set.ext fun _ => h.mem_queued_iff
  rw [hqueued, SortedMap.encard_keys, size]

/-- The buckets up to now hold what is due by the index by id. -/
theorem Indexed.mem_dueNow_iff (h : s.Indexed) {id : String} : id ∈ s.dueNow ↔ s.isDue id = true := by
  -- the buckets ascend, so what is read up to the first time after now is all that is due
  have hearlier : s.buckets.entries.Pairwise fun a b => decide (b.1 ≤ s.now) = true → decide (a.1 ≤ s.now) = true := by
    refine s.buckets.ascending.imp fun {a b} hlt hb => ?_
    have hb : b.1 ≤ s.now := of_decide_eq_true hb
    exact decide_eq_true (UInt64.le_trans (UInt64.le_of_lt (Std.compare_eq_lt.1 hlt)) hb)
  rw [dueNow, SortedSet.mem_ofList, takeWhile_eq_filter hearlier, List.mem_flatMap, isDue_iff]
  constructor
  · rintro ⟨e, he, hid⟩
    obtain ⟨he, hreached⟩ := List.mem_filter.1 he
    exact ⟨e.1, (h.mem_entry_iff he).1 (SortedSet.mem_toList.1 hid), of_decide_eq_true hreached⟩
  · rintro ⟨time, htime, hreached⟩
    obtain ⟨e, he, rfl⟩ := List.mem_map.1 (h.mem_pending_iff.2 ⟨id, htime⟩)
    exact ⟨e, List.mem_filter.2 ⟨he, decide_eq_true hreached⟩, SortedSet.mem_toList.2 ((h.mem_entry_iff he).2 htime)⟩

/-- The pending times ascend, and none is there twice. -/
theorem pairwise_pending (s : Schedule) : s.pending.Pairwise (· < ·) :=
  s.buckets.pairwise_keys.imp Std.compare_eq_lt.1

/-- What taking a transition out answers. -/
theorem takeOut_eq (s : Schedule) (id : String) : s.takeOut id = (s.perform (.dequeue id), s.isScheduled id) := by
  rw [takeOut, perform, isScheduled, SortedMap.contains]
  cases htime : s.times.get? id with
  | none => rw [dequeue, htime]; rfl
  | some time => rfl

/-! ## The clock -/

/-- The clock goes forward, unless it is set. -/
theorem now_le_perform (s : Schedule) {command : ScheduleCommand} (h : ∀ time enabled, command ≠ .reset time enabled) :
    s.now ≤ (s.perform command).now := by
  cases command with
  | enqueue id delay => exact UInt64.le_of_eq (s.now_enqueue id delay).symm
  | dequeue id => exact UInt64.le_of_eq (s.now_dequeue id).symm
  | reset time enabled => exact absurd rfl (h time enabled)
  | rebuild enabled => exact UInt64.le_of_eq (s.now_rebuild enabled).symm
  | advance time => exact s.now_le_advance time

theorem now_le_performAll (s : Schedule) {commands : List ScheduleCommand}
    (h : ∀ time enabled, .reset time enabled ∉ commands) : s.now ≤ (s.performAll commands).now := by
  induction commands generalizing s with
  | nil => exact UInt64.le_refl _
  | cons command rest ih =>
    have hfirst : s.now ≤ (s.perform command).now :=
      s.now_le_perform fun time enabled heq => h time enabled (heq ▸ List.mem_cons_self ..)
    have hrest : (s.perform command).now ≤ ((s.perform command).performAll rest).now :=
      ih _ fun time enabled hmem => h time enabled (List.mem_cons_of_mem _ hmem)
    exact UInt64.le_trans hfirst hrest

/-! ## Both indexes -/

/-- Whatever was done to a schedule, its two indexes mirror each other: a transition is in the bucket of just the time at
which it may fire, hence in one bucket at most, and no bucket is empty. So the buckets up to now hold just what is due,
the pending times are the times for which something is queued, each once and in order, the size is the number of
transitions in the buckets, and one of these is what can be taken out. The clock only goes back when it is set. -/
theorem mirrored_performAll (start : UInt64) (commands : List ScheduleCommand) :
    let s := (startingAt start).performAll commands
    (∀ time id, id ∈ s.bucket time ↔ s.fireTime id = some time) ∧
    (∀ time waiting, s.buckets.get? time = some waiting → ∃ id, id ∈ waiting) ∧
    (∀ id time other, id ∈ s.bucket time → id ∈ s.bucket other → time = other) ∧
    (∀ id, id ∈ s.dueNow ↔ s.isDue id = true) ∧
    (s.pending.Pairwise (· < ·) ∧ ∀ time, time ∈ s.pending ↔ ∃ id, s.fireTime id = some time) ∧
    s.queued.encard = s.size ∧
    (∀ id, (s.takeOut id).1 = s.perform (.dequeue id) ∧ ((s.takeOut id).2 = true ↔ id ∈ s.queued)) ∧
    (∀ later : List ScheduleCommand, (∀ time enabled, .reset time enabled ∉ later) → s.now ≤ (s.performAll later).now) ∧
    ∀ time enabled, (s.perform (.reset time enabled)).now = time := by
  intro s
  have hindexed : s.Indexed := (indexed_startingAt start).performAll commands
  refine ⟨fun _ _ => hindexed.mem_bucket, fun time waiting hwaiting => ?_, fun id time other htime hother => ?_,
    fun id => hindexed.mem_dueNow_iff, ⟨s.pairwise_pending, fun time => hindexed.mem_pending_iff⟩,
    hindexed.encard_queued, fun id => ?_, fun later hlater => s.now_le_performAll hlater, fun time enabled => ?_⟩
  · exact SortedSet.isEmpty_eq_false_iff.1 (hindexed.full hwaiting)
  · rw [hindexed.mem_bucket] at htime hother
    exact Option.some.inj (htime.symm.trans hother)
  · rw [takeOut_eq, hindexed.mem_queued_iff]
    exact ⟨rfl, Iff.rfl⟩
  · exact now_reset time enabled

/-- Two transitions wait for the last time there is, one of them queued twice; the third one leaves, and its bucket with
it. Both are due when the clock gets there, and not before. -/
theorem mirrored_performAll_saturated :
    let s := (startingAt 0xfffffffffffffff0).performAll
      [.enqueue "T0" 0xff, .enqueue "T1" 0xf, .enqueue "T0" 1, .enqueue "T2" 3, .dequeue "T2"]
    "T0" ∈ s.bucket 0xffffffffffffffff ∧ "T1" ∈ s.bucket 0xffffffffffffffff ∧ s.pending = [0xffffffffffffffff] ∧
      s.queued.encard = (2 : Nat) ∧ "T0" ∉ s.dueNow ∧ (s.takeOut "T2").2 = false ∧
      s.now ≤ (s.performAll [.advance 7, .rebuild []]).now := by
  intro s
  obtain ⟨hbucket, _, _, hdue, _, hsize, htaken, hclock, _⟩ := mirrored_performAll 0xfffffffffffffff0
    [.enqueue "T0" 0xff, .enqueue "T1" 0xf, .enqueue "T0" 1, .enqueue "T2" 3, .dequeue "T2"]
  refine ⟨(hbucket _ _).2 (by decide), (hbucket _ _).2 (by decide), by decide, hsize.trans (by decide),
    fun h => absurd ((hdue _).1 h) (by decide), ?_, hclock _ (by simp)⟩
  have hleft : "T2" ∉ s.queued := by
    rintro ⟨time, htime⟩
    have hnone : s.fireTime "T2" = none := by decide
    rw [(hbucket time "T2").1 htime] at hnone
    cases hnone
  exact Bool.eq_false_iff.2 fun h => hleft ((htaken "T2").2.1 h)

end Schedule

end PetriTree
