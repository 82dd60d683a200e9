import Mathlib.Order.Bounds.Basic
import PetriTree.Proofs.Buckets

/-!
# PetriTree — the next time at which something fires

A schedule looks for the next time from the one after now on. Sums stop at the last time, so there the time after now is
now itself, and what is due already is found again. That is the one state in which the answer is not in the future, and
it is reached by any transition that is queued for the last time, once the clock gets there.

The answer is the first bucket that is late enough. It is the least of all queued times that are late enough, as the
buckets ascend, and none is empty.

Main results:
* `saturatingAdd_one_le_iff` — which times are from the one after now on;
* `Schedule.Punctual` — the rule that the next time lies in the future;
* `Schedule.next_performAll` — what is found, and just when it keeps to that rule.
-/

namespace PetriTree

/-- The last time there is. -/
def lastTime : UInt64 := 0xffffffffffffffff

/-- The time after the last one is the last one. -/
theorem saturatingAdd_one_le_iff (now time : UInt64) :
    saturatingAdd now 1 ≤ time ↔ now < time ∨ now = lastTime ∧ time = lastTime := by
  have hsum : (saturatingAdd now 1).toNat = min (now.toNat + 1) 18446744073709551615 := toNat_saturatingAdd now 1
  have hlast : lastTime.toNat = 18446744073709551615 := rfl
  have hnow := now.toNat_lt
  have htime := time.toNat_lt
  rw [UInt64.le_iff_toNat_le, UInt64.lt_iff_toNat_lt, ← UInt64.toNat_inj, ← UInt64.toNat_inj, hsum, hlast]
  omega

/-- Among ascending times, the first that will do is the least that will do. -/
theorem find?_eq_some_iff_isLeast {α : Type} {entries : List (UInt64 × α)} (h : Ascending entries) (p : UInt64 → Bool)
    (time : UInt64) : (entries.find? fun e => p e.1).map Prod.fst = some time ↔
      IsLeast {t | t ∈ entries.map Prod.fst ∧ p t = true} time := by
  have hleast : ∀ t, (entries.find? fun e => p e.1).map Prod.fst = some t →
      IsLeast {t | t ∈ entries.map Prod.fst ∧ p t = true} t := by
    intro t ht
    obtain ⟨e, he, rfl⟩ := Option.map_eq_some_iff.1 ht
    obtain ⟨hp, before, after, rfl, hbefore⟩ := List.find?_eq_some_iff_append.1 he
    refine ⟨⟨List.mem_map_of_mem (by simp), hp⟩, ?_⟩
    rintro _ ⟨hkey, hother⟩
    obtain ⟨other, hmem, rfl⟩ := List.mem_map.1 hkey
    rcases List.mem_append.1 hmem with hmem | hmem
    · -- what comes before it will not do
      have := hbefore other hmem
      rw [hother] at this
      cases this
    · rcases List.mem_cons.1 hmem with rfl | hmem
      · exact UInt64.le_refl _
      · have hlater := (List.pairwise_cons.1 (List.pairwise_append.1 h).2.1).1 other hmem
        exact UInt64.le_of_lt (Std.compare_eq_lt.1 hlater)
  refine ⟨hleast time, fun htime => ?_⟩
  cases hfound : (entries.find? fun e => p e.1).map Prod.fst with
  | some t =>
    obtain ⟨hmem, hle⟩ := hleast t hfound
    exact congrArg some (UInt64.le_antisymm (hle htime.1) (htime.2 hmem))
  | none =>
    obtain ⟨hmem, hp⟩ := htime.1
    obtain ⟨e, he, rfl⟩ := List.mem_map.1 hmem
    exact absurd hp (List.find?_eq_none.1 (Option.map_eq_none_iff.1 hfound) e he)

namespace Schedule

variable {s : Schedule}

/-- The times in the future for which something is queued. -/
def ahead (s : Schedule) : Set UInt64 := {time | (∃ id, s.fireTime id = some time) ∧ s.now < time}

/-- Is there a next time just if something is queued for the future, and is it the first such time? -/
structure Punctual (s : Schedule) : Prop where
  answers : (∃ time, s.next = some time) ↔ s.ahead.Nonempty
  least : ∀ time, s.next = some time → IsLeast s.ahead time

/-- The next time is the least that is queued and not before the one after now. -/
theorem Indexed.next_eq_some_iff (h : s.Indexed) (time : UInt64) : s.next = some time ↔
    IsLeast {t | (∃ id, s.fireTime id = some t) ∧ saturatingAdd s.now 1 ≤ t} time := by
  rw [next, find?_eq_some_iff_isLeast s.buckets.ascending (fun t => decide (saturatingAdd s.now 1 ≤ t))]
  have hsame : ∀ t, t ∈ s.buckets.entries.map Prod.fst ↔ ∃ id, s.fireTime id = some t := fun t => h.mem_pending_iff
  simp only [hsame, decide_eq_true_eq]

/-- There is a next time just if something is queued that late. -/
theorem Indexed.exists_next_iff (h : s.Indexed) : (∃ time, s.next = some time) ↔
    ∃ t, (∃ id, s.fireTime id = some t) ∧ saturatingAdd s.now 1 ≤ t := by
  constructor
  · rintro ⟨time, htime⟩
    exact ⟨time, ((h.next_eq_some_iff time).1 htime).1⟩
  · rintro ⟨t, hqueued, hlate⟩
    obtain ⟨e, he, rfl⟩ := List.mem_map.1 (h.mem_pending_iff.2 hqueued)
    rw [← Option.isSome_iff_exists, next, Option.isSome_map, List.find?_isSome]
    exact ⟨e, he, decide_eq_true hlate⟩

/-- Whatever was done to a schedule, the next time is the first one in the future for which something is queued, except at
the end: when the clock stands at the last time and something is queued for it, that time is found although it has been
reached. -/
theorem next_performAll (start : UInt64) (commands : List ScheduleCommand) :
    let s := (startingAt start).performAll commands
    (∀ time, s.next = some time ↔
      IsLeast {t | (∃ id, s.fireTime id = some t) ∧ (s.now < t ∨ s.now = lastTime ∧ t = lastTime)} time) ∧
    (s.Punctual ↔ ¬ (s.now = lastTime ∧ ∃ id, s.fireTime id = some lastTime)) := by
  intro s
  have hindexed : s.Indexed := (indexed_startingAt start).performAll commands
  have hnext := hindexed.next_eq_some_iff
  have hexists := hindexed.exists_next_iff
  simp only [saturatingAdd_one_le_iff] at hnext hexists
  refine ⟨hnext, fun hpunctual => ?_, fun hbefore => ?_⟩
  · -- the last time is found, and it is not in the future
    rintro ⟨hnow, hqueued⟩
    obtain ⟨time, htime⟩ := hexists.2 ⟨lastTime, hqueued, Or.inr ⟨hnow, rfl⟩⟩
    obtain ⟨⟨_, hlater⟩, _⟩ := hpunctual.least time htime
    rw [hnow, UInt64.lt_iff_toNat_lt] at hlater
    have hlast : lastTime.toNat = 18446744073709551615 := rfl
    have := time.toNat_lt
    omega
  · have hahead : {t | (∃ id, s.fireTime id = some t) ∧ (s.now < t ∨ s.now = lastTime ∧ t = lastTime)} = s.ahead := by
      ext t
      refine and_congr_right fun hqueued => or_iff_left ?_
      rintro ⟨hnow, rfl⟩
      exact hbefore ⟨hnow, hqueued⟩
    exact ⟨hexists.trans (hahead ▸ Iff.rfl), fun time htime => hahead ▸ (hnext time).1 htime⟩

/-- A transition that is queued without a delay when the clock stands at the last time is due, and is announced as what
comes next all the same. -/
theorem next_not_ahead : ¬ ((startingAt lastTime).performAll [.enqueue "T" 0]).Punctual := by
  intro h
  obtain ⟨⟨_, hlater⟩, _⟩ := h.least lastTime (by decide)
  exact absurd hlater (by decide)

end Schedule

end PetriTree
