import PetriTree.Proofs.Arrivals
import PetriTree.Simulation

/-!
# PetriTree — taking a firing back

A firing is recorded as the counts it changed, not as the marking it started from. Putting those counts
back leads to that marking again when no place came into being in between: a count that is put back to
zero leaves its place behind, holding nothing.

Main results:
* `TokenChange.mem_diff` — the recorded changes are the counts that differ;
* `Simulation.tokens_restore_diff` — putting them back restores every count;
* `Simulation.restore_diff` — it restores the marking, if both markings know the same places;
* `FlatNet.Shifts`, `shifts_of_fire` — firing, forwards or backwards, moves tokens at ends of arcs only;
* `FlatNet.contains_fire` — firing adds no place when the arcs have their ends in places that are there.
-/

namespace PetriTree

/-! ## Differences -/

theorem Holding.mem_keys {h : Holding} {color : String} (hne : h.tokens color ≠ Count.zero) :
    color ∈ h.counts.keys := by
  rw [SortedMap.mem_keys_iff, SortedMap.contains]
  unfold tokens at hne
  cases hget : h.counts.get? color with
  | none =>
    rw [hget] at hne
    exact absurd rfl hne
  | some n => rfl

theorem Marking.mem_keys {m : Marking} {place color : String} (hne : m.tokens place color ≠ Count.zero) :
    place ∈ m.places.keys := by
  rw [SortedMap.mem_keys_iff, SortedMap.contains]
  unfold tokens holding at hne
  cases hget : m.places.get? place with
  | none =>
    rw [hget] at hne
    exact absurd rfl hne
  | some h => rfl

namespace TokenChange

theorem mem_inPlace {place : String} {before after : Holding} {change : TokenChange} :
    change ∈ inPlace place before after ↔ change.place = place ∧
      change.before = before.tokens change.color ∧ change.after = after.tokens change.color ∧
      before.tokens change.color ≠ after.tokens change.color := by
  rw [inPlace, List.mem_filterMap]
  constructor
  · rintro ⟨color, _, hchange⟩
    split at hchange
    · cases hchange
    · rename_i hne
      cases hchange
      exact ⟨rfl, rfl, rfl, hne⟩
  · rintro ⟨rfl, hbefore, hafter, hne⟩
    refine ⟨change.color, ?_, ?_⟩
    · rw [SortedSet.mem_toList, SortedSet.mem_ofList, List.mem_append]
      -- counts that differ are not both zero
      by_cases hzero : before.tokens change.color = Count.zero
      · exact Or.inr (Holding.mem_keys fun h => hne (hzero.trans h.symm))
      · exact Or.inl (Holding.mem_keys hzero)
    · rw [if_neg hne, ← hbefore, ← hafter]

/-- A place in which some count differs is known to one of the markings. -/
theorem mem_keys_of_inPlace {before after : Marking} {place : String}
    (h : inPlace place (before.holding place) (after.holding place) ≠ []) :
    place ∈ SortedSet.ofList (before.places.keys ++ after.places.keys) := by
  obtain ⟨change, hchange⟩ := List.exists_mem_of_ne_nil _ h
  obtain ⟨_, _, _, hne⟩ := mem_inPlace.1 hchange
  rw [SortedSet.mem_ofList, List.mem_append]
  by_cases hzero : before.tokens place change.color = Count.zero
  · exact Or.inr (Marking.mem_keys fun hafter => hne (hzero.trans hafter.symm))
  · exact Or.inl (Marking.mem_keys hzero)

/-- The recorded changes are the counts that differ, each with both values. -/
theorem mem_diff {before after : Marking} {change : TokenChange} : change ∈ diff before after ↔
    change.before = before.tokens change.place change.color ∧
      change.after = after.tokens change.place change.color ∧
      before.tokens change.place change.color ≠ after.tokens change.place change.color := by
  rw [diff, List.mem_flatMap]
  constructor
  · rintro ⟨place, _, hchange⟩
    obtain ⟨rfl, hrest⟩ := mem_inPlace.1 hchange
    exact hrest
  · rintro ⟨hbefore, hafter, hne⟩
    have hchange : change ∈ inPlace change.place (before.holding change.place) (after.holding change.place) :=
      mem_inPlace.2 ⟨rfl, hbefore, hafter, hne⟩
    exact ⟨change.place, SortedSet.mem_toList.2 (mem_keys_of_inPlace (List.ne_nil_of_mem hchange)), hchange⟩

end TokenChange

/-! ## Putting counts back -/

namespace Marking

variable {m left : Marking}

/-- A count set in a place that is there adds no place. -/
theorem contains_put_of_contains {place : String} (h : m.contains place = true) (color : String) (n : Count)
    (p : String) : (m.put place color n).contains p = m.contains p := by
  rw [contains_put]
  by_cases hp : p = place
  · rw [hp, h, Bool.or_true]
  · rw [decide_eq_false hp, Bool.false_or]

theorem contains_of_tokens_ne {place color : String} (h : m.tokens place color ≠ Count.zero) :
    m.contains place = true := by
  obtain ⟨e, he, hplace⟩ := List.mem_map.1 (mem_keys h)
  rw [contains, SortedMap.contains, SortedMap.get?_eq_some_iff.2 (hplace ▸ he : (place, e.2) ∈ _)]
  rfl

/-- Tokens are taken from places that are there then. -/
theorem contains_withdraw_iff {ts : List Transfer} (h : m.withdraw ts = some left) {p : String} :
    left.contains p = true ↔ m.contains p = true ∨ p ∈ ts.map Transfer.place := by
  induction ts generalizing m with
  | nil =>
    cases h
    simp
  | cons t rest ih =>
    rw [withdraw] at h
    split at h
    · cases h
    · rw [ih h, contains_put, Bool.or_eq_true, decide_eq_true_iff, List.map_cons, List.mem_cons]
      tauto

/-- Tokens are put into places that are there then. -/
theorem contains_deposit_iff (ts : List Transfer) {p : String} :
    (m.deposit ts).contains p = true ↔ m.contains p = true ∨ p ∈ ts.map Transfer.place := by
  induction ts generalizing m with
  | nil => simp [deposit]
  | cons t rest ih =>
    refine ih.trans ?_
    rw [contains_put, Bool.or_eq_true, decide_eq_true_iff, List.map_cons, List.mem_cons]
    tauto

/-- Moving tokens adds the places that are written to. -/
theorem contains_moved_iff {ts us : List Transfer} (h : m.withdraw ts = some left) {p : String} :
    (left.deposit us).contains p = true ↔ m.contains p = true ∨ p ∈ (ts ++ us).map Transfer.place := by
  rw [contains_deposit_iff, contains_withdraw_iff h, List.map_append, List.mem_append, or_assoc]

/-- Taking tokens changes counts only where tokens are taken. -/
theorem tokens_withdraw_of_notMem {ts : List Transfer} (h : m.withdraw ts = some left) {p : String}
    (hp : p ∉ ts.map Transfer.place) (color : String) : left.tokens p color = m.tokens p color := by
  induction ts generalizing m with
  | nil =>
    cases h
    rfl
  | cons t rest ih =>
    rw [List.map_cons, List.mem_cons, not_or] at hp
    rw [withdraw] at h
    split at h
    · cases h
    · rw [ih h hp.2, tokens_put, if_neg fun hhere => hp.1 hhere.1]

theorem tokens_deposit_of_notMem {ts : List Transfer} {p : String} (hp : p ∉ ts.map Transfer.place)
    (color : String) : (m.deposit ts).tokens p color = m.tokens p color := by
  induction ts generalizing m with
  | nil => rfl
  | cons t rest ih =>
    rw [List.map_cons, List.mem_cons, not_or] at hp
    refine (ih hp.2).trans ?_
    rw [tokens_put, if_neg fun hhere => hp.1 hhere.1]

end Marking

/-- A count that differs is not zero in one of the two markings, so its place is there. -/
theorem TokenChange.contains_of_mem_diff {before after : Marking} {change : TokenChange}
    (h : change ∈ diff before after) :
    before.contains change.place = true ∨ after.contains change.place = true := by
  obtain ⟨_, _, hne⟩ := mem_diff.1 h
  by_cases hzero : after.tokens change.place change.color = Count.zero
  · exact Or.inl (Marking.contains_of_tokens_ne fun hz => hne (hz.trans hzero.symm))
  · exact Or.inr (Marking.contains_of_tokens_ne hzero)

namespace Simulation

theorem tokens_restore (target : Marking) {changes : List TokenChange}
    (h : ∀ change ∈ changes, change.before = target.tokens change.place change.color) (m : Marking)
    (place color : String) : (restore m changes).tokens place color =
      if ∃ change ∈ changes, change.place = place ∧ change.color = color then target.tokens place color
      else m.tokens place color := by
  induction changes generalizing m with
  | nil => simp [restore]
  | cons first rest ih =>
    have hrest := ih (fun change hchange => h change (List.mem_cons_of_mem _ hchange))
      (m.put first.place first.color first.before)
    have hfirst := h first (List.mem_cons_self ..)
    rw [restore, List.foldl_cons]
    refine hrest.trans ?_
    rw [Marking.tokens_put, hfirst]
    -- the last change of a count decides, but all changes of one count put back the same
    by_cases hlater : ∃ change ∈ rest, change.place = place ∧ change.color = color
    · obtain ⟨change, hmem, hends⟩ := hlater
      rw [if_pos ⟨change, hmem, hends⟩, if_pos ⟨change, List.mem_cons_of_mem _ hmem, hends⟩]
    · by_cases hhere : place = first.place ∧ color = first.color
      · obtain ⟨rfl, rfl⟩ := hhere
        rw [if_neg hlater, if_pos ⟨rfl, rfl⟩, if_pos ⟨first, List.mem_cons_self .., rfl, rfl⟩]
      · rw [if_neg hlater, if_neg hhere, if_neg]
        rintro ⟨change, hmem, hplace, hcolor⟩
        rcases List.mem_cons.1 hmem with rfl | hmem
        · exact hhere ⟨hplace.symm, hcolor.symm⟩
        · exact hlater ⟨change, hmem, hplace, hcolor⟩

/-- Counts are put back into places that are there then. -/
theorem contains_restore_iff {changes : List TokenChange} {m : Marking} {place : String} :
    (restore m changes).contains place = true ↔
      m.contains place = true ∨ ∃ change ∈ changes, change.place = place := by
  induction changes generalizing m with
  | nil => simp [restore]
  | cons first rest ih =>
    refine ih.trans ?_
    rw [Marking.contains_put, Bool.or_eq_true, decide_eq_true_iff, List.exists_mem_cons_iff]
    tauto

theorem contains_restore {changes : List TokenChange} {m : Marking}
    (h : ∀ change ∈ changes, m.contains change.place = true) (place : String) :
    (restore m changes).contains place = m.contains place := by
  refine Bool.eq_iff_iff.2 (contains_restore_iff.trans (or_iff_left_of_imp ?_))
  rintro ⟨change, hchange, rfl⟩
  exact h change hchange

/-- Putting back what a firing changed restores every count. -/
theorem tokens_restore_diff {before after m : Marking}
    (h : ∀ place color, m.tokens place color = after.tokens place color) (place color : String) :
    (restore m (TokenChange.diff before after)).tokens place color = before.tokens place color := by
  rw [tokens_restore before fun change hchange => (TokenChange.mem_diff.1 hchange).1]
  split
  · rfl
  · rename_i hnone
    rw [h]
    -- a count without a record is the same in both
    by_contra hne
    exact hnone ⟨⟨place, color, before.tokens place color, after.tokens place color⟩,
      TokenChange.mem_diff.2 ⟨rfl, rfl, Ne.symm hne⟩, rfl, rfl⟩

/-- It restores the marking, if both markings know the same places. -/
theorem restore_diff {before after : Marking} (h : ∀ place, after.contains place = before.contains place) :
    restore after (TokenChange.diff before after) = before := by
  have hplaces : ∀ change ∈ TokenChange.diff before after, after.contains change.place = true := by
    intro change hchange
    rcases TokenChange.contains_of_mem_diff hchange with hbefore | hafter
    · rw [h, hbefore]
    · exact hafter
  refine Marking.ext (fun place => ?_) (tokens_restore_diff fun _ _ => rfl)
  rw [contains_restore hplaces, h]

end Simulation

/-! ## Places of a firing -/

namespace FlatNet

variable {net : FlatNet} {m : Marking}

theorem fire_eq_ok {transition : String} {after : Marking} (h : net.fire m transition = .ok after) :
    ∃ ts left us, net.transfers m (net.taking transition) = .ok ts ∧ m.withdraw ts = some left ∧
      net.transfers m (net.outbound transition) = .ok us ∧ left.deposit us = after := by
  rw [fire, bind_eq_ok] at h
  obtain ⟨left, htaken, hgiven⟩ := h
  have hleft := takeAll_toOption net m m (fun _ => .notEnabled transition) (net.taking transition)
  rw [htaken] at hleft
  obtain ⟨ts, hts, hwithdraw⟩ := Option.bind_eq_some_iff.1 hleft.symm
  rw [giveAll_eq, map_eq_ok] at hgiven
  obtain ⟨us, hus, hdeposit⟩ := hgiven
  exact ⟨ts, left, us, toOption_eq_some.1 hts, hwithdraw, hus, hdeposit⟩

theorem fireBackwards_eq_ok {transition : String} {before : Marking}
    (h : net.fireBackwards m transition = .ok before) :
    ∃ ts left us, net.transfers m (net.outbound transition) = .ok ts ∧ m.withdraw ts = some left ∧
      net.transfers m (net.taking transition) = .ok us ∧ left.deposit us = before := by
  rw [fireBackwards, bind_eq_ok] at h
  obtain ⟨left, htaken, hgiven⟩ := h
  have hleft := takeAll_toOption net m m (fun arc => .negativeCount transition arc.place) (net.outbound transition)
  rw [htaken] at hleft
  obtain ⟨ts, hts, hwithdraw⟩ := Option.bind_eq_some_iff.1 hleft.symm
  rw [giveAll_eq, map_eq_ok] at hgiven
  obtain ⟨us, hus, hdeposit⟩ := hgiven
  exact ⟨ts, left, us, toOption_eq_some.1 hts, hwithdraw, hus, hdeposit⟩

/-- Does an arc have its end in a place? -/
def IsEnd (net : FlatNet) (place : String) : Prop := ∃ a ∈ net.arcs.values, a.arc.place = place

/-- Is one marking made of another by moving tokens at ends of arcs? -/
structure Shifts (net : FlatNet) (m after : Marking) : Prop where
  kept : ∀ place, m.contains place = true → after.contains place = true
  added : ∀ place, after.contains place = true → m.contains place = true ∨ net.IsEnd place
  changed : ∀ place color, after.tokens place color ≠ m.tokens place color → net.IsEnd place

/-- Tokens that arcs take and give are moved at their ends. -/
theorem shifts_of_transfers {taking giving : List FlatArc} {ts us : List Transfer} {left : Marking}
    (htaking : ∀ a ∈ taking, a ∈ net.arcs.values) (hgiving : ∀ a ∈ giving, a ∈ net.arcs.values)
    (hts : net.transfers m taking = .ok ts) (hus : net.transfers m giving = .ok us)
    (hleft : m.withdraw ts = some left) : net.Shifts m (left.deposit us) := by
  have hend : ∀ {arcs : List FlatArc} {transfers : List Transfer}, (∀ a ∈ arcs, a ∈ net.arcs.values) →
      net.transfers m arcs = .ok transfers → ∀ place ∈ transfers.map Transfer.place, net.IsEnd place := by
    intro arcs transfers harcs htransfers place hplace
    obtain ⟨t, ht, rfl⟩ := List.mem_map.1 hplace
    obtain ⟨a, ha, heq⟩ := List.mem_map.1 (place_of_transfers htransfers t ht)
    exact ⟨a, harcs a ha, heq⟩
  constructor
  · intro place hplace
    exact (Marking.contains_moved_iff hleft).2 (Or.inl hplace)
  · intro place hplace
    refine ((Marking.contains_moved_iff hleft).1 hplace).imp_right fun hmoved => ?_
    rw [List.map_append] at hmoved
    exact (List.mem_append.1 hmoved).elim (hend htaking hts place) (hend hgiving hus place)
  · intro place color hne
    by_contra hnone
    refine hne ?_
    rw [Marking.tokens_deposit_of_notMem fun hplace => hnone (hend hgiving hus place hplace),
      Marking.tokens_withdraw_of_notMem hleft fun hplace => hnone (hend htaking hts place hplace)]

theorem mem_arcs_of_taking {transition : String} : ∀ a ∈ net.taking transition, a ∈ net.arcs.values :=
  fun _ ha => (List.mem_filter.1 (List.mem_filter.1 ha).1).1

theorem mem_arcs_of_outbound {transition : String} : ∀ a ∈ net.outbound transition, a ∈ net.arcs.values :=
  fun _ ha => (List.mem_filter.1 ha).1

theorem shifts_of_fire {transition : String} {after : Marking} (h : net.fire m transition = .ok after) :
    net.Shifts m after := by
  obtain ⟨ts, left, us, hts, hleft, hus, rfl⟩ := fire_eq_ok h
  exact shifts_of_transfers mem_arcs_of_taking mem_arcs_of_outbound hts hus hleft

theorem shifts_of_fireBackwards {transition : String} {before : Marking}
    (h : net.fireBackwards m transition = .ok before) : net.Shifts m before := by
  obtain ⟨ts, left, us, hts, hleft, hus, rfl⟩ := fireBackwards_eq_ok h
  exact shifts_of_transfers mem_arcs_of_outbound mem_arcs_of_taking hts hus hleft

/-- Firing adds no place when every arc has its end in a place that is there. -/
theorem contains_fire {transition : String} {after : Marking} (h : net.fire m transition = .ok after)
    (hplaces : ∀ a ∈ net.arcs.values, m.contains a.arc.place = true) (p : String) :
    after.contains p = m.contains p := by
  have hshifts := shifts_of_fire h
  refine Bool.eq_iff_iff.2 ⟨fun hp => ?_, hshifts.kept p⟩
  rcases hshifts.added p hp with hp | ⟨a, ha, rfl⟩
  · exact hp
  · exact hplaces a ha

end FlatNet

end PetriTree
