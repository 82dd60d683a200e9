import Mathlib.Data.List.Nodup
import PetriTree.Marking
import PetriTree.Table

/-!
# PetriTree — markings from lists of counts

A marking is filled from lists: of places, and of counts in each place. As long as no name occurs twice
in a list, the order does not matter and every count is found again.

Main results:
* `Marking.tokens_putAll` — what filling one place does to every count;
* `Marking.tokens_ofPlaces` — the counts of a marking that was filled from a list of places.
-/

namespace PetriTree

theorem Count.isZero_iff {n : Count} : n.isZero = true ↔ n = Count.zero := by
  cases n with
  | infinite => simp [isZero, zero, ofNat]
  | finite value =>
    simp only [isZero, zero, ofNat, beq_iff_eq, Count.finite.injEq, Fin.ext_iff]
    rw [Nat.min_eq_left (Nat.zero_le _)]

namespace Marking

theorem tokens_empty (place color : String) : Marking.empty.tokens place color = Count.zero := rfl

theorem tokens_addPlace (m : Marking) (place p color : String) :
    (m.addPlace place).tokens p color = m.tokens p color := by
  simp only [tokens, holding, addPlace, SortedMap.get?_insert, Std.LawfulEqCmp.compare_eq_iff_eq]
  by_cases h : p = place <;> simp [h]

/-- Setting several counts of one place, one after the other. -/
theorem tokens_foldl_put (place p color : String) :
    ∀ (counts : List (String × Count)) (m : Marking), (counts.map Prod.fst).Nodup →
      (counts.foldl (fun m e => if e.2.isZero then m else m.put place e.1 e.2) m).tokens p color =
        if p = place ∧ (Table.lookup color counts).any (!·.isZero) then
          (Table.lookup color counts).getD Count.zero
        else m.tokens p color
  | [], m, _ => by simp [Table.lookup]
  | (c, n) :: rest, m, hnodup => by
    rw [List.map_cons, List.nodup_cons] at hnodup
    rw [List.foldl_cons, tokens_foldl_put place p color rest _ hnodup.2, Table.lookup]
    -- a colour is listed once, so a later count cannot replace this one
    have hmissing : c = color → Table.lookup color rest = none := by
      rintro rfl
      exact Table.lookup_eq_none_iff.2 hnodup.1
    by_cases hzero : n.isZero = true
    · by_cases hc : c = color
      · simp [hmissing hc, hc, hzero]
      · simp [hc, hzero]
    · by_cases hc : c = color
      · by_cases hp : p = place <;> simp [hmissing hc, hc, hzero, hp, tokens_put]
      · simp [hc, hzero, tokens_put, Ne.symm hc]

/-- Filling a place that holds nothing gives it the listed counts, and changes no other place. -/
theorem tokens_putAll (m : Marking) (place : String) {counts : List (String × Count)}
    (hnodup : (counts.map Prod.fst).Nodup) (p color : String) :
    (m.putAll place counts).tokens p color =
      if p = place ∧ (Table.lookup color counts).any (!·.isZero) then
        (Table.lookup color counts).getD Count.zero
      else m.tokens p color := by
  rw [putAll, tokens_foldl_put place p color counts _ hnodup, tokens_addPlace]

theorem tokens_foldl_putAll {p : String} (color : String) :
    ∀ {places : List (String × List (String × Count))} (m : Marking),
      (∀ e ∈ places, (e.2.map Prod.fst).Nodup) → p ∉ places.map Prod.fst →
      (places.foldl (fun m e => m.putAll e.1 e.2) m).tokens p color = m.tokens p color
  | [], _, _, _ => rfl
  | (place, counts) :: rest, m, hcounts, hp => by
    rw [List.map_cons, List.mem_cons, not_or] at hp
    have hrest := tokens_foldl_putAll color (m.putAll place counts)
      (fun e he => hcounts e (List.mem_cons_of_mem _ he)) hp.2
    rw [List.foldl_cons, hrest, tokens_putAll m place (hcounts _ (List.mem_cons_self ..)), if_neg]
    exact fun h => hp.1 h.1

/-- A marking that was filled from a list of places gives every place the counts listed for it. -/
theorem tokens_ofPlaces {places : List (String × List (String × Count))} {p : String}
    {counts : List (String × Count)} (hplaces : (places.map Prod.fst).Nodup)
    (hcounts : ∀ e ∈ places, (e.2.map Prod.fst).Nodup) (hp : (p, counts) ∈ places) (color : String) :
    (ofPlaces places).tokens p color = (Table.lookup color counts).getD Count.zero := by
  suffices h : ∀ m : Marking, m.tokens p color = Count.zero →
      (places.foldl (fun m e => m.putAll e.1 e.2) m).tokens p color =
        (Table.lookup color counts).getD Count.zero from
    h empty (tokens_empty p color)
  intro m hm
  -- places before the one in question do not fill it, places after it do not change it
  induction places generalizing m with
  | nil => cases hp
  | cons e rest ih =>
    rw [List.map_cons, List.nodup_cons] at hplaces
    have hrest : ∀ d ∈ rest, (d.2.map Prod.fst).Nodup := fun d hd =>
      hcounts d (List.mem_cons_of_mem _ hd)
    have hfilled := tokens_putAll m e.1 (hcounts e (List.mem_cons_self ..)) p color
    rw [List.foldl_cons]
    rcases List.mem_cons.1 hp with rfl | hp
    · rw [tokens_foldl_putAll color _ hrest hplaces.1, hfilled, hm]
      -- a count of zero is passed over, and there was none before
      cases hlookup : Table.lookup color counts with
      | none => simp
      | some n =>
        by_cases hn : n.isZero = true
        · simp [Count.isZero_iff.1 hn]
        · simp [hn]
    · have hne : p ≠ e.1 := by
        rintro rfl
        exact hplaces.1 (List.mem_map.2 ⟨_, hp, rfl⟩)
      refine ih hplaces.2 hrest hp _ ?_
      rw [hfilled, if_neg fun h => hne h.1, hm]

end Marking

end PetriTree
