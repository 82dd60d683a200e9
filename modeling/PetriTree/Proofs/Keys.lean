import Mathlib.Data.Set.Card
import PetriTree.SortedMap

/-!
# PetriTree — the keys of sorted maps

The entries of a map ascend. So its keys can be counted, as none occurs twice, and those up to some bound are read by
going along until the first one beyond it.

Main results:
* `SortedMap.pairwise_keys`, `SortedMap.encard_keys` — in what order the keys are, and as many as there are entries;
* `takeWhile_eq_filter` — reading up to a bound, and leaving out what is beyond it;
* `SortedSet.pairwise_toList` — the members of a set, in order.
-/

namespace PetriTree

open Std

variable {κ : Type u} {α : Type v} [Ord κ]

namespace SortedMap

theorem pairwise_keys (m : SortedMap κ α) : m.keys.Pairwise fun a b => compare a b = .lt :=
  List.pairwise_map.2 m.ascending

variable [TransOrd κ] [LawfulEqOrd κ]

/-- There are as many keys as entries. -/
theorem encard_keys (m : SortedMap κ α) : {key | m.contains key = true}.encard = m.entries.length := by
  classical
  have hkeys : {key | m.contains key = true} = (m.keys.toFinset : Set κ) := by
    ext key
    rw [List.coe_toFinset]
    exact mem_keys_iff.symm
  rw [hkeys, Set.encard_coe_eq_coe_finsetCard, List.toFinset_card_of_nodup m.nodup_keys, keys, List.length_map]

end SortedMap

/-- Where whatever stands before an element that will do will do too, the elements that will do are the first ones. -/
theorem takeWhile_eq_filter {p : α → Bool} {list : List α} (h : list.Pairwise fun a b => p b = true → p a = true) :
    list.takeWhile p = list.filter p := by
  induction list with
  | nil => rfl
  | cons first rest ih =>
    obtain ⟨hlater, hrest⟩ := List.pairwise_cons.1 h
    by_cases hfirst : p first = true
    · rw [List.takeWhile_cons_of_pos hfirst, List.filter_cons_of_pos hfirst, ih hrest]
    · have hnone : ∀ a ∈ rest, ¬ p a = true := fun a ha hp => hfirst (hlater a ha hp)
      rw [List.takeWhile_cons_of_neg hfirst, List.filter_cons_of_neg hfirst, List.filter_eq_nil_iff.2 hnone]

theorem SortedSet.pairwise_toList (s : SortedSet κ) : s.toList.Pairwise fun a b => compare a b = .lt :=
  s.marks.pairwise_keys

end PetriTree
