import PetriTree.Proofs.Change
import PetriTree.Proofs.Keys

/-!
# PetriTree — a difference leads both ways

A difference between two markings has to list what one of them holds and the other does not know: a place that is there in
one only, a colour whose last token left and took its entry along. So the places are collected from both, and the colours
of each place from both, and only then are the counts compared.

As nothing that differs is left out, the difference leads from either marking to the counts of the other. As nothing is
listed twice, and everything in one order, it is told by the two markings alone, and looking at them the other way round
only exchanges the two counts of every change.

Main results:
* `TokenChange.pairwise_diff`, `TokenChange.nodup_diff` — by place, then by colour, and none twice;
* `TokenChange.diff_swap` — the other way round;
* `TokenChange.tokens_applyAll_diff` — writing every count after the changes;
* `TokenChange.diff_characterizes` — all of this, for any two markings.
-/

namespace PetriTree

theorem SortedSet.ofList_append_comm [Ord κ] [Std.TransOrd κ] [Std.LawfulEqOrd κ] (keys others : List κ) :
    ofList (keys ++ others) = ofList (others ++ keys) := by
  refine ext_mem fun key => ?_
  rw [mem_ofList, mem_ofList, List.mem_append, List.mem_append, or_comm]

namespace TokenChange

/-- The change seen the other way round. -/
def swap (change : TokenChange) : TokenChange := ⟨change.place, change.color, change.after, change.before⟩

/-- Does a change come first, by its place or, in the same place, by its colour? -/
def Precedes (change other : TokenChange) : Prop :=
  change.place < other.place ∨ change.place = other.place ∧ change.color < other.color

/-- A marking with the count after each change written into it. -/
def applyAll (m : Marking) (changes : List TokenChange) : Marking :=
  changes.foldl (fun m change => m.put change.place change.color change.after) m

/-! ## Order -/

/-- The changes of one place ascend by colour. -/
theorem pairwise_inPlace (place : String) (before after : Holding) :
    (inPlace place before after).Pairwise Precedes := by
  rw [inPlace, List.pairwise_filterMap]
  refine (SortedSet.pairwise_toList _).imp fun {color other} hlt change hchange next hnext => ?_
  -- a colour whose count is the same on both sides gives no change
  split at hchange
  · cases hchange
  · split at hnext
    · cases hnext
    · cases hchange
      cases hnext
      exact Or.inr ⟨rfl, compareOfLessAndEq_eq_lt.1 hlt⟩

theorem pairwise_diff (before after : Marking) : (diff before after).Pairwise Precedes := by
  rw [diff, List.pairwise_flatMap]
  refine ⟨fun place _ => pairwise_inPlace .., ?_⟩
  refine (SortedSet.pairwise_toList _).imp fun {place other} hlt change hchange next hnext => ?_
  -- the place decides where it differs
  refine Or.inl ?_
  rw [(mem_inPlace.1 hchange).1, (mem_inPlace.1 hnext).1]
  exact compareOfLessAndEq_eq_lt.1 hlt

/-- No count is listed twice. -/
theorem nodup_diff (before after : Marking) :
    ((diff before after).map fun change => (change.place, change.color)).Nodup := by
  refine List.pairwise_map.2 ((pairwise_diff before after).imp fun {change other} hprecedes heq => ?_)
  obtain ⟨hplace, hcolor⟩ := Prod.mk.inj heq
  rcases hprecedes with hlt | ⟨_, hlt⟩
  · exact String.lt_irrefl _ (hplace ▸ hlt)
  · exact String.lt_irrefl _ (hcolor ▸ hlt)

/-! ## The other way round -/

theorem inPlace_swap (place : String) (before after : Holding) :
    inPlace place after before = (inPlace place before after).map swap := by
  rw [inPlace, inPlace, List.map_filterMap, SortedSet.ofList_append_comm]
  congr 1
  funext color
  by_cases hsame : before.tokens color = after.tokens color
  · simp [hsame]
  · simp [hsame, Ne.symm hsame, swap]

theorem diff_swap (before after : Marking) : diff after before = (diff before after).map swap := by
  rw [diff, diff, List.map_flatMap, SortedSet.ofList_append_comm]
  congr 1
  funext place
  exact inPlace_swap place _ _

/-- Writing the counts after the changes is putting back what the changes, seen the other way round, started from. -/
theorem applyAll_eq_restore (m : Marking) (changes : List TokenChange) :
    applyAll m changes = Simulation.restore m (changes.map swap) := by
  rw [applyAll, Simulation.restore, List.foldl_map]
  rfl

theorem tokens_applyAll_diff (before after : Marking) (place color : String) :
    (applyAll before (diff before after)).tokens place color = after.tokens place color := by
  rw [applyAll_eq_restore, ← diff_swap]
  exact Simulation.tokens_restore_diff (fun _ _ => rfl) place color

/-- The difference of two markings lists, by place and then by colour and none twice, just the counts in which they
differ, each with both values. Writing the counts after the changes leads to those of the marking after, putting back the
ones before to those of the marking before, and the difference the other way round is the same list with the two counts
of each change exchanged. -/
theorem diff_characterizes (before after : Marking) :
    (diff before after).Pairwise Precedes ∧
    ((diff before after).map fun change => (change.place, change.color)).Nodup ∧
    (∀ place color n k, (⟨place, color, n, k⟩ : TokenChange) ∈ diff before after ↔
      n = before.tokens place color ∧ k = after.tokens place color ∧ n ≠ k) ∧
    (∀ place color, (applyAll before (diff before after)).tokens place color = after.tokens place color) ∧
    (∀ place color, (Simulation.restore after (diff before after)).tokens place color = before.tokens place color) ∧
    diff after before = (diff before after).map swap := by
  refine ⟨pairwise_diff before after, nodup_diff before after, fun place color n k => ?_,
    tokens_applyAll_diff before after, Simulation.tokens_restore_diff fun _ _ => rfl, diff_swap before after⟩
  rw [mem_diff]
  dsimp only
  refine and_congr_right fun hbefore => and_congr_right fun hafter => ?_
  rw [hbefore, hafter]

/-- A place that only one of the markings knows, on either side; the colour that was used up has no entry any more, and
the place without tokens does not show. -/
example : diff (Marking.ofPlaces [("P", [("Red", .infinite)]), ("Q", [])]) (Marking.ofPlaces [("R", [("Red", .ofNat 2)])]) =
    [⟨"P", "Red", .infinite, .zero⟩, ⟨"R", "Red", .zero, .ofNat 2⟩] := by decide +kernel

end TokenChange

end PetriTree
