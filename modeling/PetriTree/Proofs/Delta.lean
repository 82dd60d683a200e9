import PetriTree.Proofs.Change

/-!
# PetriTree — signed differences

A change records a count before and after, and its delta says in one signed number what came in or went out. Both are
numbers of 64 bits, but a count has no sign, so half of the counts are beyond the greatest delta. A difference that is
too great cannot be said, and the nearest number has to stand for it.

The delta does not go by the difference. It moves each count into the range of deltas by itself and subtracts then. Two
counts beyond that range become the same number in this way, and however far apart they are, nothing seems to have
changed. This is the worst that happens: the delta may be too small, but never has the wrong sign.

Main results:
* `TokenChange.nearestDelta` — what stands for a difference: the number itself, or the end of the range on its side;
* `TokenChange.delta_eq` — how the delta of two finite counts comes about;
* `TokenChange.delta_of_mem_diff` — just when the delta of a recorded change stands for the difference, adds up, and
  is not zero.
-/

namespace PetriTree.TokenChange

/-- The least signed 64-bit number; the greatest one is the `deltaLimit`. -/
def deltaLeast : Int := -0x8000000000000000

/-- The signed 64-bit number that stands for a difference. -/
def nearestDelta (difference : Int) : Int := max deltaLeast (min difference deltaLimit)

/-- A difference that fits stands for itself. -/
theorem nearestDelta_eq_self {difference : Int} (hleast : deltaLeast ≤ difference) (hlimit : difference ≤ deltaLimit) :
    nearestDelta difference = difference := by
  rw [nearestDelta, Int.min_eq_left hlimit, Int.max_eq_right hleast]

variable {change : TokenChange} {b a : Fin 0xffffffffffffffff}

theorem delta_eq (hbefore : change.before = .finite b) (hafter : change.after = .finite a) :
    change.delta = (min a.val deltaLimit : Nat) - (min b.val deltaLimit : Nat) := by
  unfold delta
  rw [hbefore, hafter]

/-- The delta of a recorded change stands for the difference just if the count before is within the range of deltas and
the count after is so too, unless it started from zero. It leads from one count to the other just if both are within the
range, and it is zero, although something changed, just if neither is below the end of the range. It never has the wrong
sign. -/
theorem delta_of_mem_diff {before after : Marking} (hmem : change ∈ diff before after)
    (hbefore : change.before = .finite b) (hafter : change.after = .finite a) :
    (change.delta = nearestDelta (a.val - b.val : Int) ↔
      b.val ≤ deltaLimit ∧ (a.val ≤ deltaLimit ∨ b.val = 0)) ∧
    (b.val + change.delta = a.val ↔ b.val ≤ deltaLimit ∧ a.val ≤ deltaLimit) ∧
    (change.delta ≠ 0 ↔ b.val < deltaLimit ∨ a.val < deltaLimit) ∧
    (0 < change.delta → b.val < a.val) ∧ (change.delta < 0 → a.val < b.val) := by
  -- what is recorded has changed
  have hne : b.val ≠ a.val := by
    obtain ⟨hb, ha, hdiffer⟩ := mem_diff.1 hmem
    intro hsame
    apply hdiffer
    rw [← hb, ← ha, hbefore, hafter, Fin.ext hsame]
  have hdelta := delta_eq hbefore hafter
  -- both are numbers of 64 bits, and the range of deltas covers half of these
  have hb := b.isLt
  have ha := a.isLt
  have hlimit : deltaLimit = 9223372036854775807 := rfl
  have hleast : deltaLeast = -9223372036854775808 := rfl
  rw [hdelta]
  refine ⟨?_, ?_, ?_, ?_, ?_⟩
  · unfold nearestDelta
    omega
  · omega
  · omega
  · omega
  · omega

/-- A place that holds as many tokens as given. -/
def store (tokens : Nat) : Marking := Marking.ofPlaces [("P", [(defaultColor, Count.ofNat tokens)])]

/-- Three tokens more, where there were almost as many as deltas reach. Two of them are counted. -/
theorem delta_of_mem_diff_cut : ∃ change ∈ diff (store 0x7ffffffffffffffd) (store 0x8000000000000000), ∃ b a,
    change.before = .finite b ∧ change.after = .finite a ∧ change.delta = 2 ∧
    change.delta ≠ nearestDelta (a.val - b.val : Int) ∧ change.delta ≠ 0 := by
  have hmem : (⟨"P", defaultColor, .finite ⟨0x7ffffffffffffffd, by decide⟩, .finite ⟨0x8000000000000000, by decide⟩⟩ :
      TokenChange) ∈ diff (store 0x7ffffffffffffffd) (store 0x8000000000000000) := by decide +kernel
  obtain ⟨hstands, _, hzero, _, _⟩ := delta_of_mem_diff hmem rfl rfl
  refine ⟨_, hmem, _, _, rfl, rfl, by decide +kernel, ?_, hzero.2 (Or.inl (by decide))⟩
  intro h
  exact absurd (hstands.1 h) (by decide)

/-- A token comes in, which is recorded, but the delta is zero. -/
theorem delta_loses_token : ∃ change ∈ diff (store 0x8000000000000000) (store 0x8000000000000001), ∃ b a,
    change.before = .finite b ∧ change.after = .finite a ∧ (a.val : Int) - b.val = 1 ∧ nearestDelta 1 = 1 ∧
    change.delta = 0 := by
  refine ⟨⟨"P", defaultColor, .finite ⟨0x8000000000000000, by decide⟩, .finite ⟨0x8000000000000001, by decide⟩⟩,
    by decide +kernel, _, _, rfl, rfl, by decide, nearestDelta_eq_self (by decide) (by decide), by decide +kernel⟩

end PetriTree.TokenChange
