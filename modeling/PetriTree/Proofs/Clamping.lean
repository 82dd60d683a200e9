import PetriTree.Count.Word
import PetriTree.Proofs.Capacity
import PetriTree.Proofs.MarkingEquation
import PetriTree.Proofs.Schedule

/-!
# PetriTree — the arithmetic of counts

Totals, capacities and firings rest on a few laws: that it does not matter in which order counts are added, that more
is not less, and that what was taken is what has to come back. Clamping and infinity put each of them at risk. A clamped
sum no longer tells what it is made of, infinity cannot be used up, and as words the greatest finite count and infinity
are neighbours.

The laws hold all the same. A sum that is clamped on the way is the whole sum, clamped, so clamped addition is still
associative and respects the order. Infinity absorbs, and no finite sum, however large, comes to it. All that is lost is
that a clamped sum could be taken apart again, and so a difference has to be told by a sum that was not clamped.

Main results:
* `Count.rank_add`, `Count.sub?_eq_some_iff`, `Count.le_multiplesOf` — sums, differences and quotients of finite counts;
* `Count.word_add`, `Count.word_sub?`, `Count.word_multiplesOf` — the same on words;
* `Marking.total_eq_infinite_iff`, `Marking.rank_total`, `Marking.word_total` — the totals of places;
* `Count.clamped_monoid` — the laws of counts, and what they come to for words and for totals.
-/

namespace PetriTree

namespace Count

/-! ## Counts and numbers -/

theorem rank_eq_iff {n : Count} : n.rank = 0xffffffffffffffff ↔ n = infinite :=
  ⟨fun h => rank_injective h, fun h => congrArg rank h⟩

theorem rank_ofNat (n : Nat) : (ofNat n).rank = min n limit := rfl

/-- Counts are ordered as the numbers they are stored by. -/
theorem isLE_compare_iff {a b : Count} : (compare a b).isLE = true ↔ a.rank ≤ b.rank := Nat.isLE_compare

theorem zero_add (a : Count) : zero.add a = a := (add_comm zero a).trans (add_zero a)

/-- More makes a sum no less, on whichever side it is. -/
theorem isLE_compare_add {a b : Count} (h : (compare a b).isLE = true) (c : Count) :
    (compare (a.add c) (b.add c)).isLE = true ∧ (compare (c.add a) (c.add b)).isLE = true := by
  rw [isLE_compare_iff] at h
  have hleft : (compare (c.add a) (c.add b)).isLE = true := isLE_compare_iff.2 (rank_add_le c h)
  rw [add_comm a c, add_comm b c]
  exact ⟨hleft, hleft⟩

theorem add_eq_infinite_iff {a b : Count} : a.add b = infinite ↔ a = infinite ∨ b = infinite := by
  cases a with
  | infinite => simp [add]
  | finite a => cases b <;> simp [add, ofNat]

/-- Finite counts have a finite sum: the exact one, or the limit. -/
theorem rank_add {a b : Count} (ha : a ≠ infinite) (hb : b ≠ infinite) :
    (a.add b).rank = min (a.rank + b.rank) limit := by
  cases a with
  | infinite => exact absurd rfl ha
  | finite a =>
    cases b with
    | infinite => exact absurd rfl hb
    | finite b => rfl

/-- What is left of a finite count is the finite count that adds up to it, with what was taken, without clamping. -/
theorem sub?_eq_some_iff {a b c : Count} (ha : a ≠ infinite) :
    a.sub? b = some c ↔ c ≠ infinite ∧ c.add b = a ∧ c.rank + b.rank ≤ limit := by
  cases a with
  | infinite => exact absurd rfl ha
  | finite a =>
    have hlt := a.isLt
    constructor
    · intro h
      obtain ⟨b, rfl, hle, c, rfl, hc⟩ := Marking.sub?_finite h
      -- both parts of a finite count add up to no more than the limit
      have hsum : c.val + b.val = a.val := by omega
      have hlimit : c.val + b.val ≤ limit := by
        unfold limit
        omega
      refine ⟨Count.noConfusion, rank_injective ?_, hlimit⟩
      show min (c.val + b.val) limit = a.val
      rw [Nat.min_eq_left hlimit, hsum]
    · rintro ⟨hc, hsum, hlimit⟩
      -- an infinite count adds up to nothing finite
      have hb : b ≠ infinite := by
        intro hb
        exact Count.noConfusion (hsum.symm.trans (add_eq_infinite_iff.2 (Or.inr hb)))
      cases b with
      | infinite => exact absurd rfl hb
      | finite b =>
        have hrank : c.rank + b.val = a.val := calc
          c.rank + b.val = min (c.rank + b.val) limit := (Nat.min_eq_left hlimit).symm
          _ = (c.add (finite b)).rank := (rank_add hc hb).symm
          _ = a.val := congrArg rank hsum
        have hle : b.val ≤ a.val := by omega
        rw [sub?, if_pos hle]
        refine congrArg some (rank_injective ?_)
        show min (a.val - b.val) limit = c.rank
        unfold limit
        omega

/-- How often a weight can be taken is the greatest integer that, times the weight, does not exceed the count. -/
theorem le_multiplesOf {a w : Count} (ha : a ≠ infinite) (hw : w ≠ zero) :
    ∃ k : Nat, a.multiplesOf w = some k ∧ ∀ n : Int, n ≤ k ↔ n * w.rank ≤ a.rank := by
  cases a with
  | infinite => exact absurd rfl ha
  | finite a =>
    cases w with
    | infinite =>
      -- nothing finite is as much as one infinite weight
      have hlt := a.isLt
      refine ⟨0, rfl, fun n => ?_⟩
      simp only [rank]
      omega
    | finite w =>
      have hne : w.val ≠ 0 := fun h => hw (rank_injective h)
      have hpos : (0 : Int) < w.val := Int.natCast_pos.2 (Nat.pos_of_ne_zero hne)
      refine ⟨a.val / w.val, if_neg hne, fun n => ?_⟩
      rw [Int.natCast_ediv]
      exact Int.le_ediv_iff_mul_le hpos

/-- Several counts, added one after the other: infinity if it is among them, and else the exact sum, clamped once. -/
theorem rank_foldl_add (counts : List Count) :
    (counts.foldl add zero = infinite ↔ infinite ∈ counts) ∧
      (infinite ∉ counts → (counts.foldl add zero).rank = min (amount counts) limit) := by
  have hzero : zero ≠ infinite := Count.noConfusion
  rw [foldl_add]
  by_cases h : infinite ∈ counts
  · rw [if_pos (Or.inr h)]
    exact ⟨iff_of_true rfl h, fun hnone => absurd h hnone⟩
  · rw [if_neg (not_or.2 ⟨hzero, h⟩), rank_ofNat]
    refine ⟨iff_of_false Count.noConfusion h, fun _ => ?_⟩
    show min (0 + amount counts) limit = min (amount counts) limit
    rw [Nat.zero_add]

/-! ## Counts and words -/

theorem toNat_word (n : Count) : n.word.toNat = n.rank :=
  UInt64.toNat_ofNat_of_lt' (Nat.lt_of_le_of_lt n.rank_le (by decide))

theorem word_ofRank (v : UInt64) : (ofRank v).word = v := by
  rw [← UInt64.toNat_inj, toNat_word, ofRank]
  split
  · rfl
  · have hlt := v.toNat_lt
    rw [rank]
    omega

theorem ofRank_word (n : Count) : ofRank n.word = n :=
  rank_injective (by rw [← toNat_word, word_ofRank, toNat_word])

theorem word_eq_sentinel_iff {n : Count} : n.word = Word.sentinel ↔ n = infinite := by
  rw [← UInt64.toNat_inj, toNat_word]
  exact rank_eq_iff

theorem word_eq_zero_iff {n : Count} : n.word = 0 ↔ n = zero := by
  rw [← UInt64.toNat_inj, toNat_word]
  exact ⟨fun h => rank_injective h, fun h => congrArg rank h⟩

theorem word_le_iff {a b : Count} : a.word ≤ b.word ↔ a.rank ≤ b.rank := by
  rw [UInt64.le_iff_toNat_le, toNat_word, toNat_word]

/-- Counts are ordered as their words. -/
theorem isLE_compare_iff_word_le {a b : Count} : (compare a b).isLE = true ↔ a.word ≤ b.word := by
  rw [isLE_compare_iff, word_le_iff]

theorem word_ofNat (v : UInt64) : (ofNat v.toNat).word = Word.clamp v := by
  rw [← UInt64.toNat_inj, toNat_word, rank_ofNat, Word.clamp]
  split
  · rename_i hsentinel
    rw [hsentinel]
    decide
  · rename_i hfinite
    have hlt := v.toNat_lt
    have hne : v.toNat ≠ 0xffffffffffffffff := fun h => hfinite (UInt64.toNat_inj.1 h)
    unfold limit
    omega

/-- A sum that stops at the last word, moved to the word below, is one that stops at the limit. -/
theorem ofNat_saturatingAdd (v w : UInt64) : ofNat (saturatingAdd v w).toNat = ofNat (v.toNat + w.toNat) := by
  have hsize : UInt64.size = 0x10000000000000000 := rfl
  refine rank_injective ?_
  rw [rank_ofNat, rank_ofNat, toNat_saturatingAdd]
  unfold limit
  omega

theorem word_add (a b : Count) : (a.add b).word = Word.add a.word b.word := by
  simp only [Word.add, word_eq_sentinel_iff]
  split
  · rename_i hinfinite
    exact word_eq_sentinel_iff.2 (add_eq_infinite_iff.2 hinfinite)
  · rename_i hfinite
    rw [not_or] at hfinite
    -- the clamped word is that of the exact sum, which the count clamps at the same place
    rw [← word_ofNat, ofNat_saturatingAdd, toNat_word, toNat_word]
    refine congrArg word (rank_injective ?_)
    rw [rank_add hfinite.1 hfinite.2, rank_ofNat]

theorem word_sub? (a b : Count) : (a.sub? b).map word = Word.sub? a.word b.word := by
  simp only [Word.sub?, word_eq_sentinel_iff, word_le_iff]
  cases a with
  | infinite => rfl
  | finite a =>
    cases b with
    | infinite => rfl
    | finite b =>
      simp only [sub?, reduceCtorEq, if_false, apply_ite (Option.map word)]
      refine ite_congr rfl (fun hle => congrArg some ?_) fun _ => rfl
      -- the lesser word is taken from the greater one, so nothing wraps around
      have hwords := UInt64.toNat_sub_of_le _ _ (word_le_iff.2 hle)
      rw [← UInt64.toNat_inj, hwords, toNat_word, toNat_word, toNat_word]
      have hlt := a.isLt
      show min (a.val - b.val) limit = a.val - b.val
      unfold limit
      omega

theorem word_multiplesOf (a w : Count) : a.multiplesOf w = (Word.multiplesOf a.word w.word).map UInt64.toNat := by
  simp only [Word.multiplesOf, word_eq_sentinel_iff, word_eq_zero_iff]
  cases a with
  | infinite => rfl
  | finite a =>
    cases w with
    | infinite => rfl
    | finite w =>
      have hzero : finite w = zero ↔ w.val = 0 := ⟨fun h => congrArg rank h, fun h => rank_injective h⟩
      simp only [reduceCtorEq, false_or, if_false, hzero, apply_ite (Option.map UInt64.toNat)]
      -- both ask for a weight of zero before they divide
      refine ite_congr rfl (fun _ => rfl) fun _ => congrArg some ?_
      rw [UInt64.toNat_div, toNat_word, toNat_word]
      rfl

/-- Several words are added as the counts are. -/
theorem word_foldl_add (counts : List Count) : (counts.foldl add zero).word = Word.total (counts.map word) := by
  rw [Word.total, List.foldl_map]
  exact (List.foldl_hom word fun n k => (word_add n k).symm).symm

end Count

/-! ## Totals -/

/-- The counts that are kept for a place are those of its colours. -/
theorem Holding.mem_values_iff {h : Holding} {n : Count} (hn : n ≠ Count.zero) :
    n ∈ h.counts.values ↔ ∃ color, h.tokens color = n := by
  constructor
  · intro hmem
    obtain ⟨⟨color, _⟩, hentry, rfl⟩ := List.mem_map.1 hmem
    refine ⟨color, ?_⟩
    rw [tokens, SortedMap.get?_eq_some_iff.2 hentry]
    rfl
  · rintro ⟨color, htokens⟩
    rw [tokens] at htokens
    cases hget : h.counts.get? color with
    | none =>
      rw [hget] at htokens
      exact absurd htokens.symm hn
    | some stored =>
      rw [hget] at htokens
      exact List.mem_map.2 ⟨(color, stored), SortedMap.get?_eq_some_iff.1 hget, htokens⟩

namespace Marking

variable (m : Marking) (place : String)

theorem total_eq_infinite_iff : m.total place = .infinite ↔ ∃ color, m.tokens place color = .infinite :=
  (Count.rank_foldl_add _).1.trans (Holding.mem_values_iff Count.noConfusion)

/-- A finite total is the exact sum of what the place holds, clamped once. -/
theorem rank_total (h : m.total place ≠ .infinite) :
    (m.total place).rank = min (Count.amount (m.holding place).counts.values) Count.limit := by
  obtain ⟨hinfinite, hexact⟩ := Count.rank_foldl_add (m.holding place).counts.values
  exact hexact fun hmem => h (hinfinite.2 hmem)

theorem word_total : (m.total place).word = Word.total ((m.holding place).counts.values.map Count.word) :=
  Count.word_foldl_add _

end Marking

/-! ## Laws -/

namespace Count

/-- Zero is the unit of a commutative monoid of counts, which respects their order. A sum is infinite just if one of its
parts is, and else it is the exact sum, clamped. What is left of a finite count is the finite count that, with what was
taken, adds up to it without clamping; how often a weight can be taken is the greatest integer that, times the weight,
does not exceed the count. Words stand for counts, one for one and in the same order, with the sentinel for infinity,
and are added, taken and divided as the counts are. The total of a place is infinite just if it holds infinitely many
tokens of some colour, and else it is the exact sum of what it holds, clamped once. -/
theorem clamped_monoid (a b c : Count) (m : Marking) (place : String) :
    (a.add zero = a ∧ zero.add a = a ∧ a.add b = b.add a ∧ (a.add b).add c = a.add (b.add c)) ∧
    ((compare a b).isLE → (compare (a.add c) (b.add c)).isLE ∧ (compare (c.add a) (c.add b)).isLE) ∧
    ((a.add b = infinite ↔ a = infinite ∨ b = infinite) ∧
      (a ≠ infinite → b ≠ infinite → (a.add b).rank = min (a.rank + b.rank) 0xfffffffffffffffe)) ∧
    (a ≠ infinite → (a.sub? b = some c ↔ c ≠ infinite ∧ c.add b = a ∧ c.rank + b.rank ≤ 0xfffffffffffffffe)) ∧
    (a ≠ infinite → b ≠ zero →
      ∃ k : Nat, a.multiplesOf b = some k ∧ ∀ n : Int, n ≤ k ↔ n * b.rank ≤ a.rank) ∧
    (((∀ v, (ofRank v).word = v) ∧ ofRank a.word = a ∧ ((compare a b).isLE ↔ a.word ≤ b.word) ∧
        (a = infinite ↔ a.word = Word.sentinel)) ∧
      (a.add b).word = Word.add a.word b.word ∧ (a.sub? b).map word = Word.sub? a.word b.word ∧
      a.multiplesOf b = (Word.multiplesOf a.word b.word).map UInt64.toNat) ∧
    ((m.total place = infinite ↔ ∃ color, m.tokens place color = infinite) ∧
      (m.total place ≠ infinite →
        (m.total place).rank = min (amount (m.holding place).counts.values) 0xfffffffffffffffe) ∧
      (m.total place).word = Word.total ((m.holding place).counts.values.map word)) := by
  refine ⟨⟨add_zero a, zero_add a, add_comm a b, add_assoc a b c⟩, ?_, ⟨add_eq_infinite_iff, rank_add⟩,
    sub?_eq_some_iff, le_multiplesOf, ⟨?_, ?_⟩, ?_⟩
  · intro hle
    exact isLE_compare_add hle c
  · exact ⟨word_ofRank, ofRank_word a, isLE_compare_iff_word_le, word_eq_sentinel_iff.symm⟩
  · exact ⟨word_add a b, word_sub? a b, word_multiplesOf a b⟩
  · exact ⟨m.total_eq_infinite_iff place, m.rank_total place, m.word_total place⟩

/-- A place full of tokens of one colour, with one more of another. -/
def brimming : Marking := Marking.ofPlaces [("P", [("red", ofNat limit), ("blue", ofNat 1)])]

/-- Three more than the greatest finite count are as many as before. They can be taken, but then as many as before are
not what is left. -/
theorem clamped_monoid_brimming :
    let full := ofNat limit
    let three := ofNat 3
    (full ≠ infinite ∧ three ≠ infinite ∧ three ≠ zero ∧ (compare full infinite).isLE) ∧
      (compare (full.add three) (infinite.add three)).isLE ∧ (full.add three).rank = limit ∧
      full.add three = full ∧ full.sub? three ≠ some full ∧ full.sub? three = some (ofNat (limit - 3)) ∧
      (∃ k : Nat, full.multiplesOf three = some k ∧ ∀ n : Int, n ≤ k ↔ n * three.rank ≤ full.rank) ∧
      brimming.total "P" ≠ infinite ∧ (brimming.total "P").rank = limit := by
  intro full three
  have hfull : full ≠ infinite := Count.noConfusion
  have hthree : three ≠ infinite := Count.noConfusion
  have hpositive : three ≠ zero := by decide
  have hbelow : (compare full infinite).isLE := by decide
  have htotal : brimming.total "P" ≠ infinite := by decide +kernel
  obtain ⟨_, _, ⟨_, hsum⟩, hclamped, hmultiples, _, _, hexact, _⟩ := clamped_monoid full three full brimming "P"
  obtain ⟨_, _, _, hleft, _⟩ := clamped_monoid full three (ofNat (limit - 3)) brimming "P"
  obtain ⟨_, hmono, _⟩ := clamped_monoid full infinite three brimming "P"
  refine ⟨⟨hfull, hthree, hpositive, hbelow⟩, (hmono hbelow).1, (hsum hfull hthree).trans (by decide), by decide, ?_,
    (hleft hfull).2 (by decide), hmultiples hfull hpositive, htotal, (hexact htotal).trans (by decide +kernel)⟩
  intro hsame
  exact absurd ((hclamped hfull).1 hsame).2.2 (by decide)

end Count

end PetriTree
