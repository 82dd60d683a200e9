import Mathlib
import PetriTree.Number.Positional

/-!
# PetriTree — decimal texts of numbers

A number is written as the shortest decimal that reads back to it. Searching for it stops at 17 digits,
and what is taken then is the number itself, which is a decimal fraction as every binary fraction is. So
whatever is written reads back, provided that rounding depends on the quotient only and that packing a
pattern into a value and taking it out again changes nothing.

Main results:
* `toBits_ofBits` — a pattern of a finite value comes out of the value as it was;
* `nearestPattern_units` — rounding a value that needs no rounding;
* `nearestPattern_congr` — rounding depends on the quotient only;
* `pattern_shortest` — the decimal chosen for a pattern reads back to it;
* `Decimal.pattern_ofDigits` — the digits written for a decimal denote a decimal of the same pattern.
-/

namespace PetriTree.Number

open Float.Model (Format)
open Float.Model.UnpackedFloat

/-! ## Patterns of values -/

theorem toBitVec_sign (b : BitVec 1) : (Sign.ofBitVec b).toBitVec = b := by
  revert b
  decide

/-- A pattern consists of its sign, its exponent and its fraction. -/
theorem packComponents_parts (b : BitVec Format.binary64.numBits) :
    packComponents Format.binary64 (Sign.ofBitVec (unpackSign b)) (unpackExponent b)
      (unpackMantissa b) = b := by
  rw [packComponents, toBitVec_sign]
  ext i hi
  have hi' : i < 64 := hi
  simp only [unpackSign, unpackExponent, unpackMantissa, BitVec.getElem_append, BitVec.getElem_cast,
    BitVec.extractLsb, BitVec.getElem_extractLsb']
  rw [← BitVec.getLsbD_eq_getElem]
  split
  · congr 1
    omega
  · split <;> (congr 1; omega)

theorem toNat_unpackExponent (b : BitVec Format.binary64.numBits) :
    (unpackExponent b).toNat = b.toNat / exponentStep % 2048 := by
  simp [unpackExponent, exponentStep, BitVec.extractLsb_toNat, Nat.shiftRight_eq_div_pow]

theorem pack_subnormal (s : Sign) {k : BitVec 52} {x : Int} (hpos : 0 < k.toNat) (hx : x = -1074) :
    pack Format.binary64 (.finite s k.toNat x hpos) = packComponents Format.binary64 s 0#11 k := by
  have hlog : k.toNat.log2 < 52 := (Nat.log2_lt (by omega)).2 k.isLt
  subst hx
  simp only [pack]
  rw [if_neg (by decide), if_neg, BitVec.ofNat_toNat, BitVec.setWidth_eq]
  simp only [Format.mantissaBits]
  omega

theorem pack_normal (s : Sign) {e : BitVec 11} {k : BitVec 52} {x : Int}
    (hpos : 0 < (1#1 ++ k).toNat) (he : e ≠ 0#11) (hfinite : e ≠ -1#11)
    (hx : x = (e.toNat : Int) - 1075) :
    pack Format.binary64 (.finite s (1#1 ++ k).toNat x hpos) =
      packComponents Format.binary64 s e k := by
  have hk : k.toNat < 2 ^ 52 := k.isLt
  have hlt : e.toNat < 2048 := e.isLt
  -- the exponent field is neither of its two extremes
  have he0 : e.toNat ≠ 0 := fun h => he (BitVec.eq_of_toNat_eq h)
  have hemax : e.toNat ≠ 2047 := fun h => hfinite (BitVec.eq_of_toNat_eq h)
  -- the significand has its leading bit at place 52, so the exponent comes out as it went in
  have hm : (1#1 ++ k).toNat = 2 ^ 52 + k.toNat := by
    rw [BitVec.toNat_append, Nat.shiftLeft_eq, Nat.mul_comm, ← Nat.two_pow_add_eq_or_of_lt hk]
    rfl
  have hlog : (1#1 ++ k).toNat.log2 = 52 := by
    rw [hm, Nat.log2_eq_iff (by omega)]
    omega
  have hbiased : (x + (Format.binary64.exponentBias : Int) + (52 : Nat)).toNat = e.toNat := by
    simp only [Format.exponentBias]
    omega
  simp only [pack, hlog]
  rw [if_neg, if_pos (by rfl)]
  · congr 1
    · exact (congrArg _ hbiased).trans (BitVec.ofNat_toNat ..)
    · -- the leading bit falls away
      apply BitVec.eq_of_toNat_eq
      rw [BitVec.toNat_ofNat, hm]
      omega
  · rw [hbiased]
    simp only [Nat.reducePow]
    omega

/-- Unpacking and packing keeps the pattern of every finite value. -/
theorem pack_unpack {b : BitVec Format.binary64.numBits} (hfinite : unpackExponent b ≠ -1#11) :
    pack Format.binary64 (unpack Format.binary64 b) = b := by
  refine Eq.trans ?_ (packComponents_parts b)
  simp only [unpack]
  rw [if_neg hfinite]
  split
  -- a zero exponent field: zero itself, and the values without a leading bit
  · rename_i hzero
    rw [hzero]
    split
    · rename_i hk
      rw [hk]
      rfl
    · exact pack_subnormal _ _ rfl
  · rename_i hne
    exact pack_normal _ _ hne hfinite rfl

/-- A pattern of a finite value comes out of the value as it was. -/
theorem toBits_ofBits {b : UInt64} (h : b.toNat < infinityPattern) : (Float.ofBits b).toBits = b := by
  have hexponent : @unpackExponent Format.binary64 b.toBitVec ≠ -1#11 := by
    intro heq
    -- a full exponent field makes a pattern at least that of infinity
    have hnat := toNat_unpackExponent b.toBitVec
    rw [heq] at hnat
    simp only [infinityPattern, exponentStep, UInt64.toNat_toBitVec] at h hnat
    have hmax : (-1#11).toNat = 2047 := by decide
    omega
  exact UInt64.toBitVec_inj.1 (pack_unpack hexponent)

/-- A value is its pattern. -/
theorem ext_toBits {x y : Float} (h : x.toBits = y.toBits) : x = y := by
  cases x with
  | ofModel a =>
    cases y with
    | ofModel b =>
      cases a
      cases b
      cases h
      rfl

/-- A value is finite unless its exponent field is full. -/
theorem isFinite_iff {x : Float} : x.isFinite = true ↔ x.toBits.toNat / exponentStep % 2048 ≠ 2047 := by
  have hexponent := toNat_unpackExponent x.toBits.toBitVec
  rw [UInt64.toNat_toBitVec] at hexponent
  have hfull : @unpackExponent Format.binary64 x.toBits.toBitVec = -1#11 ↔
      x.toBits.toNat / exponentStep % 2048 = 2047 := by
    rw [← hexponent]
    exact ⟨fun h => by rw [h]; rfl, fun h => BitVec.eq_of_toNat_eq h⟩
  show (unpack Format.binary64 x.toBits.toBitVec).isFinite = true ↔ _
  rw [ne_eq, ← hfull]
  simp only [unpack]
  split
  · rename_i heq
    split <;> exact iff_of_false Bool.false_ne_true (not_not.2 heq)
  · rename_i hne
    split
    · split <;> exact iff_of_true rfl hne
    · exact iff_of_true rfl hne

theorem toBits_ofPattern {p : Nat} (h : p < infinityPattern) : (ofPattern false p).toBits.toNat = p := by
  have hlt : p < 2 ^ 64 := by
    unfold infinityPattern at h
    omega
  have hp : (UInt64.ofNat p).toNat = p := UInt64.toNat_ofNat_of_lt' hlt
  rw [ofPattern, if_neg Bool.false_ne_true, toBits_ofBits (hp.symm ▸ h), hp]

theorem magnitude_ofPattern {p : Nat} (h : p < infinityPattern) : magnitude (ofPattern false p) = p := by
  rw [magnitude, toBits_ofPattern h]
  unfold signBit infinityPattern at *
  omega

theorem isNegative_ofPattern {p : Nat} (h : p < infinityPattern) :
    isNegative (ofPattern false p) = false := by
  rw [isNegative, toBits_ofPattern h, decide_eq_false_iff_not]
  unfold signBit infinityPattern at *
  omega

/-! ## Rounding -/

theorem unitsPerOne_pos : 0 < unitsPerOne := by
  rw [unitsPerOne, Nat.one_shiftLeft]
  exact Nat.two_pow_pos _

theorem roundDiv_mul (q : Nat) {d : Nat} (hd : 0 < d) : roundDiv (q * d) d = q := by
  rw [roundDiv, Nat.mul_mod_left, Nat.mul_div_cancel q hd, if_pos (Or.inl (by omega))]

theorem roundDiv_scale (n d : Nat) {k : Nat} (hk : 0 < k) : roundDiv (n * k) (d * k) = roundDiv n d := by
  have hlt : 2 * (n % d * k) < d * k ↔ 2 * (n % d) < d := by
    rw [← Nat.mul_assoc, Nat.mul_lt_mul_right hk]
  have heq : 2 * (n % d * k) = d * k ↔ 2 * (n % d) = d := by
    rw [← Nat.mul_assoc, Nat.mul_left_inj (by omega)]
  simp only [roundDiv, Nat.mul_mod_mul_right, Nat.mul_div_mul_right _ _ hk, hlt, heq]

theorem nearestPattern_scale (n d : Nat) {k : Nat} (hk : 0 < k) :
    nearestPattern (n * k) (d * k) = nearestPattern n d := by
  have hscaled : n * k * unitsPerOne = n * unitsPerOne * k := Nat.mul_right_comm ..
  have hshifted : ∀ shift, (d * k) <<< shift = d <<< shift * k := fun shift => by
    rw [Nat.shiftLeft_eq, Nat.shiftLeft_eq, Nat.mul_right_comm]
  simp only [nearestPattern, hscaled, hshifted, Nat.mul_div_mul_right _ _ hk, roundDiv_scale _ _ hk]

/-- Rounding depends on the quotient only. -/
theorem nearestPattern_congr {n d n' d' : Nat} (hd : 0 < d) (hd' : 0 < d') (h : n * d' = n' * d) :
    nearestPattern n d = nearestPattern n' d' := by
  rw [← nearestPattern_scale n d hd', ← nearestPattern_scale n' d' hd, h, Nat.mul_comm d d']

theorem log2_lead {n : Nat} (hlow : exponentStep ≤ n) (hhigh : n < 2 * exponentStep) (k : Nat) :
    (n <<< k).log2 = 52 + k := by
  have hpos : 0 < 2 ^ k := Nat.two_pow_pos k
  have hstep : exponentStep = 2 ^ 52 := by decide
  have hge : 2 ^ 52 * 2 ^ k ≤ n * 2 ^ k := Nat.mul_le_mul_right _ (hstep ▸ hlow)
  have hlt : n * 2 ^ k < 2 ^ 53 * 2 ^ k := Nat.mul_lt_mul_of_pos_right (by omega) hpos
  rw [← Nat.pow_add] at hge hlt
  rw [Nat.shiftLeft_eq, Nat.log2_eq_iff (by have := Nat.two_pow_pos (52 + k); omega)]
  exact ⟨hge, by rwa [show 52 + k + 1 = 53 + k by omega]⟩

/-- The value of a pattern needs no rounding. -/
theorem nearestPattern_units {p : Nat} (h : p < infinityPattern) :
    nearestPattern (units p) unitsPerOne = p := by
  rw [nearestPattern, Nat.mul_div_cancel _ unitsPerOne_pos]
  -- what is rounded is a multiple of the grid width
  suffices hgrid : ∃ q, units p = q <<< ((units p).log2 - 52) ∧
      ((units p).log2 - 52) * exponentStep + q = p by
    obtain ⟨q, hq, hp⟩ := hgrid
    have hmul : units p * unitsPerOne = q * unitsPerOne <<< ((units p).log2 - 52) := by
      conv_lhs => rw [hq]
      rw [Nat.shiftLeft_eq, Nat.shiftLeft_eq, Nat.mul_assoc, Nat.mul_comm (2 ^ _)]
    have hwidth : 0 < unitsPerOne <<< ((units p).log2 - 52) := by
      rw [Nat.shiftLeft_eq]
      exact Nat.mul_pos unitsPerOne_pos (Nat.two_pow_pos _)
    rw [hmul, roundDiv_mul q hwidth, hp]
    exact Nat.min_eq_left (Nat.le_of_lt h)
  by_cases hsmall : p < exponentStep
  -- the finest grid: the pattern is the number of units
  · have hlog : p.log2 < 53 := by
      by_cases hp : p = 0
      · subst hp
        decide
      · refine (Nat.log2_lt hp).2 ?_
        unfold exponentStep at hsmall
        omega
    rw [units, if_pos hsmall]
    have hshift : p.log2 - 52 = 0 := by omega
    rw [hshift]
    exact ⟨p, rfl, by rw [Nat.zero_mul, Nat.zero_add]⟩
  -- a coarser grid, told by the exponent field
  · have hlead : exponentStep ≤ exponentStep + p % exponentStep ∧
        exponentStep + p % exponentStep < 2 * exponentStep := by
      have hmod := Nat.mod_lt p (show 0 < exponentStep by decide)
      omega
    have hlog : ((exponentStep + p % exponentStep) <<< (p / exponentStep - 1)).log2 =
        52 + (p / exponentStep - 1) :=
      log2_lead hlead.1 hlead.2 _
    rw [units, if_neg hsmall, hlog]
    refine ⟨exponentStep + p % exponentStep, ?_, ?_⟩
    · rw [Nat.add_sub_cancel_left]
    · have hdiv := Nat.div_add_mod p exponentStep
      have hone : 1 ≤ p / exponentStep := Nat.div_pos (by omega) (by decide)
      rw [Nat.add_sub_cancel_left, Nat.sub_mul]
      have hle : 1 * exponentStep ≤ p / exponentStep * exponentStep := Nat.mul_le_mul_right _ hone
      rw [Nat.mul_comm] at hdiv
      omega

/-! ## The shortest decimal -/

/-- A binary fraction of so many places is a decimal fraction of as many. -/
theorem pattern_binary (n k : Nat) :
    (Decimal.mk (n * Nat.pow 5 k) k).pattern = nearestPattern n (1 <<< k) := by
  have hten : Nat.pow 10 k = 1 <<< k * Nat.pow 5 k := by
    rw [Nat.one_shiftLeft]
    exact Nat.mul_pow 2 5 k
  have hfive : 0 < Nat.pow 5 k := Nat.pow_pos (by decide)
  rw [Decimal.pattern, hten, nearestPattern_scale _ _ hfive]

theorem pattern_exact {p : Nat} (h : p < infinityPattern) : (exact (units p)).pattern = p := by
  rw [exact, pattern_binary]
  exact nearestPattern_units h

/-- The decimal chosen for a pattern reads back to it. -/
theorem pattern_shortest {p : Nat} (h : p < infinityPattern) : (shortest p).pattern = p := by
  rw [shortest]
  cases hfound : (List.range 17).findSome? fun n =>
      (neighbours (units p) (n + 1)).find? fun d => d.pattern == p with
  | none => exact pattern_exact h
  | some d =>
    obtain ⟨n, _, hd⟩ := List.exists_of_findSome?_eq_some hfound
    have htest := List.find?_some hd
    exact eq_of_beq htest

/-! ## Digits -/

namespace Decimal

theorem isDigit_of_mem_toDigits {n : Nat} : ∀ c ∈ Nat.toDigits 10 n, c.isDigit = true := fun _ hc =>
  Nat.isDigit_of_mem_toDigits (by decide) (by decide) hc

/-- Zeros at the end stand for a power of ten. -/
theorem exists_zeros (cs : List Char) :
    ∃ k, cs = (cs.reverse.dropWhile (· == '0')).reverse ++ List.replicate k '0' := by
  have hzeros : cs.reverse.takeWhile (· == '0') =
      List.replicate (cs.reverse.takeWhile (· == '0')).length '0' :=
    List.eq_replicate_of_mem fun c hc => by simpa using List.mem_takeWhile_imp hc
  refine ⟨(cs.reverse.takeWhile (· == '0')).length, ?_⟩
  rw [← List.reverse_replicate, ← hzeros, ← List.reverse_append, List.takeWhile_append_dropWhile,
    List.reverse_reverse]

/-- The digits of the fraction, filled up with zeros. -/
theorem fraction_eq (d : Decimal) : ∃ k, List.replicate
    (d.places - (Nat.toDigits 10 (d.digits % Nat.pow 10 d.places)).length) '0' ++
      Nat.toDigits 10 (d.digits % Nat.pow 10 d.places) = d.fraction ++ List.replicate k '0' :=
  exists_zeros _

/-- What the digits after the point are worth. -/
theorem ofDigitChars_fraction (d : Decimal) :
    Nat.ofDigitChars 10 d.fraction 0 * 10 ^ d.places =
      d.digits % Nat.pow 10 d.places * 10 ^ d.fraction.length := by
  obtain ⟨k, hk⟩ := d.fraction_eq
  have hvalue := congrArg (Nat.ofDigitChars 10 · 0) hk
  simp only [Nat.ofDigitChars_append, Nat.ofDigitChars_replicate_zero, Nat.mul_zero,
    Nat.ofDigitChars_ten_toDigits] at hvalue
  have hlength := congrArg List.length hk
  simp only [List.length_append, List.length_replicate] at hlength
  by_cases hplaces : d.places = 0
  · -- there are no digits after the point, and the zero written for them is dropped
    have hzero : d.digits % Nat.pow 10 d.places = 0 := by
      rw [hplaces]
      exact Nat.mod_one _
    rw [hzero] at hvalue ⊢
    have hdigits : Nat.ofDigitChars 10 d.fraction 0 = 0 :=
      (Nat.mul_eq_zero.1 hvalue.symm).resolve_left (Nat.pow_pos (by decide)).ne'
    rw [hdigits, Nat.zero_mul, Nat.zero_mul]
  -- the zeros that were dropped are the places that the fraction lacks
  · have hfits : (Nat.toDigits 10 (d.digits % Nat.pow 10 d.places)).length ≤ d.places :=
      (Nat.length_toDigits_le_iff (by decide) (Nat.pos_of_ne_zero hplaces)).2
        (Nat.mod_lt _ (Nat.pow_pos (by decide)))
    have hsum : d.places = k + d.fraction.length := by omega
    rw [hvalue, hsum, Nat.pow_add]
    ring

theorem isDigit_of_mem_fraction (d : Decimal) : ∀ c ∈ d.fraction, c.isDigit = true := by
  obtain ⟨k, hk⟩ := d.fraction_eq
  intro c hc
  have hmem : c ∈ d.fraction ++ List.replicate k '0' := List.mem_append_left _ hc
  rw [← hk] at hmem
  rcases List.mem_append.1 hmem with hmem | hmem
  · rw [(List.mem_replicate.1 hmem).2]
    decide
  · exact isDigit_of_mem_toDigits c hmem

/-- The digits written for a decimal denote a decimal of the same pattern. -/
theorem pattern_ofDigits (d : Decimal) :
    (ofDigits (Nat.toDigits 10 (d.digits / Nat.pow 10 d.places)) d.fraction).pattern = d.pattern := by
  have hten : ∀ k, 0 < Nat.pow 10 k := fun k => Nat.pow_pos (by decide)
  refine nearestPattern_congr (hten _) (hten _) ?_
  have hvalue := d.ofDigitChars_fraction
  have hdigits := Nat.div_add_mod d.digits (Nat.pow 10 d.places)
  rw [ofDigits, Nat.ofDigitChars_append, Nat.ofDigitChars_ten_toDigits,
    Nat.ofDigitChars_eq_ofDigitChars_zero]
  simp only [Nat.pow_eq] at *
  -- both decimals are the same quotient, over powers of ten
  calc (10 ^ d.fraction.length * (d.digits / 10 ^ d.places) + Nat.ofDigitChars 10 d.fraction 0) *
        10 ^ d.places
      = 10 ^ d.fraction.length * (10 ^ d.places * (d.digits / 10 ^ d.places)) +
        Nat.ofDigitChars 10 d.fraction 0 * 10 ^ d.places := by ring
    _ = (10 ^ d.places * (d.digits / 10 ^ d.places) + d.digits % 10 ^ d.places) *
        10 ^ d.fraction.length := by rw [hvalue]; ring
    _ = d.digits * 10 ^ d.fraction.length := by rw [hdigits]

end Decimal

end PetriTree.Number
