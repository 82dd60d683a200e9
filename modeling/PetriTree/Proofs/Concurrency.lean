import Mathlib.Order.Bounds.Defs
import PetriTree.Proofs.MarkingEquation

/-!
# PetriTree — how often a transition could fire at once

The degree of a transition is meant to be the greatest number of copies of it that could take their tokens at
once; it multiplies the rate of infinite servers. The walk over the arcs computes a minimum of quotients, one for
every weight. What it finds is the greatest number of copies that each weight on its own allows. When two arcs
take the same colour from the same place, both quotients are of the whole count, and the copies would have to share
it: the degree comes out too great, and never too small.

Main results:
* `Marking.Together`, `Marking.Apart` — copies that can take their tokens at once, and that could do so if every
  transfer had the tokens to itself;
* `Marking.together_iff` — copies go together when all of their transfers can be withdrawn;
* `FlatNet.degree_isGreatest` — what the degree is the greatest number of, and when that is the concurrency.
-/

namespace PetriTree

/-! ## Copies -/

namespace Marking

variable {m : Marking} {ts : List Transfer} {k : Nat}

/-- Could a number of copies of transfers take their tokens at once? -/
def Together (m : Marking) (ts : List Transfer) (k : Nat) : Prop :=
  ∀ place color n, m.tokens place color = .finite n → k * demandOf place color ts ≤ n.val

/-- Could they do so if each of the transfers had all the tokens of its place and colour to itself? -/
def Apart (m : Marking) (ts : List Transfer) (k : Nat) : Prop :=
  ∀ t ∈ ts, ∀ n, m.tokens t.place t.color = .finite n → k * t.count.rank ≤ n.val

theorem demandOf_append (place color : String) (ts us : List Transfer) :
    demandOf place color (ts ++ us) = demandOf place color ts + demandOf place color us := by
  induction ts with
  | nil => exact (Nat.zero_add _).symm
  | cons t rest ih => rw [List.cons_append, demandOf, demandOf, ih, Nat.add_assoc]

theorem demandOf_copies (place color : String) (ts : List Transfer) (k : Nat) :
    demandOf place color (List.replicate k ts).flatten = k * demandOf place color ts := by
  induction k with
  | zero => simp [demandOf]
  | succ k ih => rw [List.replicate_succ, List.flatten_cons, demandOf_append, ih, Nat.succ_mul, Nat.add_comm]

/-- Copies go together when one after the other can be withdrawn. -/
theorem together_iff : m.Together ts k ↔ ∃ left, m.withdraw (List.replicate k ts).flatten = some left := by
  rw [← Option.isSome_iff_exists, Option.isSome_iff_ne_none, ne_eq, withdraw_eq_none_iff]
  simp only [ShortOf, demandOf_copies, not_exists, not_and, Nat.not_lt, Together]

/-- Where there is demand, some transfer takes something. -/
theorem exists_of_demandOf_pos {place color : String} (h : 0 < demandOf place color ts) :
    ∃ t ∈ ts, t.place = place ∧ t.color = color ∧ 0 < t.count.rank := by
  by_contra hnone
  push Not at hnone
  induction ts with
  | nil => exact absurd h (Nat.lt_irrefl 0)
  | cons t rest ih =>
    rw [demandOf] at h
    split at h
    · rename_i heq
      have hzero := hnone t (List.mem_cons_self ..) heq.1 heq.2
      exact ih (by omega) fun t' ht' => hnone t' (List.mem_cons_of_mem _ ht')
    · exact ih (by omega) fun t' ht' => hnone t' (List.mem_cons_of_mem _ ht')

theorem rank_le_demandOf {t : Transfer} (h : t ∈ ts) : t.count.rank ≤ demandOf t.place t.color ts := by
  obtain ⟨before, after, rfl⟩ := List.append_of_mem h
  rw [demandOf_append, demandOf, if_pos ⟨rfl, rfl⟩]
  omega

theorem Together.apart (h : m.Together ts k) : m.Apart ts k := by
  intro t ht n hn
  calc k * t.count.rank ≤ k * demandOf t.place t.color ts := Nat.mul_le_mul_left k (rank_le_demandOf ht)
    _ ≤ n.val := h t.place t.color n hn

/-- Transfers that share no place and colour leave each other's tokens alone. -/
theorem Apart.together (h : m.Apart ts k) (hends : (ts.map fun t => (t.place, t.color)).Nodup) :
    m.Together ts k := by
  intro place color n hn
  cases k with
  | zero => simp
  | succ k =>
    -- the demand is a single weight, if any
    have hle : demandOf place color ts ≤ n.val / (k + 1) := by
      refine demandOf_le hends fun t ht hplace hcolor => ?_
      have hshare := h t ht n (by rw [hplace, hcolor, hn])
      exact (Nat.le_div_iff_mul_le k.succ_pos).2 (by rwa [Nat.mul_comm])
    have hproduct := (Nat.le_div_iff_mul_le k.succ_pos).1 hle
    rwa [Nat.mul_comm] at hproduct

end Marking

namespace FlatNet

variable {net : FlatNet} {m : Marking} {transition : String} {k : Nat}

/-! ## Bounds -/

/-- How often transfers can be made one by one, under a bound found so far. -/
def boundBy (m : Marking) (bound : Option Nat) (ts : List Transfer) : Option Nat :=
  ts.foldl (fun bound t => tighten bound ((m.tokens t.place t.color).multiplesOf t.count)) bound

/-- Being below the lesser of two bounds is being below both, where a missing bound bounds nothing. -/
theorem le_tighten_iff {bound other : Option Nat} :
    (∀ d ∈ tighten bound other, k ≤ d) ↔ (∀ d ∈ bound, k ≤ d) ∧ ∀ d ∈ other, k ≤ d := by
  cases bound with
  | none => cases other <;> simp [tighten]
  | some d =>
    cases other with
    | none => simp [tighten]
    | some d' => simp only [tighten, Option.mem_some_iff, forall_eq', Nat.le_min]

/-- Being below a quotient is having enough for that many times the weight. -/
theorem le_multiplesOf_iff {held weight : Count} :
    (∀ d ∈ held.multiplesOf weight, k ≤ d) ↔ ∀ n, held = .finite n → k * weight.rank ≤ n.val := by
  cases held with
  | infinite => simp [Count.multiplesOf]
  | finite n =>
    simp only [Count.finite.injEq, forall_eq']
    cases weight with
    | infinite =>
      -- nothing finite holds even one infinite weight
      have hlt := n.isLt
      simp only [Count.multiplesOf, Count.rank, Option.mem_some_iff, forall_eq']
      omega
    | finite w =>
      simp only [Count.multiplesOf, Count.rank]
      split
      · rename_i hzero
        simp [hzero]
      · rename_i hpositive
        simp [Nat.le_div_iff_mul_le (Nat.pos_of_ne_zero hpositive)]

theorem le_boundBy_iff {bound : Option Nat} {ts : List Transfer} :
    (∀ d ∈ boundBy m bound ts, k ≤ d) ↔ (∀ d ∈ bound, k ≤ d) ∧ m.Apart ts k := by
  induction ts generalizing bound with
  | nil => simp [boundBy, Marking.Apart]
  | cons t rest ih =>
    rw [boundBy, List.foldl_cons, ← boundBy, ih, le_tighten_iff, le_multiplesOf_iff, and_assoc, Marking.Apart,
      Marking.Apart, List.forall_mem_cons]

theorem le_boundBy_none_iff {ts : List Transfer} : (∀ d ∈ boundBy m none ts, k ≤ d) ↔ m.Apart ts k := by
  rw [le_boundBy_iff]
  simp

/-- There is a bound when something is taken from some finite count. -/
theorem exists_boundBy {ts : List Transfer} (h : ∃ place color n, m.tokens place color = .finite n ∧
    0 < demandOf place color ts) : ∃ d, boundBy m none ts = some d := by
  obtain ⟨place, color, n, hn, hpositive⟩ := h
  obtain ⟨t, ht, rfl, rfl, hrank⟩ := Marking.exists_of_demandOf_pos hpositive
  refine Option.ne_none_iff_exists'.1 fun hnone => ?_
  -- without a bound, any number of copies would do
  have hapart : m.Apart ts (n.val + 1) := le_boundBy_none_iff.1 (by simp [hnone])
  have hproduct := hapart t ht n hn
  have hle := Nat.le_mul_of_pos_right (n.val + 1) hrank
  omega

theorem boundByWeights_eq (net : FlatNet) (m : Marking) (arc : Arc) (bound : Option Nat)
    (weights : List (String × Expr)) : net.boundByWeights m arc bound weights =
      (net.transfersOf m arc weights).map (boundBy m bound) := by
  induction weights generalizing bound with
  | nil => rfl
  | cons w rest ih =>
    rw [boundByWeights, transfersOf]
    cases hn : net.weigh m arc.id w.2 with
    | error e => rfl
    | ok n =>
      show net.boundByWeights m arc _ rest = _
      rw [ih]
      cases net.transfersOf m arc rest <;> rfl

theorem boundByArcs_eq (net : FlatNet) (m : Marking) (bound : Option Nat) (arcs : List FlatArc) :
    net.boundByArcs m bound arcs = (net.transfers m arcs).map (boundBy m bound) := by
  induction arcs generalizing bound with
  | nil => rfl
  | cons a rest ih =>
    rw [boundByArcs, transfers, boundByWeights_eq]
    cases net.transfersOf m a.arc a.weights with
    | error e => rfl
    | ok first =>
      show net.boundByArcs m (boundBy m bound first) rest = _
      rw [ih]
      cases net.transfers m rest with
      | error e => rfl
      | ok others => exact congrArg Except.ok List.foldl_append.symm

/-! ## The degree -/

/-- The degree of an enabled transition is the least of the bounds of what it takes. -/
theorem degree_eq (h : net.isEnabled m transition = .ok true) :
    net.degree m transition = .ok ((boundBy m none (net.moved m (net.taking transition))).getD 1) := by
  obtain ⟨ts, hts⟩ := exists_transfers_of_isEnabled h
  rw [degree, h, moved_of_transfers hts]
  show (net.boundByArcs m none (net.taking transition) >>= _) = _
  rw [boundByArcs_eq, hts]
  rfl

/-- The degree of an enabled transition that takes tokens from some finite count. It is the greatest number of
copies that could take their tokens if every weight had the count to itself. The copies that go together are no
more than that. It is the greatest number of those exactly when so many do go together, and they do when the
transition takes each colour from each place at most once. -/
theorem degree_isGreatest (henabled : net.isEnabled m transition = .ok true)
    (hbounded : ∃ place color n, m.tokens place color = .finite n ∧
      0 < demandOf place color (net.moved m (net.taking transition))) :
    ∃ d, net.degree m transition = .ok d ∧
      IsGreatest {k | m.Apart (net.moved m (net.taking transition)) k} d ∧
      (∀ k, m.Together (net.moved m (net.taking transition)) k → k ≤ d) ∧
      (IsGreatest {k | m.Together (net.moved m (net.taking transition)) k} d ↔
        m.Together (net.moved m (net.taking transition)) d) ∧
      ((endsOf (net.taking transition)).Nodup →
        IsGreatest {k | m.Together (net.moved m (net.taking transition)) k} d) := by
  obtain ⟨ts, hts⟩ := exists_transfers_of_isEnabled henabled
  rw [degree_eq henabled, moved_of_transfers hts]
  rw [moved_of_transfers hts] at hbounded
  obtain ⟨d, hd⟩ := exists_boundBy hbounded
  have hle : ∀ k, k ≤ d ↔ m.Apart ts k := by
    intro k
    rw [← le_boundBy_none_iff, hd]
    simp
  have hgreatest : IsGreatest {k | m.Apart ts k} d := ⟨(hle d).1 (Nat.le_refl d), fun k hk => (hle k).2 hk⟩
  have hupper : ∀ k, m.Together ts k → k ≤ d := fun k hk => (hle k).2 hk.apart
  rw [hd]
  refine ⟨d, rfl, hgreatest, hupper, ⟨fun h => h.1, fun h => ⟨h, hupper⟩⟩, fun hnodup => ⟨?_, hupper⟩⟩
  exact hgreatest.1.together (ends_of_transfers hts ▸ hnodup)

/-- A transition that takes two tokens from one place and one from another. -/
def paired : IncludeTree := Sample.single
  [Sample.place "P" 7, Sample.place "Q" 5, Sample.transition "T" Rate.one,
    Sample.arc "a" "P" "T" .placeToTransition "2", Sample.arc "b" "Q" "T" .placeToTransition "1"]

/-- Three copies of it go together, and no more. -/
theorem degree_paired : ∃ net, FlatNet.ofTree paired = .ok net ∧ net.isEnabled net.initial "T" = .ok true ∧
    net.degree net.initial "T" = .ok 3 ∧
    IsGreatest {k | net.initial.Together (net.moved net.initial (net.taking "T")) k} 3 := by
  have hrun : (FlatNet.ofTree paired).map (fun net => (net.isEnabled net.initial "T", net.degree net.initial "T",
      net.initial.tokens "P" defaultColor,
      demandOf "P" defaultColor (net.moved net.initial (net.taking "T")),
      decide (endsOf (net.taking "T")).Nodup)) = .ok (.ok true, .ok 3, Count.ofNat 7, 2, true) := by
    decide +kernel
  obtain ⟨net, hnet, houtcome⟩ := map_eq_ok.1 hrun
  simp only [Prod.mk.injEq, decide_eq_true_eq] at houtcome
  obtain ⟨henabled, hthree, hseven, hdemand, hnodup⟩ := houtcome
  obtain ⟨d, hd, -, -, -, hgreatest⟩ := degree_isGreatest henabled
    ⟨"P", defaultColor, _, hseven, by rw [hdemand]; decide⟩
  rw [hthree] at hd
  cases hd
  exact ⟨net, hnet, henabled, hthree, hgreatest hnodup⟩

/-- A transition with two arcs from a place that holds four tokens. -/
def twins : IncludeTree := Sample.single
  [Sample.place "P" 4, Sample.transition "T" Rate.one,
    Sample.arc "a" "P" "T" .placeToTransition "1", Sample.arc "b" "P" "T" .placeToTransition "1"]

/-- Its degree is four, though only two copies go together. -/
theorem degree_twins : ∃ net, FlatNet.ofTree twins = .ok net ∧ net.isEnabled net.initial "T" = .ok true ∧
    net.degree net.initial "T" = .ok 4 ∧
    IsGreatest {k | net.initial.Together (net.moved net.initial (net.taking "T")) k} 2 := by
  have hrun : (FlatNet.ofTree twins).map (fun net => (net.isEnabled net.initial "T", net.degree net.initial "T",
      net.initial.tokens "P" defaultColor, demandOf "P" defaultColor (net.moved net.initial (net.taking "T")),
      decide (∀ t ∈ net.moved net.initial (net.taking "T"), t.place = "P" ∧ t.color = defaultColor))) =
        .ok (.ok true, .ok 4, Count.ofNat 4, 2, true) := by
    decide +kernel
  obtain ⟨net, hnet, houtcome⟩ := map_eq_ok.1 hrun
  simp only [Prod.mk.injEq, decide_eq_true_eq] at houtcome
  obtain ⟨henabled, hfour, htokens, hdemand, hends⟩ := houtcome
  refine ⟨net, hnet, henabled, hfour, fun place color n hn => ?_, fun k hk => ?_⟩
  · by_cases hhere : place = "P" ∧ color = defaultColor
    · obtain ⟨rfl, rfl⟩ := hhere
      rw [htokens] at hn
      cases hn
      rw [hdemand]
      decide
    · -- nothing is taken anywhere else
      have hnone : demandOf place color (net.moved net.initial (net.taking "T")) = 0 := by
        refine demandOf_eq_zero fun hmem => ?_
        obtain ⟨t, ht, heq⟩ := List.mem_map.1 hmem
        cases heq
        exact hhere (hends t ht)
      omega
  · have hle : k * 2 ≤ 4 := by
      have hshared := hk "P" defaultColor _ htokens
      rwa [hdemand] at hshared
    omega

end FlatNet

end PetriTree
