import PetriTree.Proofs.Change
import PetriTree.Proofs.Firing

/-!
# PetriTree — the marking equation

In a textbook net a firing adds a fixed vector to the marking. Here it is a walk: weight by weight, colour by
colour, tokens are taken, partly in vain, and then given, and every count that is passed on the way is clamped,
absorbed by infinity, or dropped when it is zero. Several arcs may share a place, and weights may read the very
places that change.

The walk is nevertheless an equation. Taking only ever lowers a finite count, so that nothing is clamped while
tokens are taken, and what is left of a count is the difference to all that was taken. Giving only ever raises
it, and a sum that is clamped on the way is the whole sum, clamped. Neither depends on the order.

Main results:
* `FlatNet.moved`, `countsAt` — what the weights of arcs come to, and the part of it at one place and colour;
* `Count.foldl_add` — sums that are clamped on the way;
* `Marking.tokens_withdraw`, `Marking.tokens_deposit` — every count after taking and after giving;
* `FlatNet.marking_equation` — when a firing is possible, and every count after it.
-/

namespace PetriTree

/-! ## Sums of counts -/

namespace Count

/-- The sum of several counts as a number, infinite ones counted by their rank. -/
def amount : List Count → Nat
  | [] => 0
  | n :: rest => n.rank + amount rest

theorem amount_perm {counts others : List Count} (h : counts.Perm others) : amount counts = amount others := by
  induction h with
  | nil => rfl
  | cons n _ ih => rw [amount, amount, ih]
  | swap n k rest =>
    simp only [amount]
    omega
  | trans _ _ ih ih' => exact ih.trans ih'

/-- One infinite count is more than any finite count. -/
theorem rank_infinite_le_amount {counts : List Count} (h : .infinite ∈ counts) :
    infinite.rank ≤ amount counts := by
  induction counts with
  | nil => cases h
  | cons n rest ih =>
    rw [amount]
    rcases List.mem_cons.1 h with rfl | hrest
    · exact Nat.le_add_right ..
    · exact Nat.le_trans (ih hrest) (Nat.le_add_left ..)

/-- Adding several counts one after the other: infinity absorbs, and clamping on the way is clamping at the
end. -/
theorem foldl_add (n : Count) (counts : List Count) : counts.foldl add n =
    if n = .infinite ∨ .infinite ∈ counts then .infinite else ofNat (n.rank + amount counts) := by
  induction counts generalizing n with
  | nil =>
    cases n with
    | infinite => rfl
    | finite k =>
      have hlt := k.isLt
      refine rank_injective ?_
      show k.val = min (k.val + 0) limit
      unfold limit
      omega
  | cons first rest ih =>
    rw [List.foldl_cons, ih, amount]
    cases n with
    | infinite => simp [add]
    | finite k =>
      cases first with
      | infinite => simp [add]
      | finite w =>
        -- both sums are finite unless an infinite count follows
        have hsum : (finite k).add (finite w) = ofNat (k.val + w.val) := rfl
        simp only [hsum, ofNat, reduceCtorEq, List.mem_cons, false_or]
        refine if_congr Iff.rfl rfl (rank_injective ?_)
        show min (min (k.val + w.val) limit + amount rest) limit =
          min (k.val + (w.val + amount rest)) limit
        omega

end Count

/-! ## Transfers at a place -/

/-- What transfers bring or take at a place in a colour. -/
def countsAt (place color : String) (ts : List Transfer) : List Count :=
  (ts.filter fun t => decide (t.place = place ∧ t.color = color)).map Transfer.count

theorem countsAt_cons (place color : String) (t : Transfer) (rest : List Transfer) :
    countsAt place color (t :: rest) =
      if t.place = place ∧ t.color = color then t.count :: countsAt place color rest
      else countsAt place color rest := by
  rw [countsAt, List.filter_cons]
  simp only [decide_eq_true_eq]
  split <;> rfl

theorem demandOf_eq (place color : String) (ts : List Transfer) :
    demandOf place color ts = Count.amount (countsAt place color ts) := by
  induction ts with
  | nil => rfl
  | cons t rest ih =>
    rw [demandOf, countsAt_cons, ih]
    split
    · rfl
    · exact Nat.zero_add _

namespace Marking

variable {m left : Marking}

/-- What is left of a count when tokens were taken: the difference to all that was taken there. -/
theorem tokens_withdraw {ts : List Transfer} (h : m.withdraw ts = some left) (place color : String) :
    (m.tokens place color = .infinite → left.tokens place color = .infinite) ∧
      ∀ n, m.tokens place color = .finite n → ∃ k, left.tokens place color = .finite k ∧
        k.val + demandOf place color ts = n.val := by
  induction ts generalizing m with
  | nil =>
    cases h
    exact ⟨id, fun n hn => ⟨n, hn, rfl⟩⟩
  | cons t rest ih =>
    rw [withdraw] at h
    cases hafter : (m.tokens t.place t.color).sub? t.count with
    | none =>
      rw [hafter] at h
      cases h
    | some after =>
      rw [hafter] at h
      have hrest := ih h
      rw [demandOf]
      by_cases hhere : place = t.place ∧ color = t.color
      · obtain ⟨rfl, rfl⟩ := hhere
        rw [tokens_put, if_pos ⟨rfl, rfl⟩] at hrest
        rw [if_pos ⟨rfl, rfl⟩]
        constructor
        · intro hinfinite
          rw [hinfinite] at hafter
          cases hafter
          exact hrest.1 rfl
        · -- the transfer takes its share first, and the others take theirs of what it leaves
          intro n hn
          rw [hn] at hafter
          obtain ⟨b, hcount, hle, c, rfl, hc⟩ := sub?_finite hafter
          obtain ⟨k, hk, hsum⟩ := hrest.2 c rfl
          have hrank : t.count.rank = b.val := by rw [hcount]; rfl
          exact ⟨k, hk, by omega⟩
      · rw [tokens_put, if_neg hhere] at hrest
        rw [if_neg fun h => hhere ⟨h.1.symm, h.2.symm⟩, Nat.zero_add]
        exact hrest

/-- A count when tokens were given: all that was given there, added to what was there. -/
theorem tokens_deposit (m : Marking) (ts : List Transfer) (place color : String) :
    (m.deposit ts).tokens place color = (countsAt place color ts).foldl Count.add (m.tokens place color) := by
  induction ts generalizing m with
  | nil => rfl
  | cons t rest ih =>
    rw [deposit, ih, tokens_put, countsAt_cons]
    by_cases hhere : place = t.place ∧ color = t.color
    · obtain ⟨rfl, rfl⟩ := hhere
      rw [if_pos ⟨rfl, rfl⟩, if_pos ⟨rfl, rfl⟩, List.foldl_cons]
    · rw [if_neg hhere, if_neg fun h => hhere ⟨h.1.symm, h.2.symm⟩]

/-- A count when tokens were taken and then given. -/
theorem tokens_deposit_of_withdraw {ts us : List Transfer} (h : m.withdraw ts = some left) (place color : String) :
    (left.deposit us).tokens place color =
      if m.tokens place color = .infinite ∨ .infinite ∈ countsAt place color us then .infinite
      else Count.ofNat ((m.tokens place color).rank - Count.amount (countsAt place color ts) +
        Count.amount (countsAt place color us)) := by
  obtain ⟨hinfinite, hfinite⟩ := tokens_withdraw h place color
  rw [tokens_deposit, Count.foldl_add]
  cases htokens : m.tokens place color with
  | infinite => simp [hinfinite htokens]
  | finite n =>
    obtain ⟨k, hk, hsum⟩ := hfinite n htokens
    have hleft : k.val = n.val - Count.amount (countsAt place color ts) := by
      rw [← demandOf_eq]
      omega
    rw [hk, Count.rank, Count.rank, hleft]
    simp

/-- Does every place hold all that is taken there, or infinitely many tokens? -/
def Affords (m : Marking) (ts : List Transfer) : Prop :=
  ∀ place color, m.tokens place color = .infinite ∨
    .infinite ∉ countsAt place color ts ∧
      Count.amount (countsAt place color ts) ≤ (m.tokens place color).rank

theorem affords_iff {ts : List Transfer} :
    m.Affords ts ↔ ¬ ∃ place color, m.ShortOf ts place color := by
  simp only [Affords, ShortOf, demandOf_eq, not_exists, not_and, Nat.not_lt]
  refine forall₂_congr fun place color => ?_
  cases htokens : m.tokens place color with
  | infinite => simp
  | finite n =>
    simp only [reduceCtorEq, false_or, Count.finite.injEq, forall_eq']
    refine and_iff_right_of_imp ?_
    intro hle hinfinite
    -- an infinite weight would ask for more than any finite count
    have hgreat := Count.rank_infinite_le_amount hinfinite
    have hlt := n.isLt
    simp only [Count.rank] at hle hgreat
    omega

theorem countsAt_perm {ts us : List Transfer} (h : ts.Perm us) (place color : String) :
    (countsAt place color ts).Perm (countsAt place color us) :=
  (h.filter _).map _

theorem withdraw_eq_none_perm {ts us : List Transfer} (h : ts.Perm us) :
    m.withdraw ts = none ↔ m.withdraw us = none := by
  simp only [withdraw_eq_none_iff, ShortOf, demandOf_eq, Count.amount_perm (countsAt_perm h _ _)]

/-- The order in which tokens are taken and given does not matter. -/
theorem withdraw_map_deposit_perm {ts ts' us us' : List Transfer} (hts : ts.Perm ts') (hus : us.Perm us') :
    (m.withdraw ts).map (fun left => left.deposit us) = (m.withdraw ts').map fun left => left.deposit us' := by
  cases hleft : m.withdraw ts with
  | none =>
    rw [(withdraw_eq_none_perm hts).1 hleft]
    rfl
  | some left =>
    cases hother : m.withdraw ts' with
    | none =>
      rw [(withdraw_eq_none_perm hts).2 hother] at hleft
      cases hleft
    | some other =>
      -- the same counts in the same places
      refine congrArg some (Marking.ext (fun place => ?_) fun place color => ?_)
      · rw [Bool.eq_iff_iff, contains_moved_iff hleft, contains_moved_iff hother,
          ((hts.append hus).map Transfer.place).mem_iff]
      · simp only [tokens_deposit_of_withdraw hleft, tokens_deposit_of_withdraw hother,
          (countsAt_perm hus place color).mem_iff, Count.amount_perm (countsAt_perm hts place color),
          Count.amount_perm (countsAt_perm hus place color)]

end Marking

namespace FlatNet

variable {net : FlatNet} {m : Marking} {transition : String}

/-! ## Weights with values -/

/-- Have all weights of some arcs values in a marking? -/
def Evaluable (net : FlatNet) (m : Marking) (arcs : List FlatArc) : Prop :=
  ∀ a ∈ arcs, ∀ w ∈ a.weights, ∃ n, w.2.evaluateWeight (net.reading m) = .ok n

instance (net : FlatNet) (m : Marking) (arcs : List FlatArc) : Decidable (net.Evaluable m arcs) :=
  decidable_of_iff (∀ a ∈ arcs, ∀ w ∈ a.weights, (w.2.evaluateWeight (net.reading m)).toOption.isSome) (by
    simp only [Evaluable, Option.isSome_iff_exists, toOption_eq_some])

/-- What weights at a place come to in a marking, one transfer for every weight that has a value. -/
def weighed (net : FlatNet) (m : Marking) (place : String) (weights : List (String × Expr)) : List Transfer :=
  weights.filterMap fun w => (w.2.evaluateWeight (net.reading m)).toOption.map fun n => ⟨place, w.1, n⟩

/-- What the weights of arcs come to in a marking. -/
def moved (net : FlatNet) (m : Marking) (arcs : List FlatArc) : List Transfer :=
  arcs.flatMap fun a => net.weighed m a.arc.place a.weights

theorem moved_cons (a : FlatArc) (rest : List FlatArc) :
    net.moved m (a :: rest) = net.weighed m a.arc.place a.weights ++ net.moved m rest :=
  List.flatMap_cons

theorem weighed_of_transfersOf {arc : Arc} {weights : List (String × Expr)} {ts : List Transfer}
    (h : net.transfersOf m arc weights = .ok ts) : net.weighed m arc.place weights = ts := by
  induction weights generalizing ts with
  | nil =>
    cases h
    rfl
  | cons w rest ih =>
    simp only [transfersOf, bind_eq_ok] at h
    obtain ⟨n, hn, others, hothers, h⟩ := h
    cases h
    have hvalue : (w.2.evaluateWeight (net.reading m)).toOption = some n := toOption_eq_some.2 (weigh_eq_ok.1 hn)
    have hothers : net.weighed m arc.place rest = others := ih hothers
    rw [weighed] at hothers ⊢
    rw [List.filterMap_cons, hvalue, hothers]
    rfl

theorem moved_of_transfers {arcs : List FlatArc} {ts : List Transfer} (h : net.transfers m arcs = .ok ts) :
    net.moved m arcs = ts := by
  induction arcs generalizing ts with
  | nil =>
    cases h
    rfl
  | cons a rest ih =>
    simp only [transfers, bind_eq_ok] at h
    obtain ⟨first, hfirst, others, hothers, h⟩ := h
    cases h
    rw [moved_cons, weighed_of_transfersOf hfirst, ih hothers]

/-- When all weights have values, the arcs come to what their weights come to. -/
theorem transfers_eq_moved {arcs : List FlatArc} (h : net.Evaluable m arcs) :
    net.transfers m arcs = .ok (net.moved m arcs) := by
  obtain ⟨ts, hts⟩ := exists_transfers h
  rw [hts, moved_of_transfers hts]

/-! ## Firing -/

theorem fire_eq_of_evaluable (htaking : net.Evaluable m (net.taking transition))
    (hgiving : net.Evaluable m (net.outbound transition)) : net.fire m transition =
      ((m.withdraw (net.moved m (net.taking transition))).map fun left =>
        left.deposit (net.moved m (net.outbound transition))).elim (.error (.notEnabled transition)) .ok := by
  rw [fire_eq (transfers_eq_moved htaking), transfers_eq_moved hgiving]
  cases m.withdraw (net.moved m (net.taking transition)) <;> rfl

/-! ## The order of the arcs -/

/-- What expressions look up has nothing to do with arcs. -/
theorem reading_withArcs (net : FlatNet) (m : Marking) (arcs : Table FlatArc) :
    { net with arcs := arcs }.reading m = net.reading m := by
  have hparameters : ∀ definitions, { net with arcs := arcs }.parameterValue m definitions =
      net.parameterValue m definitions := by
    intro definitions
    induction definitions with
    | nil => rfl
    | cons d rest ih =>
      funext id
      rw [parameterValue, parameterValue, ih]
      rfl
  rw [reading, reading, hparameters]
  rfl

/-- Arcs in another order come to the same, in another order. -/
theorem moved_withArcs (net : FlatNet) (m : Marking) (table : Table FlatArc) {arcs others : List FlatArc}
    (h : others.Perm arcs) : ({ net with arcs := table }.moved m others).Perm (net.moved m arcs) := by
  simp only [moved, weighed, reading_withArcs]
  exact h.flatMap_right _

theorem Evaluable.withArcs {arcs others : List FlatArc} (h : net.Evaluable m arcs) (table : Table FlatArc)
    (hperm : others.Perm arcs) : { net with arcs := table }.Evaluable m others := by
  rw [Evaluable, reading_withArcs]
  exact fun a ha => h a (hperm.mem_iff.1 ha)

/-- A net with its arcs in another order fires as before. -/
theorem fire_withArcs (htaking : net.Evaluable m (net.taking transition))
    (hgiving : net.Evaluable m (net.outbound transition)) {table : Table FlatArc}
    (hperm : table.values.Perm net.arcs.values) :
    { net with arcs := table }.fire m transition = net.fire m transition := by
  have htaken : ({ net with arcs := table }.taking transition).Perm (net.taking transition) :=
    (hperm.filter _).filter _
  have hgiven : ({ net with arcs := table }.outbound transition).Perm (net.outbound transition) :=
    hperm.filter _
  rw [fire_eq_of_evaluable (htaking.withArcs table htaken) (hgiving.withArcs table hgiven),
    fire_eq_of_evaluable htaking hgiving,
    Marking.withdraw_map_deposit_perm (moved_withArcs net m table htaken) (moved_withArcs net m table hgiven)]

/-! ## The equation -/

/-- Firing is an equation between markings. When all weights that a transition moves have values, it fires
just if every place affords what is taken there. Every count is then what it was, less all that was taken and
more all that was given, clamped at the end; it is infinite if it was so or something infinite was given. What
no arc moves stays, and arcs in another order lead to the same. -/
theorem marking_equation (htaking : net.Evaluable m (net.taking transition))
    (hgiving : net.Evaluable m (net.outbound transition)) :
    let taken := net.moved m (net.taking transition)
    let given := net.moved m (net.outbound transition)
    ((∃ after, net.fire m transition = .ok after) ↔ m.Affords taken) ∧
    (∀ after, net.fire m transition = .ok after → ∀ place color,
      (m.tokens place color = .infinite ∨ .infinite ∈ countsAt place color given →
        after.tokens place color = .infinite) ∧
      (∀ n, m.tokens place color = .finite n → .infinite ∉ countsAt place color given →
        ∃ k, after.tokens place color = .finite k ∧ k.val = min (n.val -
          Count.amount (countsAt place color taken) + Count.amount (countsAt place color given)) Count.limit) ∧
      (countsAt place color taken = [] → countsAt place color given = [] →
        after.tokens place color = m.tokens place color)) ∧
    ∀ arcs : Table FlatArc, arcs.values.Perm net.arcs.values →
      { net with arcs := arcs }.fire m transition = net.fire m transition := by
  intro taken given
  have hfire := fire_eq_of_evaluable htaking hgiving
  refine ⟨?_, fun after hafter place color => ?_, fun arcs hperm => fire_withArcs htaking hgiving hperm⟩
  · rw [Marking.affords_iff, ← Marking.withdraw_eq_none_iff, hfire]
    cases m.withdraw taken <;> simp
  · rw [hfire] at hafter
    cases hleft : m.withdraw taken with
    | none =>
      rw [hleft] at hafter
      cases hafter
    | some left =>
      rw [hleft] at hafter
      cases hafter
      rw [Marking.tokens_deposit_of_withdraw hleft]
      refine ⟨fun hinfinite => if_pos hinfinite, fun n hn hgiven => ?_, fun htaken hgiven => ?_⟩
      · have hfinite : ¬ (m.tokens place color = .infinite ∨ .infinite ∈ countsAt place color given) :=
          not_or.2 ⟨by simp [hn], hgiven⟩
        rw [if_neg hfinite, hn]
        exact ⟨_, rfl, rfl⟩
      · rw [htaken, hgiven]
        exact (Count.foldl_add _ []).symm

/-- A transition with two arcs out of a place, one of them back into it and one into another place; two of the
weights read the place that changes. -/
def churn : IncludeTree := Sample.single
  [Sample.place "P" 5, Sample.place "Q" 0, Sample.transition "T" Rate.one,
    Sample.arc "a" "P" "T" .placeToTransition "1", Sample.arc "b" "P" "T" .placeToTransition "#(P) - 3",
    Sample.arc "c" "P" "T" .transitionToPlace "#(P)", Sample.arc "d" "Q" "T" .transitionToPlace "2"]

/-- Three tokens are taken from five and five are given back, with the arcs in either order. -/
theorem marking_equation_churn : ∃ (net : FlatNet) (after : Marking) (backwards : Table FlatArc),
    FlatNet.ofTree churn = .ok net ∧ net.Evaluable net.initial (net.taking "T") ∧
    net.Evaluable net.initial (net.outbound "T") ∧ backwards.values = net.arcs.values.reverse ∧
    net.fire net.initial "T" = .ok after ∧ { net with arcs := backwards }.fire net.initial "T" = .ok after ∧
    net.initial.Affords (net.moved net.initial (net.taking "T")) ∧
    after.tokens "P" defaultColor = Count.ofNat 7 := by
  have hrun : (FlatNet.ofTree churn).map (fun net =>
      (decide (net.Evaluable net.initial (net.taking "T") ∧ net.Evaluable net.initial (net.outbound "T") ∧
          (net.fire net.initial "T").toOption.isSome), net.initial.tokens "P" defaultColor,
        countsAt "P" defaultColor (net.moved net.initial (net.taking "T")),
        countsAt "P" defaultColor (net.moved net.initial (net.outbound "T")))) =
      .ok (true, Count.ofNat 5, [Count.ofNat 1, Count.ofNat 2], [Count.ofNat 5]) := by
    decide +kernel
  obtain ⟨net, hnet, houtcome⟩ := map_eq_ok.1 hrun
  simp only [Prod.mk.injEq, decide_eq_true_eq] at houtcome
  obtain ⟨⟨htaking, hgiving, hfires⟩, hfive, htaken, hgiven⟩ := houtcome
  obtain ⟨after, hafter⟩ := Option.isSome_iff_exists.1 hfires
  replace hafter := toOption_eq_some.1 hafter
  have hnodup : (net.arcs.entries.reverse.map Prod.fst).Nodup := by
    rw [List.map_reverse, List.nodup_reverse]
    exact net.arcs.nodup
  let backwards : Table FlatArc := ⟨net.arcs.entries.reverse, hnodup⟩
  have hvalues : backwards.values = net.arcs.values.reverse := List.map_reverse
  obtain ⟨hfire, hcounts, horder⟩ := marking_equation htaking hgiving
  obtain ⟨k, hk, hbalance⟩ := (hcounts after hafter "P" defaultColor).2.1 _ hfive (by rw [hgiven]; decide)
  rw [htaken, hgiven] at hbalance
  refine ⟨net, after, backwards, hnet, htaking, hgiving, hvalues, hafter, ?_, hfire.1 ⟨after, hafter⟩, ?_⟩
  · rw [horder backwards (hvalues ▸ List.reverse_perm _), hafter]
  · rw [hk]
    exact congrArg Count.finite (Fin.ext hbalance)

end FlatNet

end PetriTree
