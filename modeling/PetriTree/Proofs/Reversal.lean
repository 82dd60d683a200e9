import PetriTree.Proofs.Agreement
import PetriTree.Proofs.MarkingEquation

/-!
# PetriTree — firing backwards

Firing backwards is meant to take a firing back: it takes what the arcs out of a transition gave, and gives what
the arcs into it took. It knows only the marking that the firing led to, so three things can get lost on the way.
The weights are evaluated anew, in the other marking. A sum that was clamped no longer tells what was added to it.
And whatever infinity has absorbed is gone.

The first cannot happen to weights that are not functional. The other two are told apart from what can be taken
back by following the tokens that are given, one transfer after the other: each has to stay below the limit, and
only an infinite count may get infinitely many. Both directions walk through the arcs in the order of the net, so
the firing backwards takes the first transfer first, which was also given first; that the counts in between are
others than before is of no consequence, since what can be taken does not depend on the order.

The condition is exact: where tokens get lost, firing backwards leads somewhere else or is refused.

Main results:
* `Count.bears_iff` — when tokens that were added to a count can be taken from it again;
* `Marking.bears_iff` — the same for a list of transfers, in terms of all that each place is given;
* `Marking.reverses_iff` — what was taken and given can be taken and given back just when nothing got lost;
* `FlatNet.fire_reverses` — both directions of firing in terms of each other.
-/

namespace PetriTree

/-! ## Nothing gets lost -/

/-- Can so many tokens be added to a count that the sum still tells what it was? -/
def Count.Bears : Count → Count → Prop
  | .infinite, _ => True
  | .finite _, .infinite => False
  | .finite n, .finite w => n.val + w.val ≤ Count.limit

instance (n w : Count) : Decidable (n.Bears w) := by
  cases n <;> cases w <;> unfold Count.Bears <;> infer_instance

/-- What was added to a count can be taken from the sum, and leads back to the count, just when the sum bears it. -/
theorem Count.bears_iff {n w : Count} : n.Bears w ↔ (n.add w).sub? w = some n := by
  cases n with
  | infinite => exact iff_of_true trivial rfl
  | finite n =>
    cases w with
    | infinite => exact iff_of_false id (by simp [add, sub?])
    | finite w =>
      have hw := w.isLt
      show n.val + w.val ≤ limit ↔
        (if w.val ≤ min (n.val + w.val) limit then some (ofNat (min (n.val + w.val) limit - w.val)) else none) =
          some (.finite n)
      have hle : w.val ≤ min (n.val + w.val) limit := by
        unfold limit
        omega
      rw [if_pos hle, Option.some.injEq, ofNat, finite.injEq, Fin.ext_iff]
      show n.val + w.val ≤ limit ↔ min (min (n.val + w.val) limit - w.val) limit = n.val
      omega

/-- Does a finite count bear all that is added: nothing infinite, and together no more than the limit? -/
def Count.BearsAll (n : Count) (counts : List Count) : Prop :=
  ∀ k, n = .finite k → .infinite ∉ counts ∧ k.val + Count.amount counts ≤ Count.limit

theorem Count.bearsAll_cons {n w : Count} {rest : List Count} :
    n.BearsAll (w :: rest) ↔ n.Bears w ∧ (n.add w).BearsAll rest := by
  cases n with
  | infinite => simp [BearsAll, Bears, add]
  | finite n =>
    cases w with
    | infinite => simp [BearsAll, Bears]
    | finite w =>
      have hsum : (finite n).add (finite w) = ofNat (n.val + w.val) := rfl
      simp only [BearsAll, Bears, hsum, ofNat, finite.injEq, forall_eq', amount, List.mem_cons, reduceCtorEq,
        false_or]
      show _ ∧ n.val + (w.val + amount rest) ≤ limit ↔
        n.val + w.val ≤ limit ∧ _ ∧ min (n.val + w.val) limit + amount rest ≤ limit
      constructor
      · rintro ⟨hfinite, hsum⟩
        exact ⟨by omega, hfinite, by omega⟩
      · rintro ⟨hfirst, hfinite, hsum⟩
        exact ⟨hfinite, by omega⟩

namespace Marking

variable {m left : Marking} {ts us : List Transfer}

/-- Can transfers be put into a marking, one after the other, without anything getting lost? -/
def Bears (m : Marking) : List Transfer → Prop
  | [] => True
  | t :: rest => (m.tokens t.place t.color).Bears t.count ∧
      (m.put t.place t.color ((m.tokens t.place t.color).add t.count)).Bears rest

instance decidableBears : (ts : List Transfer) → (m : Marking) → Decidable (m.Bears ts)
  | [], _ => isTrue trivial
  | t :: rest, m =>
    have := decidableBears rest (m.put t.place t.color ((m.tokens t.place t.color).add t.count))
    inferInstanceAs (Decidable (_ ∧ _))

/-- Every step bears what it adds when every place bears all that is added there: sums only grow. -/
theorem bears_iff : m.Bears ts ↔ ∀ place color, (m.tokens place color).BearsAll (countsAt place color ts) := by
  induction ts generalizing m with
  | nil =>
    refine iff_of_true trivial ?_
    intro place color n _
    have hlt := n.isLt
    refine ⟨List.not_mem_nil, ?_⟩
    show n.val + 0 ≤ Count.limit
    unfold Count.limit
    omega
  | cons t rest ih =>
    rw [Bears, ih]
    constructor
    · rintro ⟨hfirst, hrest⟩ place color
      have hrest := hrest place color
      rw [tokens_put] at hrest
      rw [countsAt_cons]
      by_cases hhere : place = t.place ∧ color = t.color
      · obtain ⟨rfl, rfl⟩ := hhere
        rw [if_pos ⟨rfl, rfl⟩] at hrest ⊢
        exact Count.bearsAll_cons.2 ⟨hfirst, hrest⟩
      · rw [if_neg hhere] at hrest
        rwa [if_neg fun h => hhere ⟨h.1.symm, h.2.symm⟩]
    · intro h
      have hfirst := h t.place t.color
      rw [countsAt_cons, if_pos ⟨rfl, rfl⟩, Count.bearsAll_cons] at hfirst
      refine ⟨hfirst.1, fun place color => ?_⟩
      rw [tokens_put]
      by_cases hhere : place = t.place ∧ color = t.color
      · obtain ⟨rfl, rfl⟩ := hhere
        rw [if_pos ⟨rfl, rfl⟩]
        exact hfirst.2
      · have hrest := h place color
        rw [countsAt_cons, if_neg fun h => hhere ⟨h.1.symm, h.2.symm⟩] at hrest
        rwa [if_neg hhere]

/-! ## Taking and giving back -/

/-- Giving back what was taken restores every count, since nothing more is given than was there. -/
theorem agrees_deposit_of_withdraw (h : m.withdraw ts = some left) : (left.deposit ts).Agrees m := by
  intro place color
  obtain ⟨hinfinite, hfinite⟩ := tokens_withdraw h place color
  rw [tokens_deposit, Count.foldl_add]
  cases htokens : m.tokens place color with
  | infinite => rw [hinfinite htokens, if_pos (Or.inl rfl)]
  | finite n =>
    obtain ⟨k, hk, hsum⟩ := hfinite n htokens
    rw [demandOf_eq] at hsum
    have hlt := n.isLt
    have hnone : .infinite ∉ countsAt place color ts := by
      intro hmem
      have hgreat : 0xffffffffffffffff ≤ _ := Count.rank_infinite_le_amount hmem
      omega
    rw [hk, if_neg (not_or.2 ⟨by simp, hnone⟩)]
    refine congrArg Count.finite (Fin.ext ?_)
    show min (k.val + Count.amount (countsAt place color ts)) Count.limit = n.val
    unfold Count.limit
    omega

/-- What was given without loss can be taken again, and leads back to every count. -/
theorem withdraw_deposit_of_bears (h : left.Bears us) :
    ∃ back, (left.deposit us).withdraw us = some back ∧ back.Agrees left := by
  have hbears := bears_iff.1 h
  have hcount : ∀ place color k, left.tokens place color = .finite k → (left.deposit us).tokens place color =
      Count.ofNat (k.val + Count.amount (countsAt place color us)) := by
    intro place color k hk
    rw [tokens_deposit, Count.foldl_add, hk, if_neg (not_or.2 ⟨by simp, (hbears place color k hk).1⟩)]
    rfl
  have hinfinite : ∀ place color, left.tokens place color = .infinite →
      (left.deposit us).tokens place color = .infinite := by
    intro place color hleft
    rw [tokens_deposit, Count.foldl_add, hleft, if_pos (Or.inl rfl)]
  have haffords : (left.deposit us).Affords us := by
    intro place color
    cases hleft : left.tokens place color with
    | infinite => exact Or.inl (hinfinite place color hleft)
    | finite k =>
      obtain ⟨hnone, hle⟩ := hbears place color k hleft
      refine Or.inr ⟨hnone, ?_⟩
      rw [hcount place color k hleft]
      show _ ≤ min (k.val + Count.amount (countsAt place color us)) Count.limit
      omega
  obtain ⟨back, hback⟩ : ∃ back, (left.deposit us).withdraw us = some back := by
    rw [affords_iff, ← withdraw_eq_none_iff] at haffords
    exact Option.ne_none_iff_exists'.1 haffords
  refine ⟨back, hback, fun place color => ?_⟩
  obtain ⟨htaken, hrest⟩ := tokens_withdraw hback place color
  cases hleft : left.tokens place color with
  | infinite => exact htaken (hinfinite place color hleft)
  | finite k =>
    obtain ⟨j, hj, hsum⟩ := hrest _ (hcount place color k hleft)
    rw [hj, demandOf_eq] at *
    have hle := (hbears place color k hleft).2
    refine congrArg Count.finite (Fin.ext ?_)
    have hsum : j.val + Count.amount (countsAt place color us) =
        min (k.val + Count.amount (countsAt place color us)) Count.limit := hsum
    omega

/-- When taking and giving back leads to the marking that taking and giving started from, nothing got lost. -/
theorem bears_of_reversed {back : Marking} (hleft : m.withdraw ts = some left)
    (hback : (left.deposit us).withdraw us = some back) (hend : (back.deposit ts).Agrees m) : left.Bears us := by
  rw [bears_iff]
  intro place color k hk
  obtain ⟨hinfinite, hfinite⟩ := tokens_withdraw hleft place color
  obtain ⟨hinfinite', hfinite'⟩ := tokens_withdraw hback place color
  have hend := hend place color
  rw [tokens_deposit, Count.foldl_add] at hend hinfinite' hfinite'
  rw [demandOf_eq] at hfinite hfinite'
  -- the count was finite at the start, or it would be infinite ever after
  obtain ⟨n, hn⟩ : ∃ n, m.tokens place color = .finite n := by
    cases hstart : m.tokens place color with
    | infinite =>
      rw [hinfinite hstart] at hk
      cases hk
    | finite n => exact ⟨n, rfl⟩
  obtain ⟨k', hk', htaken⟩ := hfinite n hn
  rw [hk, Count.finite.injEq] at hk'
  subst hk'
  rw [hn] at hend
  -- so infinitely many were not given either
  have hnone : .infinite ∉ countsAt place color us := by
    intro hmem
    rw [hinfinite' (if_pos (Or.inr hmem)), if_pos (Or.inl rfl)] at hend
    cases hend
  refine ⟨hnone, ?_⟩
  rw [hk, if_neg (not_or.2 ⟨by simp, hnone⟩)] at hfinite'
  obtain ⟨j, hj, hsum⟩ := hfinite' _ rfl
  rw [hj] at hend
  have hgiven : .infinite ∉ countsAt place color ts := by
    intro hmem
    rw [if_pos (Or.inr hmem)] at hend
    cases hend
  rw [if_neg (not_or.2 ⟨by simp, hgiven⟩), Count.ofNat, Count.finite.injEq, Fin.ext_iff] at hend
  have hend : min (j.val + Count.amount (countsAt place color ts)) Count.limit = n.val := hend
  have hsum : j.val + Count.amount (countsAt place color us) =
      min (k.val + Count.amount (countsAt place color us)) Count.limit := hsum
  -- had the sum been clamped, less would be left now than was left then
  omega

/-- What was taken and given can be taken and given back just when nothing got lost, provided that the places of
all transfers were there. -/
theorem reverses_iff (hleft : m.withdraw ts = some left) (hplaces : ∀ t ∈ ts ++ us, m.contains t.place = true) :
    ((left.deposit us).withdraw us).map (fun back => back.deposit ts) = some m ↔ left.Bears us := by
  constructor
  · intro h
    obtain ⟨back, hback, hend⟩ := Option.map_eq_some_iff.1 h
    exact bears_of_reversed hleft hback (hend ▸ Agrees.refl m)
  · intro hbears
    obtain ⟨back, hback, hagrees⟩ := withdraw_deposit_of_bears hbears
    have hcounts : (back.deposit ts).Agrees m := (hagrees.deposit ts).trans (agrees_deposit_of_withdraw hleft)
    rw [hback, Option.map_some, hcounts.eq]
    -- no place has come into being on the way
    intro place
    have hsub : ∀ moved : List Transfer, (∀ t ∈ moved, m.contains t.place = true) →
        place ∈ moved.map Transfer.place → m.contains place = true := by
      intro moved hmoved hplace
      obtain ⟨t, ht, rfl⟩ := List.mem_map.1 hplace
      exact hmoved t ht
    have htaking := hsub ts fun t ht => hplaces t (List.mem_append_left _ ht)
    have hgiving := hsub us fun t ht => hplaces t (List.mem_append_right _ ht)
    rw [Bool.eq_iff_iff, contains_deposit_iff, contains_withdraw_iff hback, contains_deposit_iff,
      contains_withdraw_iff hleft]
    tauto

end Marking

namespace FlatNet

variable {net : FlatNet} {m other : Marking} {transition : String}

/-! ## Firing -/

/-- Is no weight functional of the arcs by which a transition takes and gives tokens? -/
def Constant (net : FlatNet) (transition : String) : Prop :=
  ∀ a ∈ net.taking transition ++ net.outbound transition, ∀ w ∈ a.weights, w.2.isFunctional = false

instance (net : FlatNet) (transition : String) : Decidable (net.Constant transition) := by
  unfold Constant
  infer_instance

/-- Can some arcs give what they come to, after others have taken what they come to, without anything getting
lost: nothing infinite at a finite count, and no sum above the limit? -/
def GivesFully (net : FlatNet) (m : Marking) (taking giving : List FlatArc) : Prop :=
  ∀ left, m.withdraw (net.moved m taking) = some left → left.Bears (net.moved m giving)

instance (net : FlatNet) (m : Marking) (taking giving : List FlatArc) : Decidable (net.GivesFully m taking giving) :=
  inferInstanceAs (Decidable (∀ left ∈ m.withdraw (net.moved m taking), left.Bears (net.moved m giving)))

/-- Taking and then giving, when all weights have values; the two directions of firing are this with the arcs
exchanged. -/
theorem take_give_eq_ok_iff {short : Arc → FiringError} {taking giving : List FlatArc} {ts us : List Transfer}
    (hts : net.transfers m taking = .ok ts) (hus : net.transfers m giving = .ok us) :
    (net.takeAll m short m taking >>= fun left => net.giveAll m left giving) = .ok other ↔
      (m.withdraw ts).map (fun left => left.deposit us) = some other := by
  rw [← toOption_eq_some, toOption_bind, takeAll_toOption, hts]
  show ((m.withdraw ts).bind fun left => (net.giveAll m left giving).toOption) = some other ↔ _
  simp only [giveAll_eq, hus]
  cases m.withdraw ts <;> exact Iff.rfl

/-- Weights that are not functional come to the same in all markings. -/
theorem transfers_of_constant {arcs : List FlatArc} (h : ∀ a ∈ arcs, ∀ w ∈ a.weights, w.2.isFunctional = false) :
    net.transfers m arcs = net.transfers other arcs :=
  transfers_congr fun a ha w hw => steady_of_constant (h a ha w hw)

/-- Taking and giving, and then taking and giving back, in terms of arcs. -/
theorem reverses_iff_givesFully {taking giving : List FlatArc} {ts us : List Transfer} {left : Marking}
    (hplaces : ∀ a ∈ taking ++ giving, m.contains a.arc.place = true) (hts : net.transfers m taking = .ok ts)
    (hleft : m.withdraw ts = some left) (hus : net.transfers m giving = .ok us) :
    ((left.deposit us).withdraw us).map (fun back => back.deposit ts) = some m ↔ net.GivesFully m taking giving := by
  have hmoved : ∀ t ∈ ts ++ us, m.contains t.place = true := by
    intro t ht
    have hplace : ∃ a ∈ taking ++ giving, a.arc.place = t.place := by
      rcases List.mem_append.1 ht with ht | ht
      · obtain ⟨a, ha, hplace⟩ := List.mem_map.1 (place_of_transfers hts t ht)
        exact ⟨a, List.mem_append_left _ ha, hplace⟩
      · obtain ⟨a, ha, hplace⟩ := List.mem_map.1 (place_of_transfers hus t ht)
        exact ⟨a, List.mem_append_right _ ha, hplace⟩
    obtain ⟨a, ha, hplace⟩ := hplace
    exact hplace ▸ hplaces a ha
  rw [Marking.reverses_iff hleft hmoved, GivesFully, moved_of_transfers hts, moved_of_transfers hus, hleft]
  simp only [Option.some.injEq, forall_eq']

/-- The two directions of firing are inverse to each other. Let no weight be functional of the arcs by which a
transition takes and gives tokens, and let the places of these arcs be there. When it fires, firing it backwards
leads back to the very marking just when nothing gets lost while tokens are given: nothing infinite is given to a
finite count, and no sum exceeds the limit. And when it fires backwards, firing it leads back just when the same
holds of the tokens that are given back. -/
theorem fire_reverses (hconstant : net.Constant transition)
    (hplaces : ∀ a ∈ net.taking transition ++ net.outbound transition, m.contains a.arc.place = true) :
    (∀ after, net.fire m transition = .ok after → (net.fireBackwards after transition = .ok m ↔
      net.GivesFully m (net.taking transition) (net.outbound transition))) ∧
    ∀ before, net.fireBackwards m transition = .ok before → (net.fire before transition = .ok m ↔
      net.GivesFully m (net.outbound transition) (net.taking transition)) := by
  have htaking : ∀ other, net.transfers other (net.taking transition) = net.transfers m (net.taking transition) :=
    fun other => transfers_of_constant fun a ha => hconstant a (List.mem_append_left _ ha)
  have hgiving : ∀ other, net.transfers other (net.outbound transition) = net.transfers m (net.outbound transition) :=
    fun other => transfers_of_constant fun a ha => hconstant a (List.mem_append_right _ ha)
  constructor
  · intro after hfire
    obtain ⟨ts, left, us, hts, hleft, hus, rfl⟩ := fire_eq_ok hfire
    rw [fireBackwards, take_give_eq_ok_iff ((hgiving _).trans hus) ((htaking _).trans hts)]
    exact reverses_iff_givesFully hplaces hts hleft hus
  · intro before hfire
    obtain ⟨us, left, ts, hus, hleft, hts, rfl⟩ := fireBackwards_eq_ok hfire
    rw [fire, take_give_eq_ok_iff ((htaking _).trans hts) ((hgiving _).trans hus)]
    -- the same with the arcs exchanged
    refine reverses_iff_givesFully (fun a ha => hplaces a ?_) hus hleft hts
    exact List.mem_append.2 (List.mem_append.1 ha).symm

/-- Two transitions. The first takes from a place by two arcs and puts back as much by a third one; the second
puts a token into a place that is full. -/
def turning : IncludeTree := Sample.single
  [Sample.place "P" 5, Sample.place "Q" 0, Sample.place "R" Count.limit, Sample.transition "T" Rate.one,
    Sample.transition "U" Rate.one, Sample.arc "a" "P" "T" .placeToTransition "2",
    Sample.arc "b" "P" "T" .placeToTransition "1", Sample.arc "c" "P" "T" .transitionToPlace "3*1",
    Sample.arc "d" "Q" "T" .transitionToPlace "2", Sample.arc "e" "R" "U" .transitionToPlace "1"]

/-- Firing the first transition backwards takes the firing back, firing the second one backwards does not. -/
theorem fire_reverses_turning : ∃ (net : FlatNet) (after full : Marking), FlatNet.ofTree turning = .ok net ∧
    net.Constant "T" ∧ net.fire net.initial "T" = .ok after ∧ net.fireBackwards after "T" = .ok net.initial ∧
    net.Constant "U" ∧ net.fire net.initial "U" = .ok full ∧ net.fireBackwards full "U" ≠ .ok net.initial := by
  have hrun : (FlatNet.ofTree turning).map (fun net =>
      (decide (net.Constant "T" ∧ (∀ a ∈ net.taking "T" ++ net.outbound "T", net.initial.contains a.arc.place = true) ∧
          (net.fire net.initial "T").toOption.isSome ∧
          net.GivesFully net.initial (net.taking "T") (net.outbound "T")),
        decide (net.Constant "U" ∧ (∀ a ∈ net.taking "U" ++ net.outbound "U", net.initial.contains a.arc.place = true) ∧
          (net.fire net.initial "U").toOption.isSome ∧
          ¬ net.GivesFully net.initial (net.taking "U") (net.outbound "U")))) = .ok (true, true) := by
    decide +kernel
  obtain ⟨net, hnet, houtcome⟩ := map_eq_ok.1 hrun
  simp only [Prod.mk.injEq, decide_eq_true_eq] at houtcome
  obtain ⟨⟨hconstant, hplaces, hfires, hfully⟩, hconstant', hplaces', hfires', hlossy⟩ := houtcome
  obtain ⟨after, hafter⟩ := Option.isSome_iff_exists.1 hfires
  obtain ⟨full, hfull⟩ := Option.isSome_iff_exists.1 hfires'
  replace hafter := toOption_eq_some.1 hafter
  replace hfull := toOption_eq_some.1 hfull
  refine ⟨net, after, full, hnet, hconstant, hafter, ?_, hconstant', hfull, ?_⟩
  · exact ((fire_reverses hconstant hplaces).1 after hafter).2 hfully
  · intro hback
    exact hlossy (((fire_reverses hconstant' hplaces').1 full hfull).1 hback)

end FlatNet

end PetriTree
