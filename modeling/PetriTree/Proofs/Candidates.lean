import PetriTree.Firing.Candidates
import PetriTree.Proofs.Outcome

/-!
# PetriTree — the rule of priorities

The candidates of a marking are computed transition by transition, and an error on the way decides
everything. What is found without an error is exactly what the rule of priorities says. Delays have
no part in it, and neither has anything else of a transition but its id, its kind and its priority.

Main results:
* `FlatNet.Permitted` — the rule of priorities for one transition;
* `FlatNet.mem_candidates_iff` — the candidates are the permitted transitions;
* `FlatNet.candidates_setDelay` — a delay does not change them.
-/

namespace PetriTree.FlatNet

variable {net other : FlatNet} {m : Marking}

/-- Is a transition enabled, and timed unless no enabled immediate one has a higher priority? -/
def Permitted (net : FlatNet) (m : Marking) (transition : String) : Prop :=
  ∃ t ∈ net.transitions.values, t.transition.id = transition ∧ net.isEnabled m transition = .ok true ∧
    (t.transition.kind.isTimed = true ∨
      ∀ u ∈ net.transitions.values, net.isEnabled m u.transition.id = .ok true →
        u.transition.kind.isTimed = false → u.transition.priority ≤ t.transition.priority)

/-! ## What is found is permitted -/

theorem enabledOf_eq_ok {ts enabled : List Transition} (h : net.enabledOf m ts = .ok enabled) (t : Transition) :
    t ∈ enabled ↔ t ∈ ts ∧ net.isEnabled m t.id = .ok true := by
  induction ts generalizing enabled with
  | nil =>
    cases h
    simp
  | cons first rest ih =>
    rw [enabledOf, bind_eq_ok] at h
    obtain ⟨b, hb, h⟩ := h
    cases b with
    | false =>
      rw [ih h, List.mem_cons]
      constructor
      · rintro ⟨ht, henabled⟩
        exact ⟨Or.inr ht, henabled⟩
      · rintro ⟨rfl | ht, henabled⟩
        -- the first one has been asked, and is not enabled
        · rw [hb] at henabled
          cases henabled
        · exact ⟨ht, henabled⟩
    | true =>
      obtain ⟨others, hothers, h⟩ := bind_eq_ok.1 h
      cases h
      rw [List.mem_cons, List.mem_cons, ih hothers]
      constructor
      · rintro (rfl | ⟨ht, henabled⟩)
        · exact ⟨Or.inl rfl, hb⟩
        · exact ⟨Or.inr ht, henabled⟩
      · rintro ⟨rfl | ht, henabled⟩
        · exact Or.inl rfl
        · exact Or.inr ⟨ht, henabled⟩

theorem prevails_iff {t : Transition} {others : List Transition} : prevails t others = true ↔
    t.kind.isTimed = true ∨ ∀ u ∈ others, u.kind.isTimed = false → u.priority ≤ t.priority := by
  rw [prevails, Bool.or_eq_true, List.all_eq_true]
  refine or_congr Iff.rfl (forall₂_congr fun u _ => ?_)
  rw [Bool.or_eq_true, decide_eq_true_iff]
  cases u.kind.isTimed <;> simp

/-- The candidates of a marking are the transitions that the rule of priorities permits. -/
theorem mem_candidates_iff {found : SortedSet String} (h : net.candidates m = .ok found) (transition : String) :
    transition ∈ found ↔ net.Permitted m transition := by
  rw [candidates, bind_eq_ok] at h
  obtain ⟨enabled, henabled, h⟩ := h
  cases h
  have hmem : ∀ t : Transition, t ∈ enabled ↔
      (∃ d ∈ net.transitions.values, d.transition = t) ∧ net.isEnabled m t.id = .ok true := by
    intro t
    rw [enabledOf_eq_ok henabled t, List.mem_map]
  rw [SortedSet.mem_ofList, List.mem_map]
  constructor
  -- transitions of the flat net on one side, their plain parts on the other
  · rintro ⟨t, ht, rfl⟩
    obtain ⟨henabledt, hprevails⟩ := List.mem_filter.1 ht
    obtain ⟨⟨d, hd, rfl⟩, hon⟩ := (hmem t).1 henabledt
    refine ⟨d, hd, rfl, hon, (prevails_iff.1 hprevails).imp_right fun htop u hu huon => ?_⟩
    exact htop u.transition ((hmem _).2 ⟨⟨u, hu, rfl⟩, huon⟩)
  · rintro ⟨d, hd, rfl, hon, hprevails⟩
    refine ⟨d.transition, List.mem_filter.2 ⟨(hmem _).2 ⟨⟨d, hd, rfl⟩, hon⟩, prevails_iff.2 ?_⟩, rfl⟩
    refine hprevails.imp_right fun htop u hu => ?_
    obtain ⟨⟨e, he, rfl⟩, heon⟩ := (hmem u).1 hu
    exact htop e he heon

/-! ## What the candidates depend on -/

/-- Do two nets agree on all that the test of a given transition reads? -/
structure Alike (net other : FlatNet) : Prop where
  places : other.places = net.places
  definitions : other.definitions = net.definitions
  arcs : other.arcs = net.arcs

namespace Alike

theorem tokensIn (h : net.Alike other) : other.tokensIn m = net.tokensIn m := by
  funext place color
  simp only [FlatNet.tokensIn, h.places]

theorem capacityOf (h : net.Alike other) : other.capacityOf = net.capacityOf := by
  funext place
  rw [FlatNet.capacityOf, FlatNet.capacityOf, h.places]

theorem capacity (h : net.Alike other) (place : String) : other.capacity place = net.capacity place := by
  rw [FlatNet.capacity, FlatNet.capacity, h.places]

theorem parameterValue (h : net.Alike other) (definitions : List (String × Expr)) :
    other.parameterValue m definitions = net.parameterValue m definitions := by
  induction definitions with
  | nil => rfl
  | cons d rest ih =>
    funext id
    rw [FlatNet.parameterValue, FlatNet.parameterValue, ih, h.tokensIn, h.capacityOf]

theorem reading (h : net.Alike other) : other.reading m = net.reading m := by
  rw [FlatNet.reading, FlatNet.reading, h.tokensIn, h.capacityOf, h.definitions, h.parameterValue]

theorem weigh (h : net.Alike other) (arc : String) (e : Expr) : other.weigh m arc e = net.weigh m arc e := by
  rw [FlatNet.weigh, FlatNet.weigh, h.reading]

theorem holdsWeights (h : net.Alike other) (arc : Arc) (weights : List (String × Expr)) :
    other.holdsWeights m arc weights = net.holdsWeights m arc weights := by
  induction weights with
  | nil => rfl
  | cons w rest ih => simp only [FlatNet.holdsWeights, h.weigh, ih]

theorem isSatisfied (h : net.Alike other) (a : FlatArc) : other.isSatisfied m a = net.isSatisfied m a := by
  simp only [FlatNet.isSatisfied, h.holdsWeights]

theorem areSatisfied (h : net.Alike other) (arcs : List FlatArc) :
    other.areSatisfied m arcs = net.areSatisfied m arcs := by
  induction arcs with
  | nil => rfl
  | cons a rest ih => simp only [FlatNet.areSatisfied, h.isSatisfied, ih]

theorem addWeights (h : net.Alike other) (arc : String) (sum : Count) (weights : List (String × Expr)) :
    other.addWeights m arc sum weights = net.addWeights m arc sum weights := by
  induction weights generalizing sum with
  | nil => rfl
  | cons w rest ih => simp only [FlatNet.addWeights, h.weigh, ih]

theorem addArrivals (h : net.Alike other) (sources : List String) (arrivals : SortedMap String Count)
    (arcs : List FlatArc) :
    other.addArrivals m sources arrivals arcs = net.addArrivals m sources arrivals arcs := by
  induction arcs generalizing arrivals with
  | nil => rfl
  | cons a rest ih => simp only [FlatNet.addArrivals, h.capacity, h.addWeights, ih]

theorem hasRoom (h : net.Alike other) (place : String) (arriving : Count) :
    other.hasRoom m place arriving = net.hasRoom m place arriving := by
  simp only [FlatNet.hasRoom, h.capacity]

theorem isEnabled (h : net.Alike other) {transition : String}
    (hknown : other.transitions.contains transition = net.transitions.contains transition) :
    other.isEnabled m transition = net.isEnabled m transition := by
  simp only [FlatNet.isEnabled, FlatNet.inbound, FlatNet.outbound, hknown, h.arcs, h.areSatisfied,
    h.addArrivals, h.hasRoom]

end Alike

/-- Do two transitions have the same part in the rule of priorities? -/
def SameRank (t u : Transition) : Prop := u.id = t.id ∧ u.kind = t.kind ∧ u.priority = t.priority

theorem enabledOf_congr {ts us : List Transition} (h : List.Forall₂ SameRank ts us)
    (htest : ∀ transition, other.isEnabled m transition = net.isEnabled m transition) :
    (∃ e, net.enabledOf m ts = .error e ∧ other.enabledOf m us = .error e) ∨
      ∃ found others, net.enabledOf m ts = .ok found ∧ other.enabledOf m us = .ok others ∧
        List.Forall₂ SameRank found others := by
  induction h with
  | nil => exact Or.inr ⟨[], [], rfl, rfl, .nil⟩
  | @cons t u ts us hrank _ ih =>
    rw [enabledOf, enabledOf, hrank.1, htest]
    cases net.isEnabled m t.id with
    -- the first test that fails decides for both
    | error e => exact Or.inl ⟨e, rfl, rfl⟩
    | ok b =>
      cases b with
      | false => exact ih
      | true =>
        show (∃ e, (net.enabledOf m ts >>= fun found => pure (t :: found)) = .error e ∧
            (other.enabledOf m us >>= fun found => pure (u :: found)) = .error e) ∨
          ∃ found others, (net.enabledOf m ts >>= fun found => pure (t :: found)) = .ok found ∧
            (other.enabledOf m us >>= fun found => pure (u :: found)) = .ok others ∧
            List.Forall₂ SameRank found others
        rcases ih with ⟨e, hnet, hother⟩ | ⟨found, others, hnet, hother, hranks⟩
        · rw [hnet, hother]
          exact Or.inl ⟨e, rfl, rfl⟩
        · rw [hnet, hother]
          exact Or.inr ⟨t :: found, u :: others, rfl, rfl, .cons hrank hranks⟩

theorem prevails_congr {t u : Transition} {ts us : List Transition} (h : SameRank t u)
    (hall : List.Forall₂ SameRank ts us) : prevails u us = prevails t ts := by
  rw [prevails, prevails, h.2.1, h.2.2]
  congr 1
  exact all_eq_of_forall₂ hall fun a b hab => by rw [hab.2.1, hab.2.2]

theorem prevailing_congr {ts us all others : List Transition} (h : List.Forall₂ SameRank ts us)
    (hall : List.Forall₂ SameRank all others) :
    (us.filter fun u => prevails u others).map (fun u => u.id) =
      (ts.filter fun t => prevails t all).map fun t => t.id := by
  induction h with
  | nil => rfl
  | @cons t u ts us hrank _ ih =>
    rw [List.filter_cons, List.filter_cons, prevails_congr hrank hall]
    split
    · rw [List.map_cons, List.map_cons, hrank.1, ih]
    · exact ih

/-- Nets that are alike, with transitions of the same rank, have the same candidates or fail alike. -/
theorem candidates_congr (h : net.Alike other)
    (hknown : ∀ id, other.transitions.contains id = net.transitions.contains id)
    (hranks : List.Forall₂ (fun t u => SameRank t.transition u.transition) net.transitions.values
      other.transitions.values) : other.candidates m = net.candidates m := by
  have hlists : List.Forall₂ SameRank (net.transitions.values.map FlatTransition.transition)
      (other.transitions.values.map FlatTransition.transition) := by
    rw [List.forall₂_map_left_iff, List.forall₂_map_right_iff]
    exact hranks
  have htest : ∀ transition, other.isEnabled m transition = net.isEnabled m transition :=
    fun transition => h.isEnabled (hknown transition)
  rw [candidates, candidates, enabled, enabled]
  rcases enabledOf_congr hlists htest with ⟨e, hnet, hother⟩ | ⟨found, others, hnet, hother, hsame⟩
  · rw [hnet, hother]
  · rw [hnet, hother]
    show Except.ok (SortedSet.ofList _) = Except.ok (SortedSet.ofList _)
    rw [prevailing_congr hsame hsame]

/-- A delay has no part in the rule of priorities. -/
theorem candidates_setDelay {transition : String} {delay : UInt64}
    (h : net.setDelay transition delay = .ok other) : other.candidates m = net.candidates m := by
  rw [setDelay, bind_eq_ok] at h
  obtain ⟨_, _, h⟩ := h
  cases h
  refine candidates_congr ⟨rfl, rfl, rfl⟩ (fun id => ?_) ?_
  · show (Option.isSome _) = Option.isSome _
    rw [Table.get?_modify]
    split <;> simp
  · -- entry by entry, only the delay may be another one
    show List.Forall₂ _ (net.transitions.entries.map Prod.snd) (List.map Prod.snd (List.map _ _))
    rw [List.map_map, List.forall₂_map_left_iff, List.forall₂_map_right_iff, List.forall₂_same]
    intro e _
    dsimp only [Function.comp]
    split <;> exact ⟨rfl, rfl, rfl⟩

end PetriTree.FlatNet
