import PetriTree.Proofs.Locality
import PetriTree.Proofs.MarkingEquation

/-!
# PetriTree — transitions that do not get in each other's way

In a textbook net two transitions without a common place are independent. Here a transition also looks at places
that none of its arcs ends in: a weight may read any place of the net, and may do so through a rate parameter that
is defined by further ones. What a transition must leave alone so as not to disturb another one are therefore all
the places that the other one touches, by an arc of any kind or by what its weights read.

Two firings are compared that go through different markings. The weights come to the same in both, since neither
transition writes what the other one reads. That the markings at the end are the same takes more: each place has
been written by one of the transitions at most, and it holds what this transition alone would have left there.

Main results:
* `FlatNet.Writes`, `FlatNet.Touches` — the places that a transition changes, and all those it has to do with;
* `FlatNet.agreesIn_fire` — firing changes what the transition writes, and nothing else;
* `Marking.moved_comm` — moves in different places can be made in either order;
* `FlatNet.independent_comm` — independent transitions do not notice each other, and can be fired in either order.
-/

namespace PetriTree

/-! ## Moves in different places -/

namespace Marking

variable {m other left rest : Marking} {ts us : List Transfer} {place : String}

/-- What can be taken depends on the places that are taken from. -/
theorem withdraw_of_agreesIn (h : m.withdraw ts = some left)
    (hplaces : ∀ t ∈ ts, other.AgreesIn m t.place) : ∃ rest, other.withdraw ts = some rest := by
  rw [← Option.ne_none_iff_exists', ne_eq, withdraw_eq_none_iff]
  rintro ⟨p, color, n, hn, hshort⟩
  -- a place that is short of tokens is one of those that are taken from
  obtain ⟨t, ht, hends⟩ : ∃ t ∈ ts, (t.place, t.color) = (p, color) := by
    by_contra hnone
    rw [demandOf_eq_zero fun hmem => hnone (List.mem_map.1 hmem)] at hshort
    omega
  obtain ⟨rfl, rfl⟩ := Prod.mk.inj hends
  rw [hplaces t ht] at hn
  have hnone : m.withdraw ts = none := withdraw_eq_none_iff.2 ⟨t.place, t.color, n, hn, hshort⟩
  rw [h] at hnone
  cases hnone

/-- Where nothing is taken and nothing is given, nothing changes. -/
theorem agreesIn_moved (h : m.withdraw ts = some left) (hplace : place ∉ (ts ++ us).map Transfer.place) :
    (left.deposit us).AgreesIn m place := by
  intro color
  rw [List.map_append, List.mem_append, not_or] at hplace
  rw [tokens_deposit_of_notMem hplace.2, tokens_withdraw_of_notMem h hplace.1]

/-- The same moves leave the same in a place that held the same. -/
theorem AgreesIn.moved (hagrees : m.AgreesIn other place) (h : m.withdraw ts = some left)
    (h' : other.withdraw ts = some rest) : (left.deposit us).AgreesIn (rest.deposit us) place := by
  intro color
  rw [tokens_deposit_of_withdraw h, tokens_deposit_of_withdraw h', hagrees color]

/-- Moves that have no place in common can be made in either order. -/
theorem moved_comm {ts' us' : List Transfer} {left' : Marking} (h : m.withdraw ts = some left)
    (h' : m.withdraw ts' = some left')
    (hapart : ∀ p ∈ (ts ++ us).map Transfer.place, p ∉ (ts' ++ us').map Transfer.place) :
    ∃ last last', (left.deposit us).withdraw ts' = some last ∧ (left'.deposit us').withdraw ts = some last' ∧
      last.deposit us' = last'.deposit us := by
  have hapart' : ∀ p ∈ (ts' ++ us').map Transfer.place, p ∉ (ts ++ us).map Transfer.place :=
    fun p hp' hp => hapart p hp hp'
  have htakes : ∀ {ts us : List Transfer}, ∀ t ∈ ts, t.place ∈ (ts ++ us).map Transfer.place :=
    fun t ht => List.mem_map_of_mem (List.mem_append_left _ ht)
  -- each move finds what it takes after the other one as before
  have hkept' : ∀ t ∈ ts', (left.deposit us).AgreesIn m t.place := fun t ht =>
    agreesIn_moved h (hapart' _ (htakes t ht))
  have hkept : ∀ t ∈ ts, (left'.deposit us').AgreesIn m t.place := fun t ht =>
    agreesIn_moved h' (hapart _ (htakes t ht))
  obtain ⟨last, hlast⟩ := withdraw_of_agreesIn h' hkept'
  obtain ⟨last', hlast'⟩ := withdraw_of_agreesIn h hkept
  refine ⟨last, last', hlast, hlast', Marking.ext (fun p => ?_) fun p => ?_⟩
  · rw [Bool.eq_iff_iff, contains_moved_iff hlast, contains_moved_iff hlast', contains_moved_iff h,
      contains_moved_iff h']
    tauto
  · show (last.deposit us').AgreesIn (last'.deposit us) p
    by_cases hp : p ∈ (ts ++ us).map Transfer.place
    · -- the second moves leave the place as the first ones did, and these find there what they found before
      have hfirst : (last.deposit us').AgreesIn (left.deposit us) p := agreesIn_moved hlast (hapart p hp)
      have hsame : (left'.deposit us').AgreesIn m p := agreesIn_moved h' (hapart p hp)
      intro color
      rw [hfirst color, hsame.moved hlast' h color]
    · have hsecond : (last'.deposit us).AgreesIn (left'.deposit us') p := agreesIn_moved hlast' hp
      have hsame : (left.deposit us).AgreesIn m p := agreesIn_moved h hp
      intro color
      rw [hsecond color, hsame.moved hlast h' color]

end Marking

namespace FlatNet

variable {net : FlatNet} {m after : Marking} {t u : String}

/-! ## Independence -/

/-- Does a transition write a place, by an arc that takes tokens or by one that gives some? -/
def Writes (net : FlatNet) (transition place : String) : Prop :=
  ∃ a ∈ net.taking transition ++ net.outbound transition, a.arc.place = place

/-- Has a transition to do with a place, by an arc of any kind or by what its weights read? -/
def Touches (net : FlatNet) (transition place : String) : Prop :=
  ∃ a ∈ net.arcs.values, a.arc.transition = transition ∧
    (a.arc.place = place ∨ ∃ w ∈ a.weights, net.Consults place w.2)

/-- Does neither of two transitions write a place that the other one has to do with? -/
structure Independent (net : FlatNet) (t u : String) : Prop where
  forth : ∀ place, net.Writes t place → ¬ net.Touches u place
  back : ∀ place, net.Writes u place → ¬ net.Touches t place

theorem Independent.symm (h : net.Independent t u) : net.Independent u t := ⟨h.back, h.forth⟩

theorem transition_of_taking : ∀ a ∈ net.taking t, a.arc.transition = t := by
  intro a ha
  obtain ⟨_, hends⟩ := List.mem_filter.1 (List.mem_filter.1 ha).1
  exact eq_of_beq (Bool.and_eq_true_iff.1 hends).2

theorem transition_of_outbound : ∀ a ∈ net.outbound t, a.arc.transition = t := by
  intro a ha
  obtain ⟨_, hends⟩ := List.mem_filter.1 ha
  exact eq_of_beq (Bool.and_eq_true_iff.1 hends).2

theorem Writes.touches {place : String} (h : net.Writes t place) : net.Touches t place := by
  obtain ⟨a, ha, hplace⟩ := h
  rcases List.mem_append.1 ha with ha | ha
  · exact ⟨a, mem_arcs_of_taking a ha, transition_of_taking a ha, Or.inl hplace⟩
  · exact ⟨a, mem_arcs_of_outbound a ha, transition_of_outbound a ha, Or.inl hplace⟩

/-- The places that arcs of a transition end in, that their weights mention, or that any definition mentions. -/
def mentioned (net : FlatNet) (transition : String) : List String :=
  (net.arcs.values.filter fun a => a.arc.transition == transition).flatMap (fun a =>
    a.arc.place :: a.weights.flatMap fun w => w.2.placeMentions) ++ net.definitions.flatMap fun d => d.2.placeMentions

theorem Touches.mem_mentioned {place : String} (h : net.Touches t place) : place ∈ net.mentioned t := by
  obtain ⟨a, ha, hends, hplace⟩ := h
  have hmem : a ∈ net.arcs.values.filter fun a => a.arc.transition == t := List.mem_filter.2 ⟨ha, beq_iff_eq.2 hends⟩
  rw [mentioned, List.mem_append]
  rcases hplace with rfl | ⟨w, hw, hconsults⟩
  · exact Or.inl (List.mem_flatMap.2 ⟨a, hmem, List.mem_cons_self ..⟩)
  · rcases hconsults.mentioned with hmention | ⟨d, hd, hmention⟩
    · exact Or.inl (List.mem_flatMap.2 ⟨a, hmem, List.mem_cons_of_mem _ (List.mem_flatMap.2 ⟨w, hw, hmention⟩)⟩)
    · exact Or.inr (List.mem_flatMap.2 ⟨d, hd, hmention⟩)

/-- A test for independence that looks at mentions only. It may refuse transitions that are independent, when a
definition that neither of them gets to mentions a place. -/
theorem independent_of_mentioned
    (hforth : ∀ a ∈ net.taking t ++ net.outbound t, a.arc.place ∉ net.mentioned u)
    (hback : ∀ a ∈ net.taking u ++ net.outbound u, a.arc.place ∉ net.mentioned t) : net.Independent t u where
  forth place hwrites htouches := by
    obtain ⟨a, ha, rfl⟩ := hwrites
    exact hforth a ha htouches.mem_mentioned
  back place hwrites htouches := by
    obtain ⟨a, ha, rfl⟩ := hwrites
    exact hback a ha htouches.mem_mentioned

/-! ## What a firing changes -/

/-- What a transition moves, it moves at places that it writes. -/
theorem writes_of_transfers {ts us : List Transfer} (hts : net.transfers m (net.taking t) = .ok ts)
    (hus : net.transfers m (net.outbound t) = .ok us) :
    ∀ place ∈ (ts ++ us).map Transfer.place, net.Writes t place := by
  intro place hplace
  obtain ⟨moved, hmoved, rfl⟩ := List.mem_map.1 hplace
  rcases List.mem_append.1 hmoved with hmoved | hmoved
  · obtain ⟨a, ha, hends⟩ := List.mem_map.1 (place_of_transfers hts moved hmoved)
    exact ⟨a, List.mem_append_left _ ha, hends⟩
  · obtain ⟨a, ha, hends⟩ := List.mem_map.1 (place_of_transfers hus moved hmoved)
    exact ⟨a, List.mem_append_right _ ha, hends⟩

/-- Firing changes what the transition writes, and nothing else. -/
theorem agreesIn_fire (h : net.fire m t = .ok after) {place : String} (hplace : ¬ net.Writes t place) :
    after.AgreesIn m place := by
  obtain ⟨ts, left, us, hts, hleft, hus, rfl⟩ := fire_eq_ok h
  exact Marking.agreesIn_moved hleft fun hmem => hplace (writes_of_transfers hts hus place hmem)

/-- An independent firing leaves the arcs of the other transition looking as before. -/
theorem Independent.steadyArc (h : net.Independent t u) (hfire : net.fire m t = .ok after) :
    ∀ a ∈ net.arcs.values, a.arc.transition = u → net.SteadyArc after m a := by
  intro a ha hends
  refine ⟨agreesIn_fire hfire ?_, fun w hw => steady_of_consults fun place hplace => agreesIn_fire hfire ?_⟩
  · exact fun hwrites => h.forth _ hwrites ⟨a, ha, hends, Or.inl rfl⟩
  · exact fun hwrites => h.forth place hwrites ⟨a, ha, hends, Or.inr ⟨w, hw, hplace⟩⟩

/-- So the other transition is enabled as before, if the test has an answer at all. -/
theorem Independent.isEnabled_eq (h : net.Independent t u) (hfire : net.fire m t = .ok after) :
    net.isEnabled after u = net.isEnabled m u :=
  isEnabled_congr (h.steadyArc hfire)

/-- And its arcs come to the same transfers. -/
theorem Independent.transfers_eq (h : net.Independent t u) (hfire : net.fire m t = .ok after) :
    net.transfers after (net.taking u) = net.transfers m (net.taking u) ∧
      net.transfers after (net.outbound u) = net.transfers m (net.outbound u) := by
  have hsteady := h.steadyArc hfire
  constructor
  · refine transfers_congr fun a ha => ?_
    exact (hsteady a (mem_arcs_of_taking a ha) (transition_of_taking a ha)).weights
  · refine transfers_congr fun a ha => ?_
    exact (hsteady a (mem_arcs_of_outbound a ha) (transition_of_outbound a ha)).weights

theorem fire_eq_of_transfers {ts us : List Transfer} {left : Marking}
    (hts : net.transfers m (net.taking t) = .ok ts) (hleft : m.withdraw ts = some left)
    (hus : net.transfers m (net.outbound t) = .ok us) : net.fire m t = .ok (left.deposit us) := by
  rw [fire_eq hts, hleft, Option.elim_some, hus]
  rfl

/-- Independent transitions do not notice each other. Let neither of two transitions write a place that is an end
of an arc of the other one, or that a weight of such an arc reads, directly or through any chain of rate
parameters. Then firing one of them changes nothing about whether the other one is enabled. If both can be fired,
they can be fired one after the other, and either order ends in the same marking. -/
theorem independent_comm (h : net.Independent t u) :
    (∀ after, net.fire m t = .ok after → net.isEnabled after u = net.isEnabled m u) ∧
    (∀ after, net.fire m u = .ok after → net.isEnabled after t = net.isEnabled m t) ∧
    ∀ after after', net.fire m t = .ok after → net.fire m u = .ok after' →
      ∃ last, net.fire after u = .ok last ∧ net.fire after' t = .ok last := by
  refine ⟨fun _ => h.isEnabled_eq, fun _ => h.symm.isEnabled_eq, fun after after' hfire hfire' => ?_⟩
  obtain ⟨htaking', hgiving'⟩ := h.transfers_eq hfire
  obtain ⟨htaking, hgiving⟩ := h.symm.transfers_eq hfire'
  obtain ⟨ts, left, us, hts, hleft, hus, rfl⟩ := fire_eq_ok hfire
  obtain ⟨ts', left', us', hts', hleft', hus', rfl⟩ := fire_eq_ok hfire'
  have hapart : ∀ p ∈ (ts ++ us).map Transfer.place, p ∉ (ts' ++ us').map Transfer.place := by
    intro p hp hp'
    have hwrites := writes_of_transfers hts hus p hp
    exact h.forth p hwrites (writes_of_transfers hts' hus' p hp').touches
  obtain ⟨last, last', hlast, hlast', heq⟩ := Marking.moved_comm hleft hleft' hapart
  refine ⟨last.deposit us', ?_, ?_⟩
  · exact fire_eq_of_transfers (htaking'.trans hts') hlast (hgiving'.trans hus')
  · rw [heq]
    exact fire_eq_of_transfers (htaking.trans hts) hlast' (hgiving.trans hus)

/-- Two transitions whose arcs end in different places. Weights of both read one more place, directly and through
two rate parameters. -/
def parted : IncludeTree := Sample.single
  [Sample.place "P" 5, Sample.place "Q" 0, Sample.place "R" 4, Sample.place "S" 0, Sample.place "X" 1,
    .rateParameter ⟨"r", "2*s"⟩, .rateParameter ⟨"s", "#(X)"⟩,
    Sample.transition "T" Rate.one, Sample.transition "U" Rate.one,
    Sample.arc "a" "P" "T" .placeToTransition "r", Sample.arc "b" "Q" "T" .transitionToPlace "1",
    Sample.arc "c" "R" "U" .placeToTransition "#(X)+2", Sample.arc "d" "S" "U" .transitionToPlace "r"]

/-- Whichever of them fires first, the other one is enabled as before, and the ends are the same. -/
theorem independent_comm_parted : ∃ (net : FlatNet) (after after' last : Marking), FlatNet.ofTree parted = .ok net ∧
    net.Independent "T" "U" ∧ net.fire net.initial "T" = .ok after ∧ net.fire net.initial "U" = .ok after' ∧
    net.isEnabled after "U" = .ok true ∧ net.fire after "U" = .ok last ∧ net.fire after' "T" = .ok last := by
  have hrun : (FlatNet.ofTree parted).map (fun net =>
      decide ((∀ a ∈ net.taking "T" ++ net.outbound "T", a.arc.place ∉ net.mentioned "U") ∧
        (∀ a ∈ net.taking "U" ++ net.outbound "U", a.arc.place ∉ net.mentioned "T") ∧
        (net.fire net.initial "T").toOption.isSome ∧ (net.fire net.initial "U").toOption.isSome ∧
        (net.isEnabled net.initial "U").toOption = some true)) = .ok true := by
    decide +kernel
  obtain ⟨net, hnet, houtcome⟩ := map_eq_ok.1 hrun
  obtain ⟨hforth, hback, hfires, hfires', henabled⟩ := of_decide_eq_true houtcome
  have hindependent := independent_of_mentioned hforth hback
  obtain ⟨after, hafter⟩ := Option.isSome_iff_exists.1 hfires
  obtain ⟨after', hafter'⟩ := Option.isSome_iff_exists.1 hfires'
  replace hafter := toOption_eq_some.1 hafter
  replace hafter' := toOption_eq_some.1 hafter'
  obtain ⟨hunnoticed, _, hcomm⟩ := independent_comm (m := net.initial) hindependent
  obtain ⟨last, hlast, hlast'⟩ := hcomm after after' hafter hafter'
  refine ⟨net, after, after', last, hnet, hindependent, hafter, hafter', ?_, hlast, hlast'⟩
  rw [hunnoticed after hafter]
  exact toOption_eq_some.1 henabled

end FlatNet

end PetriTree
