import PetriTree.Proofs.Attachment
import PetriTree.Proofs.Passage

/-!
# PetriTree — what arcs join

An arc should join a place and a transition. Nets see to that when an arc is added, but a net can also be read from
a document, where nothing is checked. Joining a tree then is the last to look, and it asks of each end whether it is
a place or a transition, not which of them it has to be. So an arc of a flat net joins what it should exactly when
the arc of its node does. Another one may end in a transition, and when it gives tokens, they are held under the
id of that transition.

Main results:
* `FlatNet.tokens_performAll` — tokens are held in places and at ends of arcs only, in every run;
* `FlatNet.endpoints` — what the arcs of a flat net join, and where tokens can be;
* `FlatNet.token_in_transition` — an arc between two transitions is let pass, and a firing fills one of them.
-/

namespace PetriTree

namespace FlatNet

variable {tree : IncludeTree} {net : FlatNet}

/-- Is there a place with the id, or an arc that ends in a transition with it? -/
def CanHold (net : FlatNet) (id : String) : Prop :=
  net.places.contains id = true ∨ net.transitions.contains id = true ∧ net.IsEnd id

theorem canHold_of_isEnd (h : FlatNet.ofTree tree = .ok net) {id : String} (hend : net.IsEnd id) : net.CanHold id := by
  obtain ⟨flat, hflat, rfl⟩ := hend
  obtain ⟨e, he, rfl⟩ := List.mem_map.1 hflat
  obtain ⟨l, _, hends⟩ := exists_left_of_forall₂ (endsOf_of_ofTree h) he
  exact hends.known.1.imp_right fun htransition => ⟨htransition, e.2, hflat, rfl⟩

/-- Tokens are held in places and at ends of arcs only, whatever is done. -/
theorem tokens_performAll (h : FlatNet.ofTree tree = .ok net) {live : LiveNet} (hlive : live.net = net)
    {chance : Chance} {startTime : UInt64} {sim : Simulation} (hnew : Simulation.new live chance startTime = .ok sim)
    (operations : List Simulation.Operation) {id color : String}
    (htokens : (sim.performAll operations).marking.tokens id color ≠ Count.zero) : net.CanHold id := by
  subst hlive
  have hinitial : ∀ id, live.net.initial.contains id = true → live.net.CanHold id := fun id hid =>
    Or.inl (contains_initial h id ▸ hid)
  obtain ⟨timed, _, rfl⟩ := Simulation.new_eq_ok.1 hnew
  -- undoing writes where records say, so the records have to keep to these places too
  have hstart : Simulation.KeepsTo live.net.CanHold
      ⟨{ live with marking := live.net.initial, schedule := Schedule.reset startTime timed },
        EnabledCache.empty, chance, startTime, []⟩ := ⟨hinitial, nofun⟩
  have hrun := hstart.performAll (fun _ hend => canHold_of_isEnd h hend) hinitial operations
  exact hrun.marking id (Marking.contains_of_tokens_ne htokens)

/-- Each end of an arc of a flat net is a place or a transition, and it is of the right kind exactly when the arc
of the node, qualified, names a place or a transition of some node there. No id is one of both. A firing puts tokens
into places only, or under ids of transitions where arcs end in them, and so it is in every run. In trees that
commands lead to every end is of the right kind, so that tokens are held in places only. -/
theorem endpoints (h : FlatNet.ofTree tree = .ok net) :
    List.Forall₂ (net.EndsOf tree.walk) (arcsOf tree.walk) net.arcs.entries ∧
      (tree.Reachable → (∀ a ∈ net.arcs.values,
        net.places.contains a.arc.place = true ∧ net.transitions.contains a.arc.transition = true) ∧
          ∀ id, net.CanHold id → net.places.contains id = true) ∧
      (∀ id, net.places.contains id = true → net.transitions.contains id = false) ∧
      (∀ m transition after, net.fire m transition = .ok after → ∀ id color,
        after.tokens id color ≠ m.tokens id color → net.CanHold id) ∧
      ∀ live chance startTime sim, live.net = net → Simulation.new live chance startTime = .ok sim →
        ∀ operations id color, (sim.performAll operations).marking.tokens id color ≠ Count.zero → net.CanHold id := by
  refine ⟨endsOf_of_ofTree h, fun hreachable => ⟨fun a ha => ⟨hreachable.endsInPlaces h a ha, ?_⟩, ?_⟩,
    fun id hid => apart_of_ofTree h hid, fun m transition after hfire id color hne => ?_,
    fun live chance startTime sim hlive hnew operations id color => tokens_performAll h hlive hnew operations⟩
  · obtain ⟨e, he, rfl⟩ := List.mem_map.1 ha
    -- edits have seen to it that the arc of the node names a transition of the same node
    obtain ⟨l, hl, hends⟩ := exists_left_of_forall₂ (endsOf_of_ofTree h) he
    obtain ⟨t, ht, hid⟩ := exists_transition hreachable hl
    exact hends.transition.2 ⟨⟨l.node, l.owner, t⟩, mem_localsOf.2 ⟨(mem_arcsOf.1 hl).1, ht⟩, by rw [hid]⟩
  · rintro id (hplace | ⟨_, a, ha, rfl⟩)
    · exact hplace
    · exact hreachable.endsInPlaces h a ha
  · exact canHold_of_isEnd h ((shifts_of_fire hfire).changed id color hne)

/-- In this tree an arc leads from a transition into another one, and the theorem says where tokens can be. -/
theorem endpoints_misled : ∃ net, FlatNet.ofTree StateSpace.misled = .ok net ∧
    List.Forall₂ (net.EndsOf StateSpace.misled.walk) (arcsOf StateSpace.misled.walk) net.arcs.entries ∧
    (∀ m transition after, net.fire m transition = .ok after → ∀ id color,
      after.tokens id color ≠ m.tokens id color → net.CanHold id) ∧ net.CanHold "T" := by
  have hrun : (FlatNet.ofTree StateSpace.misled).map (fun net => net.transitions.contains "T" &&
      net.arcs.values.any fun a => decide (a.arc.place = "T")) = .ok true := by
    decide +kernel
  obtain ⟨net, hnet, houtcome⟩ := map_eq_ok.1 hrun
  simp only [Bool.and_eq_true, List.any_eq_true, decide_eq_true_eq] at houtcome
  obtain ⟨hends, _, _, hfirings, _⟩ := endpoints hnet
  exact ⟨net, hnet, hends, hfirings, Or.inr houtcome⟩

/-- The tree can be joined, although an arc has a transition where its place should be. Firing the other
transition puts a token under the id of this one, where there is no place. -/
theorem token_in_transition : ∃ net after, FlatNet.ofTree StateSpace.misled = .ok net ∧
    (∃ a ∈ net.arcs.values, net.places.contains a.arc.place = false) ∧
    net.isEnabled net.initial "U" = .ok true ∧ net.fire net.initial "U" = .ok after ∧
    net.places.contains "T" = false ∧ after.tokens "T" defaultColor = Count.ofNat 1 := by
  have hrun : (FlatNet.ofTree StateSpace.misled).map (fun net =>
      (net.arcs.values.any (fun a => !net.places.contains a.arc.place), (net.isEnabled net.initial "U").toOption,
        net.places.contains "T",
        (net.fire net.initial "U").toOption.map fun after => after.tokens "T" defaultColor)) =
      .ok (true, some true, false, some (Count.ofNat 1)) := by
    decide +kernel
  obtain ⟨net, hnet, houtcome⟩ := map_eq_ok.1 hrun
  simp only [Prod.mk.injEq, List.any_eq_true, Bool.not_eq_true', toOption_eq_some, Option.map_eq_some_iff] at houtcome
  obtain ⟨harc, henabled, hplace, after, hafter, htokens⟩ := houtcome
  exact ⟨net, after, hnet, harc, henabled, hafter, hplace, htokens⟩

end FlatNet

end PetriTree
