import PetriTree.Proofs.Hierarchy
import PetriTree.Proofs.Registry
import PetriTree.Proofs.Simulation

/-!
# PetriTree — arcs end in places

Whether undoing leads back depends on whether every arc of a flat net has its end in a place. Joining does
not look at this closely, but where nets are made by edits it need not: an arc is added to a place, goes
when the place goes and is renamed with it, and merging redirects its end only from place to place.

Main results:
* `Net.Seated`, `Net.Built.seated` — arcs of nets made by edits have their places;
* `Assembly.contains_follow` — redirections lead from place to place;
* `FlatNet.EndsOf`, `endsOf_of_ofTree` — when the ends of a flat arc are of the right kinds, in any tree;
* `IncludeTree.Reachable.endsInPlaces` — so do the arcs of the flat net of a reachable tree.
-/

namespace PetriTree

namespace Net

variable {net after : Net}

/-- Every arc has its end in a place of the net. -/
def Seated (net : Net) : Prop := ∀ arc ∈ net.arcs.values, net.places.contains arc.place = true

/-- An edit that takes out no place and leaves every arc where it is. -/
theorem Seated.keep (h : net.Seated)
    (hplaces : ∀ id, net.places.contains id = true → after.places.contains id = true)
    (harcs : ∀ arc ∈ after.arcs.values, ∃ arc' ∈ net.arcs.values, arc.place = arc'.place) : after.Seated := by
  intro arc harc
  obtain ⟨arc', harc', heq⟩ := harcs arc harc
  rw [heq]
  exact hplaces _ (h arc' harc')

/-- An edit that takes out arcs at most. -/
theorem Seated.fewer (h : net.Seated) (hplaces : after.places = net.places)
    (harcs : ∀ arc ∈ after.arcs.values, arc ∈ net.arcs.values) : after.Seated :=
  h.keep (fun _ hid => hplaces ▸ hid) fun arc harc => ⟨arc, harcs arc harc, rfl⟩

/-- An edit of one place that stays where it is. -/
theorem Seated.refill (h : net.Seated) {id : String} {f : Place → Place}
    (hplaces : after.places = net.places.modify id f) (harcs : after.arcs = net.arcs) : after.Seated := by
  refine h.keep (fun key hkey => ?_) fun arc harc => ⟨arc, harcs ▸ harc, rfl⟩
  rw [hplaces, Table.contains, Table.get?_modify]
  split
  · rwa [Option.isSome_map]
  · exact hkey

theorem Seated.add {component : Component} (h : net.Seated) (hedit : net.add component = .ok after) :
    after.Seated := by
  cases component with
  | place value =>
    obtain ⟨_, rfl⟩ := addPlace_eq_ok hedit
    refine h.keep (fun id hid => ?_) fun arc harc => ⟨arc, harc, rfl⟩
    simp only [touch, Table.contains_insert, hid, Bool.or_true]
  | arc value =>
    obtain ⟨_, ⟨place, hplace, _⟩, _, _, _, rfl⟩ := addArc_eq_ok hedit
    intro arc harc
    rcases Table.mem_values_insert harc with rfl | harc
    · simp only [touch, Table.contains, hplace, Option.isSome_some]
    · exact h arc harc
  | color value =>
    obtain ⟨_, rfl⟩ := addColor_eq_ok hedit
    exact h.fewer rfl fun _ harc => harc
  | note value =>
    obtain ⟨_, rfl⟩ := addNote_eq_ok hedit
    exact h.fewer rfl fun _ harc => harc
  | rateParameter value =>
    obtain ⟨_, _, rfl⟩ := addParameter_eq_ok hedit
    exact h.fewer rfl fun _ harc => harc
  | transition value =>
    obtain ⟨_, _, _, rfl⟩ := addTransition_eq_ok hedit
    exact h.fewer rfl fun _ harc => harc

/-- A place goes together with its arcs. -/
theorem Seated.removePlace {id : String} {place : Place} (h : net.Seated)
    (hedit : net.removePlace id = .ok (place, after)) : after.Seated := by
  obtain ⟨_, rfl⟩ := removePlace_eq_ok hedit
  intro arc harc
  obtain ⟨harc, _, hother⟩ := Table.mem_values_filter harc
  have hne : id ≠ arc.place := fun heq => by simp [heq] at hother
  simp only [touch, Table.contains_erase, h arc harc, Bool.and_true]
  exact decide_eq_true hne

/-- The arcs of a place follow its new name. -/
theorem Seated.renamePlace {old new : String} (h : net.Seated) (hedit : net.renamePlace old new = .ok after) :
    after.Seated := by
  obtain ⟨hfresh, _, rfl⟩ := renamePlace_eq_ok hedit
  have hunused : net.places.contains new = false := by simp [Table.contains, isNode_eq_false hfresh]
  intro arc harc
  obtain ⟨_, before, hbefore, rfl⟩ := Table.mem_values_map harc
  have hseat := h before hbefore
  simp only [touch, Table.contains, Table.get?_modify, Table.get?_rename _ hunused, Table.renamed] at hseat ⊢
  by_cases hold : before.place = old
  · rw [hold] at hseat
    simp [hold, hseat]
  · have hnew : before.place ≠ new := fun heq => by
      rw [heq, isNode_eq_false hfresh] at hseat
      cases hseat
    simp [hold, hnew, Ne.symm hnew, hseat]

theorem Seated.perform {edit : NetEdit} {removed : Option Component} (h : net.Seated)
    (hedit : net.perform edit = .ok (removed, after)) : after.Seated := by
  cases edit with
  | add component => exact h.add (changed_eq_ok hedit)
  | removePlace id =>
    obtain ⟨place, hedit⟩ := taken_eq_ok hedit
    exact h.removePlace hedit
  | renamePlace old new => exact h.renamePlace (changed_eq_ok hedit)
  -- one place changes and stays where it is
  | setTokens place color n =>
    obtain ⟨_, _, rfl⟩ := setTokens_eq_ok (changed_eq_ok hedit)
    exact h.refill (f := fun p => { p with tokens := p.tokens.insert color n }) rfl rfl
  | setCapacity place capacity =>
    obtain ⟨_, rfl⟩ := setCapacity_eq_ok (changed_eq_ok hedit)
    exact h.refill (f := fun p => { p with capacity := capacity }) rfl rfl
  | setStatus place status =>
    obtain ⟨_, rfl⟩ := setStatus_eq_ok (changed_eq_ok hedit)
    exact h.refill (f := fun p => { p with status := status }) rfl rfl
  | setWeight arc color text =>
    obtain ⟨_, _, _, rfl⟩ := setWeight_eq_ok (changed_eq_ok hedit)
    refine h.keep (fun _ hid => hid) fun arc harc => ?_
    obtain ⟨key, before, hbefore, rfl⟩ := Table.mem_values_map harc
    refine ⟨before, hbefore, ?_⟩
    split <;> rfl
  -- arcs are taken out at most
  | removeTransition id =>
    obtain ⟨transition, hedit⟩ := taken_eq_ok hedit
    obtain ⟨_, rfl⟩ := removeTransition_eq_ok hedit
    exact h.fewer rfl fun _ harc => (Table.mem_values_filter harc).1
  | removeArc id =>
    obtain ⟨arc, hedit⟩ := taken_eq_ok hedit
    obtain ⟨_, rfl⟩ := removeArc_eq_ok hedit
    exact h.fewer rfl fun _ harc => (Table.mem_values_filter harc).1
  | removeParameter id =>
    obtain ⟨parameter, hedit⟩ := taken_eq_ok hedit
    obtain ⟨_, _, rfl⟩ := removeParameter_eq_ok hedit
    exact h.fewer rfl fun _ harc => harc
  | setRate transition rate =>
    obtain ⟨_, _, rfl⟩ := setRate_eq_ok (changed_eq_ok hedit)
    exact h.fewer rfl fun _ harc => harc
  | setDelay transition delay =>
    obtain ⟨_, rfl⟩ := setDelay_eq_ok (changed_eq_ok hedit)
    exact h.fewer rfl fun _ harc => harc

/-- Arcs of nets made by edits have their places. -/
theorem Built.seated (h : net.Built) : net.Seated := by
  induction h with
  | new name =>
    intro arc harc
    cases harc
  | named name _ ih => exact ih
  | perform _ hedit ih => exact ih.perform hedit

end Net

/-! ## Arcs of flat nets -/

namespace Assembly

/-- The place of an arc follows all redirections, and its transition follows none. -/
theorem ends_of_foldlM {rs : List Redirect} {arc arc' : Arc}
    (h : rs.foldlM (fun arc r => r.arc arc) arc = .ok arc') :
    arc'.place = follow rs arc.place ∧ arc'.transition = arc.transition := by
  induction rs generalizing arc with
  | nil =>
    cases h
    exact ⟨rfl, rfl⟩
  | cons r rest ih =>
    rw [List.foldlM_cons, bind_eq_ok] at h
    obtain ⟨next, hnext, h⟩ := h
    obtain ⟨weights, _, rfl⟩ := Redirect.arc_eq_ok hnext
    exact ih h

/-- Redirections lead from place to place. -/
theorem contains_follow {places : Table Place} {rs : List Redirect}
    (hends : ∀ r ∈ rs, places.contains r.old = true ∧ places.contains r.new = true) (flat : String) :
    places.contains (follow rs flat) = places.contains flat := by
  induction rs generalizing flat with
  | nil => rfl
  | cons r rest ih =>
    have hfirst : places.contains (r.rename flat) = places.contains flat := by
      obtain ⟨hold, hnew⟩ := hends r (List.mem_cons_self ..)
      unfold Redirect.rename Table.renamed
      split
      · rename_i heq
        rw [hnew, heq, hold]
      · rfl
    exact (ih (fun r' hr' => hends r' (List.mem_cons_of_mem _ hr')) _).trans hfirst

end Assembly

open Assembly

namespace FlatNet

variable {tree : IncludeTree} {net : FlatNet}

/-- No transition of a flat net has the id of a place. -/
theorem apart_of_ofTree (h : FlatNet.ofTree tree = .ok net) {id : String} (hplace : net.places.contains id = true) :
    net.transitions.contains id = false := by
  obtain ⟨a, ha, hnet⟩ := compiledFrom_of_ofTree h
  obtain ⟨a₀, hcopied, hmerged⟩ := merged_of_joined ha
  rw [hnet.contains_transition, hmerged.contains_transition]
  exact hcopied.apart id (hmerged.contains_of_contains (hnet.places ▸ hplace))

/-- The ends of an arc of the flat net are places or transitions, and each is of the right kind exactly when
what the arc of the node names, qualified, is a component of this kind. -/
structure EndsOf (net : FlatNet) (nodes : List (NodeId × TreeNode)) (l : Local Arc) (e : String × FlatArc) :
    Prop where
  key : e.1 = qualify l.owner.path l.part.id
  known : (net.places.contains e.2.arc.place = true ∨ net.transitions.contains e.2.arc.place = true) ∧
    (net.places.contains e.2.arc.transition = true ∨ net.transitions.contains e.2.arc.transition = true)
  place : net.places.contains e.2.arc.place = true ↔
    ∃ p ∈ placesOf nodes, qualify p.owner.path p.part.id = qualify l.owner.path l.part.place
  transition : net.transitions.contains e.2.arc.transition = true ↔
    ∃ t ∈ transitionsOf nodes, qualify t.owner.path t.part.id = qualify l.owner.path l.part.transition

theorem endsOf_of_ofTree (h : FlatNet.ofTree tree = .ok net) :
    List.Forall₂ (net.EndsOf tree.walk) (arcsOf tree.walk) net.arcs.entries := by
  obtain ⟨a, ha, hnet⟩ := compiledFrom_of_ofTree h
  obtain ⟨a₀, hcopied, hmerged⟩ := merged_of_joined ha
  have hredirects : ∀ r ∈ redirectsOf tree (placesOf tree.walk),
      a₀.places.contains r.old = true ∧ a₀.places.contains r.new = true := by
    intro r hr
    obtain ⟨l, hl, _, hold⟩ := mem_map_old.1 (List.mem_map_of_mem hr)
    obtain ⟨_, origin, horigin, hnew⟩ := hmerged.new_notMem_old hcopied hr
    rw [← hold, hnew, hcopied.contains_place_iff, hcopied.contains_place_iff]
    exact ⟨⟨l, hl, rfl⟩, origin, horigin, rfl⟩
  -- copied, merged and compiled: three lists of arcs, one by one
  refine forall₂_trans (fun l e d hle hed => ?_) (forall₂_trans (T := fun l e => e.1 = qualify l.owner.path l.part.id ∧
    e.2.place = follow (redirectsOf tree (placesOf tree.walk)) (qualify l.owner.path l.part.place) ∧
    e.2.transition = qualify l.owner.path l.part.transition) (fun l e d hcopy hmerge => ?_) hcopied.arcs hmerged.arcs)
    hnet.arcs
  · obtain ⟨hkey, hplace, htransition⟩ := hle
    obtain ⟨hkey', harc, hplaceEnd, htransitionEnd, _⟩ := hed
    have hend : ∀ id, a.HasEnd id → net.places.contains id = true ∨ net.transitions.contains id = true := by
      intro id hid
      rwa [hnet.places, hnet.contains_transition]
    refine ⟨hkey'.trans hkey, ⟨harc ▸ hend _ hplaceEnd, harc ▸ hend _ htransitionEnd⟩, ?_, ?_⟩
    · have hfollowed : a₀.places.contains e.2.place = true ↔
          ∃ p ∈ placesOf tree.walk, p.flat = qualify l.owner.path l.part.place := by
        rw [hplace, contains_follow hredirects, hcopied.contains_place_iff]
      rw [harc]
      refine Iff.trans ⟨fun hkept => hmerged.contains_of_contains (hnet.places ▸ hkept), ?_⟩ hfollowed
      -- the end was checked to be a place or a transition, and no transition has the id of a place
      · intro hseat
        refine (hend _ hplaceEnd).resolve_right ?_
        rw [hnet.contains_transition, hmerged.contains_transition, hcopied.apart _ hseat]
        exact Bool.false_ne_true
    · rw [harc, htransition, ← Table.mem_names_iff, names_transitions h, List.mem_map]
  · obtain ⟨hid, weights, _, hcopy⟩ := hcopy
    obtain ⟨hplace, htransition⟩ := ends_of_foldlM hmerge.2
    exact ⟨hmerge.1.trans hid, by rw [hplace, hcopy], by rw [htransition, hcopy]⟩

end FlatNet

/-- An arc of a reachable tree is attached to a place of its own node. -/
theorem exists_place {tree : IncludeTree} (hreachable : tree.Reachable) {l : Local Arc} (hl : l ∈ arcsOf tree.walk) :
    ∃ p ∈ l.owner.net.places.values, p.id = l.part.place := by
  obtain ⟨hnode, hpart⟩ := mem_arcsOf.1 hl
  have hbuilt := hreachable.linked.built _ _ (node?_of_mem_walk hnode)
  obtain ⟨place, hplace⟩ := Option.isSome_iff_exists.1 (hbuilt.seated l.part hpart)
  exact ⟨place, Table.mem_values_iff.2 ⟨_, hplace⟩, hbuilt.filed _ place hplace⟩

/-- In the flat net of a reachable tree every arc has its end in a place. -/
theorem IncludeTree.Reachable.endsInPlaces {tree : IncludeTree} {net : FlatNet} (hreachable : tree.Reachable)
    (h : FlatNet.ofTree tree = .ok net) : net.EndsInPlaces := by
  intro flat hflat
  obtain ⟨e, he, rfl⟩ := List.mem_map.1 hflat
  obtain ⟨l, hl, hends⟩ := exists_left_of_forall₂ (FlatNet.endsOf_of_ofTree h) he
  obtain ⟨place, hplace, hid⟩ := exists_place hreachable hl
  exact hends.place.2 ⟨⟨l.node, l.owner, place⟩, mem_localsOf.2 ⟨(mem_arcsOf.1 hl).1, hplace⟩, by rw [hid]⟩

end PetriTree
