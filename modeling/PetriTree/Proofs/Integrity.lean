import PetriTree.Proofs.Attachment
import PetriTree.Proofs.EditEffect

/-!
# PetriTree — nets whose parts fit together

The parts of a net refer to one another by name: arcs to places, transitions and colours, and every table to
the ids of what it files. An edit that takes a part out takes out what refers to it as well, and one that
renames a part renames it everywhere, so that no sequence of edits leaves a name without its part.

Main results:
* `Table.Keyed` — a table that files each part under its id;
* `Net.arc_of_effect` — an arc after an edit was added by it, or stems from one of before;
* `Net.Built.intact` — nets made by edits are intact;
* `Net.intact_performAll` — so is the net after any edits, asked for in any order.
-/

namespace PetriTree

/-! ## Tables that file by id -/

namespace Table

variable {α : Type} {t : Table α} {id : α → String}

/-- Everything is filed under its id. -/
def Keyed (id : α → String) (t : Table α) : Prop := ∀ key value, t.get? key = some value → id value = key

theorem keyed_empty (id : α → String) : (empty : Table α).Keyed id := fun _ _ h => by cases h

theorem Keyed.insert (h : t.Keyed id) (value : α) : (t.insert (id value) value).Keyed id := by
  intro key found hfound
  rw [get?_insert] at hfound
  split at hfound
  · rename_i hkey
    cases hfound
    exact hkey
  · exact h key found hfound

theorem Keyed.filter (h : t.Keyed id) (keep : String → α → Bool) : (t.filter keep).Keyed id := by
  intro key found hfound
  rw [get?_filter, Option.filter_eq_some_iff] at hfound
  exact h key found hfound.1

theorem Keyed.map (h : t.Keyed id) {f : String → α → α} (hf : ∀ key value, id (f key value) = id value) :
    (t.map f).Keyed id := by
  intro key found hfound
  rw [get?_map] at hfound
  obtain ⟨value, hvalue, rfl⟩ := Option.map_eq_some_iff.1 hfound
  rw [hf, h key value hvalue]

theorem Keyed.modify (h : t.Keyed id) {name : String} {f : α → α} (hf : ∀ value, id (f value) = id value) :
    (t.modify name f).Keyed id := by
  refine h.map fun key value => ?_
  split
  · exact hf value
  · rfl

theorem contains_modify {name key : String} {f : α → α} : (t.modify name f).contains key = t.contains key :=
  contains_map ..

end Table

namespace Net

variable {net after : Net} {edit : NetEdit}

/-- Everything in the net is filed under its id, whatever kind it is of. -/
structure Tidy (net : Net) : Prop where
  colors : net.colors.Keyed TokenColor.id
  notes : net.notes.Keyed Note.id
  places : net.places.Keyed Place.id
  parameters : net.parameters.Keyed RateParameter.id
  transitions : net.transitions.Keyed Transition.id
  arcs : net.arcs.Keyed Arc.id

/-- A renamed place is filed under its new name and has got it as its id. -/
theorem keyed_renamed {places : Table Place} (h : places.Keyed Place.id) {old new : String}
    (hfree : places.contains new = false) :
    ((places.rename old new).modify new fun p => { p with id := new }).Keyed Place.id := by
  intro key place hplace
  rw [Table.get?_modify, Table.get?_rename key hfree] at hplace
  split at hplace
  · rename_i hkey
    obtain ⟨before, _, rfl⟩ := Option.map_eq_some_iff.1 hplace
    exact hkey
  · rename_i hkey
    rw [if_neg (Ne.symm hkey)] at hplace
    split at hplace
    · cases hplace
    · exact h key place hplace

theorem Tidy.effect (h : net.Tidy) (heffect : net.Effect edit after) : after.Tidy := by
  constructor
  case colors =>
    rw [heffect.colors]
    unfold NetEdit.onColors
    split
    · exact h.colors.insert _
    · exact h.colors
  case notes =>
    rw [heffect.notes]
    unfold NetEdit.onNotes
    split
    · exact h.notes.insert _
    · exact h.notes
  case places =>
    have hallowed := heffect.allowed
    rw [heffect.places]
    unfold NetEdit.onPlaces
    split
    · exact h.places.insert _
    · exact h.places.filter _
    · exact h.places.modify fun _ => rfl
    · exact h.places.modify fun _ => rfl
    · exact h.places.modify fun _ => rfl
    · exact keyed_renamed h.places (Bool.or_eq_false_iff.1 hallowed.1).1
    · exact h.places
  case parameters =>
    rw [heffect.parameters]
    unfold NetEdit.onParameters
    split
    · exact h.parameters.insert _
    · exact h.parameters.filter _
    · exact h.parameters.map fun _ _ => rfl
    · exact h.parameters
  case transitions =>
    rw [heffect.transitions]
    unfold NetEdit.onTransitions
    split
    · exact h.transitions.insert _
    · exact h.transitions.filter _
    · exact h.transitions.modify fun _ => rfl
    · exact h.transitions.modify fun _ => rfl
    · exact h.transitions.map fun _ _ => rfl
    · exact h.transitions
  case arcs =>
    rw [heffect.arcs]
    unfold NetEdit.onArcs
    split
    · exact h.arcs.insert _
    · exact h.arcs.filter _
    · exact h.arcs.filter _
    · exact h.arcs.filter _
    · exact h.arcs.modify fun _ => rfl
    · exact h.arcs.map fun _ _ => rfl
    · exact h.arcs

/-- A tidy net looks a component up under its id. -/
theorem Tidy.component (h : net.Tidy) {kind : ComponentKind} {id : String} {component : Component}
    (hfound : net.component id kind = .ok component) : component.id = id ∧ component.kind = kind := by
  have hsome := required_eq_ok.1 hfound
  cases kind <;> obtain ⟨value, hvalue, rfl⟩ := Option.map_eq_some_iff.1 hsome
  case color => exact ⟨h.colors id value hvalue, rfl⟩
  case note => exact ⟨h.notes id value hvalue, rfl⟩
  case place => exact ⟨h.places id value hvalue, rfl⟩
  case rateParameter => exact ⟨h.parameters id value hvalue, rfl⟩
  case transition => exact ⟨h.transitions id value hvalue, rfl⟩
  case arc => exact ⟨h.arcs id value hvalue, rfl⟩

/-! ## Places and transitions -/

/-- No id is that of a place and of a transition. -/
def Apart (net : Net) : Prop := ∀ id, net.places.contains id = true → net.transitions.contains id = false

theorem contains_places_of_isNode {id : String} (h : net.isNode id = false) : net.places.contains id = false :=
  (Bool.or_eq_false_iff.1 h).1

theorem contains_transitions_of_isNode {id : String} (h : net.isNode id = false) :
    net.transitions.contains id = false := (Bool.or_eq_false_iff.1 h).2

theorem contains_renamed {places : Table Place} {old new id : String} {f : Place → Place}
    (hfree : places.contains new = false) (h : ((places.rename old new).modify new f).contains id = true) :
    places.contains id = true ∨ id = new := by
  rw [Table.contains_modify, Table.contains, Table.get?_rename id hfree] at h
  split at h
  · rename_i hnew
    exact Or.inr hnew
  · split at h
    · cases h
    · exact Or.inl h

/-- A new place gets a name that was free, and adding or renaming it adds no transition. -/
theorem contains_onPlaces (hallowed : net.Allows edit) {id : String}
    (h : (edit.onPlaces net.places).contains id = true) : net.places.contains id = true ∨
      net.isNode id = false ∧ (edit.onTransitions net.transitions).contains id = net.transitions.contains id := by
  unfold NetEdit.onPlaces at h
  split at h
  case h_1 place _ =>
    rw [Table.contains_insert, Bool.or_eq_true, decide_eq_true_eq] at h
    rcases h with rfl | h
    · exact Or.inr ⟨hallowed, rfl⟩
    · exact Or.inl h
  case h_2 => exact Or.inl (Bool.and_eq_true_iff.1 (Table.contains_erase id ▸ h)).2
  case h_3 => exact Or.inl (Table.contains_modify ▸ h)
  case h_4 => exact Or.inl (Table.contains_modify ▸ h)
  case h_5 => exact Or.inl (Table.contains_modify ▸ h)
  case h_6 old new _ =>
    refine (contains_renamed (contains_places_of_isNode hallowed.1) h).imp_right ?_
    rintro rfl
    exact ⟨hallowed.1, Table.contains_map ..⟩
  case h_7 => exact Or.inl h

/-- A new transition gets a name that was free. -/
theorem contains_onTransitions (hallowed : net.Allows edit) {id : String}
    (h : (edit.onTransitions net.transitions).contains id = true) :
    net.transitions.contains id = true ∨ net.isNode id = false := by
  unfold NetEdit.onTransitions at h
  split at h
  case h_1 transition _ =>
    rw [Table.contains_insert, Bool.or_eq_true, decide_eq_true_eq] at h
    rcases h with rfl | h
    · exact Or.inr hallowed.1
    · exact Or.inl h
  case h_2 => exact Or.inl (Bool.and_eq_true_iff.1 (Table.contains_erase id ▸ h)).2
  case h_3 => exact Or.inl (Table.contains_modify ▸ h)
  case h_4 => exact Or.inl (Table.contains_modify ▸ h)
  case h_5 => exact Or.inl (Table.contains_map _ id ▸ h)
  case h_6 => exact Or.inl h

theorem Apart.effect (h : net.Apart) (heffect : net.Effect edit after) : after.Apart := by
  intro id hplace
  rw [heffect.places] at hplace
  rw [heffect.transitions]
  rcases contains_onPlaces heffect.allowed hplace with hbefore | ⟨hfree, hsame⟩
  · by_contra htaken
    rw [Bool.not_eq_false] at htaken
    rcases contains_onTransitions heffect.allowed htaken with htransition | hfree
    · exact absurd htransition (by simp [h id hbefore])
    · exact absurd hbefore (by simp [contains_places_of_isNode hfree])
  · rw [hsame, contains_transitions_of_isNode hfree]

/-! ## Arcs -/

/-- The arc leads tokens the same way and asks for them in the same manner as one of before. The colours it
weighs are those of before, or colours of the net. -/
structure StemsFrom (net : Net) (before arc : Arc) : Prop where
  direction : arc.direction = before.direction
  kind : arc.kind = before.kind
  colors : ∀ color ∈ arc.weights.names, color ∈ before.weights.names ∨ net.colors.contains color = true

theorem stemsFrom_refl (net : Net) (arc : Arc) : net.StemsFrom arc arc := ⟨rfl, rfl, fun _ h => Or.inl h⟩

/-- An arc after an edit was admitted by it, or stems from one of before. -/
theorem arc_of_effect (heffect : net.Effect edit after) {arc : Arc} (harc : arc ∈ after.arcs.values) :
    net.Admits arc ∨ ∃ before ∈ net.arcs.values, net.StemsFrom before arc := by
  have hsame : arc ∈ net.arcs.values → ∃ before ∈ net.arcs.values, net.StemsFrom before arc :=
    fun hbefore => ⟨arc, hbefore, stemsFrom_refl net arc⟩
  have hallowed := heffect.allowed
  rw [heffect.arcs] at harc
  unfold NetEdit.onArcs at harc
  split at harc
  case h_1 value _ =>
    rcases Table.mem_values_insert harc with rfl | hbefore
    · exact Or.inl hallowed.2
    · exact Or.inr (hsame hbefore)
  case h_2 => exact Or.inr (hsame (Table.mem_values_filter harc).1)
  case h_3 => exact Or.inr (hsame (Table.mem_values_filter harc).1)
  case h_4 => exact Or.inr (hsame (Table.mem_values_filter harc).1)
  -- the weight that is set is of a colour of the net
  case h_5 id color text _ =>
    obtain ⟨key, before, hbefore, rfl⟩ := Table.mem_values_map harc
    refine Or.inr ⟨before, hbefore, ?_⟩
    split
    · refine ⟨rfl, rfl, fun c hc => ?_⟩
      rw [Table.names_insert] at hc
      split at hc
      · exact Or.inl hc
      · refine (List.mem_append.1 hc).imp_right fun hlast => ?_
        rw [List.mem_singleton.1 hlast]
        exact hallowed.2.1
    · exact stemsFrom_refl net before
  case h_6 old new _ =>
    obtain ⟨key, before, hbefore, rfl⟩ := Table.mem_values_map harc
    exact Or.inr ⟨before, hbefore, rfl, rfl, fun c hc => Or.inl (Table.names_map before.weights _ ▸ hc)⟩
  case h_7 => exact Or.inr (hsame harc)

theorem colors_of_checkWeights {id : String} {weights : List (String × String)}
    (h : net.checkWeights id weights = .ok ()) : ∀ e ∈ weights, net.colors.contains e.1 = true := by
  induction weights with
  | nil => exact fun _ he => by cases he
  | cons first rest ih =>
    obtain ⟨color, weight⟩ := first
    simp only [checkWeights, bind_eq_ok, refuseIf_eq_ok, Bool.not_eq_false'] at h
    obtain ⟨_, hcolor, _, _, hrest⟩ := h
    intro e he
    rcases List.mem_cons.1 he with rfl | he
    · exact hcolor
    · exact ih hrest e he

/-- Colours stay in a net. -/
theorem contains_colors (heffect : net.Effect edit after) {color : String}
    (h : net.colors.contains color = true) : after.colors.contains color = true := by
  rw [heffect.colors]
  unfold NetEdit.onColors
  split
  · rw [Table.contains_insert, h, Bool.or_true]
  · exact h

/-- An arc out of a transition has no special kind, and an arc weighs colours of its net only. -/
structure Plain (net : Net) : Prop where
  outbound : ∀ arc ∈ net.arcs.values, arc.isInbound = true ∨ arc.kind = .normal
  colors : ∀ arc ∈ net.arcs.values, ∀ color ∈ arc.weights.names, net.colors.contains color = true

theorem Plain.effect (h : net.Plain) (heffect : net.Effect edit after) : after.Plain := by
  constructor
  case outbound =>
    intro arc harc
    rcases arc_of_effect heffect harc with hadmits | ⟨before, hbefore, hstems⟩
    · exact hadmits.kind
    · have hplain := h.outbound before hbefore
      rwa [Arc.isInbound, hstems.direction, hstems.kind]
  case colors =>
    intro arc harc color hcolor
    refine contains_colors heffect ?_
    rcases arc_of_effect heffect harc with hadmits | ⟨before, hbefore, hstems⟩
    · obtain ⟨e, he, rfl⟩ := List.mem_map.1 hcolor
      exact colors_of_checkWeights hadmits.weights e he
    · rcases hstems.colors color hcolor with hold | hknown
      · exact h.colors before hbefore color hold
      · exact hknown

/-! ## Nets made by edits -/

/-- The parts of the net fit together. -/
structure Intact (net : Net) : Prop where
  /-- What is looked up under an id has that id. -/
  filed : ∀ kind id component, net.component id kind = .ok component → component.id = id
  /-- Places and transitions do not share ids. -/
  apart : ∀ id, net.places.contains id = true → net.transitions.contains id = false
  /-- An arc leads between a place and a transition of the net. -/
  ends : ∀ arc ∈ net.arcs.values,
    net.places.contains arc.place = true ∧ net.transitions.contains arc.transition = true
  /-- An arc out of a transition gives tokens, whatever it is asked to be. -/
  outbound : ∀ arc ∈ net.outboundArcs, arc.kind = .normal
  /-- An arc weighs colours that the net defines. -/
  weighed : ∀ arc ∈ net.arcs.values, ∀ color ∈ arc.weights.names, net.colors.contains color = true

theorem Built.tidy (h : net.Built) : net.Tidy := by
  induction h with
  | new name =>
    have hcolors := (Table.keyed_empty TokenColor.id).insert TokenColor.default
    exact ⟨hcolors, Table.keyed_empty _, Table.keyed_empty _, Table.keyed_empty _, Table.keyed_empty _,
      Table.keyed_empty _⟩
  | named name _ ih => exact ⟨ih.colors, ih.notes, ih.places, ih.parameters, ih.transitions, ih.arcs⟩
  | perform _ hedit ih => exact ih.effect (effect_of_perform hedit)

theorem Built.apart (h : net.Built) : net.Apart := by
  induction h with
  | new name => exact fun _ hid => by cases hid
  | named name _ ih => exact ih
  | perform _ hedit ih => exact ih.effect (effect_of_perform hedit)

theorem Built.plain (h : net.Built) : net.Plain := by
  induction h with
  | new name =>
    have hnone : ∀ arc, arc ∉ (Net.new name).arcs.values := fun arc harc => by cases harc
    exact ⟨fun arc harc => absurd harc (hnone arc), fun arc harc => absurd harc (hnone arc)⟩
  | named name _ ih => exact ⟨ih.outbound, ih.colors⟩
  | perform _ hedit ih => exact ih.effect (effect_of_perform hedit)

/-- Nets made by edits are intact. -/
theorem Built.intact (h : net.Built) : net.Intact where
  filed _ _ _ hfound := (h.tidy.component hfound).1
  apart := h.apart
  ends arc harc := ⟨h.seated arc harc, h.anchored.ends arc harc⟩
  outbound arc harc := by
    obtain ⟨hmem, houtbound⟩ := List.mem_filter.1 harc
    exact (h.plain.outbound arc hmem).resolve_left (by simpa using houtbound)
  weighed := h.plain.colors

theorem Built.attempt (h : net.Built) (edit : NetEdit) : (net.attempt edit).Built := by
  unfold Net.attempt
  split
  · rename_i hedit
    exact h.perform hedit
  · exact h

theorem Built.performAll (h : net.Built) (edits : List NetEdit) : (net.performAll edits).Built := by
  induction edits generalizing net with
  | nil => exact h
  | cons edit rest ih => exact ih (h.attempt edit)

/-- Whatever edits are asked for, in any order and whether they are refused or not, the net stays intact. -/
theorem intact_performAll (name : String) (edits : List NetEdit) :
    ((Net.new name).performAll edits).Intact :=
  ((Built.new name).performAll edits).intact

end Net

end PetriTree
