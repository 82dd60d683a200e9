import PetriTree.Net.Stepwise
import PetriTree.Proofs.Integrity

/-!
# PetriTree — what an edit tells of itself

What is derived from a net is up to date as long as the two counters of the net are where they were. So an edit
has to advance one of them whenever it changes something, and none when it is refused. A refused edit must not
have written anything either, and this is a matter of order where a net is changed in place: every check of an
edit stands in front of the first write.

Main results:
* `EditStep.Takes` — steps with the same outcome as an edit that answers a new net;
* `NetEdit.carryOut_eq` — edits made in place, and edits that answer a new net;
* `Net.Restocked`, `Net.Restructured` — a change of tokens, and any other;
* `Net.signalled` — a refused edit changes nothing, any other is one of the two.
-/

namespace PetriTree

theorem Table.map_map (t : Table α) (f : String → α → β) (g : String → β → γ) :
    (t.map f).map g = t.map fun key value => g key (f key value) := by
  simp only [map, List.map_map, Function.comp_def]

namespace EditStep

variable {net : Net} {rest : List EditStep} {result : Except NetError Net}

/-- The steps lead from the net to the result, or leave it as it is if there is none. -/
def Takes (steps : List EditStep) (net : Net) (result : Except NetError Net) : Prop :=
  takeAll steps net = (result.toOption.getD net, result.map fun _ => ())

theorem Takes.congr {steps : List EditStep} {result' : Except NetError Net} (h : Takes steps net result)
    (heq : result' = result) : Takes steps net result' := heq ▸ h

theorem takes_nil (net : Net) : Takes [] net (.ok net) := rfl

/-- A write may stand in front of steps that are not refused. -/
theorem Takes.write {change : Net → Net} {after : Net} (h : Takes rest (change net) (.ok after)) :
    Takes (.write change :: rest) net (.ok after) := h

theorem takes_structural (change : Net → Net) (net : Net) :
    Takes (structural change) net (.ok (change net).touch) := (takes_nil _).write.write

/-- A check in front of the steps is a check in front of the result. -/
theorem Takes.check (h : Takes rest net result) (test : Net → Except NetError Unit) :
    Takes (.check test :: rest) net (test net >>= fun _ => result) := by
  cases htest : test net with
  | error e => rw [Takes, takeAll, htest]; rfl
  | ok done => rw [Takes, takeAll, htest]; exact h

theorem Takes.need (h : Takes rest net result) (find : Net → Except NetError α) :
    Takes (need find :: rest) net (find net >>= fun _ => result) := by
  have hcheck := h.check fun net => (find net).map fun _ => ()
  cases hfind : find net with
  | error e => rw [hfind] at hcheck; exact hcheck
  | ok value => rw [hfind] at hcheck; exact hcheck

/-- One weight is checked after the other. -/
theorem Takes.weights (h : Takes rest net result) (arc : String) (weights : List (String × String)) :
    Takes (weights.flatMap (weight arc) ++ rest) net (net.checkWeights arc weights >>= fun _ => result) := by
  induction weights with
  | nil => exact h
  | cons pair others ih =>
    obtain ⟨color, text⟩ := pair
    have hboth := (ih.check fun _ => Net.checkExpression arc text).check
      fun net => Net.refuseIf (!net.colors.contains color) (.notFound color .color)
    simp only [Net.checkWeights, bind_assoc]
    exact hboth

end EditStep

namespace NetEdit

open EditStep

theorem takes_add (net : Net) (component : Component) : Takes (addSteps component) net (net.add component) := by
  cases component with
  | color color => exact (takes_structural _ net).check _
  | note note => exact (takes_structural _ net).check _
  | place place => exact (takes_structural _ net).check _
  | rateParameter parameter => exact ((takes_structural _ net).check _).check _
  | transition transition =>
    obtain ⟨id, priority, kind, rate, delay, handler⟩ := transition
    cases rate with
    | expression text => exact ((takes_structural _ net).check _).check _
    | parameter key => exact ((takes_structural _ net).check _).check _
  | arc arc =>
    have hends : Takes (addSteps (.arc arc)) net _ :=
      ((((takes_structural _ net).weights arc.id arc.weights.entries).check _).check _).check _
    refine hends.congr (bind_congr_ok fun _ _ => ?_)
    cases net.places.get? arc.place with
    | none => rfl
    | some place =>
      cases net.transitions.contains arc.transition with
      | false => rfl
      | true => rfl

theorem map_snd_changed (result : Except NetError Net) : (Net.changed result).map Prod.snd = result := by
  cases result <;> rfl

theorem map_snd_taken (wrap : α → Component) (result : Except NetError (α × Net)) :
    (Net.taken wrap result).map Prod.snd = result.map Prod.snd := by
  cases result <;> rfl

theorem map_snd_bind (x : Except NetError α) (after : Net) :
    Except.map Prod.snd (x >>= fun value => .ok (value, after)) = x >>= fun _ => .ok after := by
  cases x <;> rfl

/-- The steps of an edit lead to the net that the edit answers. -/
theorem takes_steps (net : Net) (edit : NetEdit) : Takes edit.steps net ((net.perform edit).map Prod.snd) := by
  cases edit with
  | add component =>
    rw [Net.perform, map_snd_changed]
    exact takes_add net component
  | removePlace id =>
    rw [Net.perform, map_snd_taken, Net.removePlace]
    exact ((takes_nil _).write.write.write.need _).congr (map_snd_bind ..)
  | removeTransition id =>
    rw [Net.perform, map_snd_taken, Net.removeTransition]
    exact ((takes_nil _).write.write.write.need _).congr (map_snd_bind ..)
  | removeArc id =>
    rw [Net.perform, map_snd_taken, Net.removeArc]
    exact ((takes_structural _ net).need _).congr (map_snd_bind ..)
  | removeParameter id =>
    rw [Net.perform, map_snd_taken, Net.removeParameter]
    have h : Takes (NetEdit.removeParameter id).steps net _ := ((takes_structural _ net).need _).check _
    refine h.congr ?_
    cases net.transitions.values.find? fun t => t.rate == .parameter id with
    | none => exact map_snd_bind ..
    | some user => rfl
  | setTokens place color n =>
    rw [Net.perform, map_snd_changed]
    exact ((takes_nil _).write.write.need _).check _
  | setCapacity place capacity =>
    rw [Net.perform, map_snd_changed]
    exact (takes_structural _ net).need _
  | setStatus place status =>
    rw [Net.perform, map_snd_changed]
    exact (takes_structural _ net).need _
  | setWeight arc color expression =>
    rw [Net.perform, map_snd_changed]
    exact (((takes_structural _ net).need _).check _).check _
  | setRate transition rate =>
    rw [Net.perform, map_snd_changed]
    cases rate with
    | expression text => exact ((takes_structural _ net).need _).check _
    | parameter key => exact ((takes_structural _ net).need _).check _
  | setDelay transition delay =>
    rw [Net.perform, map_snd_changed]
    exact (takes_structural _ net).need _
  | renamePlace old new =>
    rw [Net.perform, map_snd_changed]
    have h : Takes (NetEdit.renamePlace old new).steps net _ :=
      ((takes_nil _).write.write.write.write.write.write.need _).check _
    refine h.congr (bind_congr_ok fun _ _ => bind_congr_ok fun _ _ => ?_)
    rw [Table.map_map]
    rfl

/-- An edit that is made in place ends as the edit that answers a new net does. If it is refused, nothing was
written. -/
theorem carryOut_eq (edit : NetEdit) (net : Net) :
    edit.carryOut net = (net.attempt edit, (net.perform edit).map fun _ => ()) := by
  have h : edit.carryOut net = _ := takes_steps net edit
  rw [h, Net.attempt]
  cases net.perform edit <;> rfl

/-- The name under which an edit leaves a place. -/
def nameOf : NetEdit → String → String
  | .renamePlace old new, id => Table.renamed old new id
  | _, id => id

end NetEdit

namespace Net

variable {net after : Net} {edit : NetEdit} {removed : Option Component}

/-- One count is different, and nothing else. -/
structure Restocked (net : Net) (place color : String) (n : Count) (after : Net) : Prop where
  markingRevision : after.markingRevision = net.markingRevision + 1
  revision : after.revision = net.revision
  rest : { after with places := net.places, markingRevision := net.markingRevision } = net
  names : after.places.names = net.places.names
  there : net.places.contains place = true ∧ net.colors.contains color = true
  places : ∀ id before, net.places.get? id = some before → ∃ now, after.places.get? id = some now ∧
    { now with tokens := before.tokens } = before ∧
    ∀ c, now.tokens.get? c = if id = place ∧ c = color then some n else before.tokens.get? c

/-- The places that remain have the tokens that they had. -/
structure Restructured (net : Net) (edit : NetEdit) (after : Net) : Prop where
  revision : after.revision = net.revision + 1
  markingRevision : after.markingRevision = net.markingRevision
  remain : ∀ id before, net.places.get? id = some before → edit ≠ .removePlace id →
    ∃ now, after.places.get? (edit.nameOf id) = some now ∧ now.tokens = before.tokens
  stem : ∀ key now, after.places.get? key = some now → edit = .add (.place now) ∨
    ∃ id before, net.places.get? id = some before ∧ edit.nameOf id = key ∧ now.tokens = before.tokens

/-- What an edit that is not refused did, and which counter tells of it. -/
def Signals (net : Net) : NetEdit → Net → Prop
  | .setTokens place color n, after => net.Restocked place color n after
  | edit, after => net.Restructured edit after

theorem restocked_setTokens {place color : String} {n : Count} (h : net.setTokens place color n = .ok after) :
    net.Restocked place color n after := by
  obtain ⟨hcolor, hplace, rfl⟩ := setTokens_eq_ok h
  refine ⟨rfl, rfl, rfl, Table.names_map .., ⟨contains_of_get? hplace, hcolor⟩, fun id before hbefore => ?_⟩
  dsimp only
  rw [Table.get?_modify, hbefore]
  by_cases hid : place = id
  · rw [if_pos hid]
    refine ⟨_, rfl, rfl, fun c => ?_⟩
    simp only [Table.get?_insert, hid, true_and, eq_comm]
  · rw [if_neg hid]
    refine ⟨before, rfl, rfl, fun c => ?_⟩
    rw [if_neg fun h => hid h.1.symm]

/-- A structural edit advances the one counter and leaves the other. -/
theorem counters_of_perform (h : net.perform edit = .ok (removed, after))
    (hedit : ∀ place color n, edit ≠ .setTokens place color n) :
    after.revision = net.revision + 1 ∧ after.markingRevision = net.markingRevision := by
  cases edit with
  | add component =>
    have h : net.add component = .ok after := changed_eq_ok h
    cases component with
    | color value => obtain ⟨_, rfl⟩ := addColor_eq_ok h; exact ⟨rfl, rfl⟩
    | note value => obtain ⟨_, rfl⟩ := addNote_eq_ok h; exact ⟨rfl, rfl⟩
    | place value => obtain ⟨_, rfl⟩ := addPlace_eq_ok h; exact ⟨rfl, rfl⟩
    | rateParameter value => obtain ⟨_, _, rfl⟩ := addParameter_eq_ok h; exact ⟨rfl, rfl⟩
    | transition value => obtain ⟨_, _, _, rfl⟩ := addTransition_eq_ok h; exact ⟨rfl, rfl⟩
    | arc value => obtain ⟨_, _, _, _, _, rfl⟩ := addArc_eq_ok h; exact ⟨rfl, rfl⟩
  | removePlace id =>
    obtain ⟨_, h⟩ := taken_eq_ok h
    obtain ⟨_, rfl⟩ := removePlace_eq_ok h
    exact ⟨rfl, rfl⟩
  | removeTransition id =>
    obtain ⟨_, h⟩ := taken_eq_ok h
    obtain ⟨_, rfl⟩ := removeTransition_eq_ok h
    exact ⟨rfl, rfl⟩
  | removeArc id =>
    obtain ⟨_, h⟩ := taken_eq_ok h
    obtain ⟨_, rfl⟩ := removeArc_eq_ok h
    exact ⟨rfl, rfl⟩
  | removeParameter id =>
    obtain ⟨_, h⟩ := taken_eq_ok h
    obtain ⟨_, _, rfl⟩ := removeParameter_eq_ok h
    exact ⟨rfl, rfl⟩
  | setTokens place color n => exact absurd rfl (hedit place color n)
  | setCapacity place capacity =>
    obtain ⟨_, rfl⟩ := setCapacity_eq_ok (changed_eq_ok h)
    exact ⟨rfl, rfl⟩
  | setStatus place status =>
    obtain ⟨_, rfl⟩ := setStatus_eq_ok (changed_eq_ok h)
    exact ⟨rfl, rfl⟩
  | setWeight arc color text =>
    obtain ⟨_, _, _, rfl⟩ := setWeight_eq_ok (changed_eq_ok h)
    exact ⟨rfl, rfl⟩
  | setRate transition rate =>
    obtain ⟨_, _, rfl⟩ := setRate_eq_ok (changed_eq_ok h)
    exact ⟨rfl, rfl⟩
  | setDelay transition delay =>
    obtain ⟨_, rfl⟩ := setDelay_eq_ok (changed_eq_ok h)
    exact ⟨rfl, rfl⟩
  | renamePlace old new =>
    obtain ⟨_, _, rfl⟩ := renamePlace_eq_ok (changed_eq_ok h)
    exact ⟨rfl, rfl⟩

theorem tokens_modify (t : Table Place) (name : String) {f : Place → Place} (hf : ∀ p, (f p).tokens = p.tokens)
    (key : String) : ((t.modify name f).get? key).map Place.tokens = (t.get? key).map Place.tokens := by
  rw [Table.get?_modify]
  split
  · rw [Option.map_map]
    exact congrArg (Option.map · _) (funext hf)
  · rfl

/-- A place that is neither taken out nor filled keeps its tokens, under its new name if it gets one. -/
theorem tokens_onPlaces (hallowed : net.Allows edit) (hedit : ∀ place color n, edit ≠ .setTokens place color n)
    {id : String} {before : Place} (hbefore : net.places.get? id = some before) (hkept : edit ≠ .removePlace id) :
    ((edit.onPlaces net.places).get? (edit.nameOf id)).map Place.tokens = some before.tokens := by
  have hthere : net.places.contains id = true := contains_of_get? ⟨_, hbefore⟩
  cases edit with
  | add component =>
    cases component with
    | place place =>
      have hne : place.id ≠ id := by
        rintro rfl
        rw [contains_places_of_isNode hallowed] at hthere
        cases hthere
      change ((net.places.insert place.id place).get? id).map Place.tokens = _
      rw [Table.get?_insert, if_neg hne, hbefore]
      rfl
    | _ => exact congrArg (Option.map Place.tokens) hbefore
  | removePlace other =>
    have hne : other ≠ id := fun h => hkept (h ▸ rfl)
    change ((net.places.erase other).get? id).map Place.tokens = _
    rw [Table.get?_erase, if_neg hne, hbefore]
    rfl
  | setTokens place color n => exact absurd rfl (hedit place color n)
  | setCapacity place capacity =>
    have h := tokens_modify net.places place (f := fun p => { p with capacity := capacity }) (fun _ => rfl) id
    exact h.trans (congrArg (Option.map Place.tokens) hbefore)
  | setStatus place status =>
    have h := tokens_modify net.places place (f := fun p => { p with status := status }) (fun _ => rfl) id
    exact h.trans (congrArg (Option.map Place.tokens) hbefore)
  | renamePlace old new =>
    have hfree := contains_places_of_isNode hallowed.1
    have hne : id ≠ new := by
      rintro rfl
      rw [hfree] at hthere
      cases hthere
    -- setting the id leaves the tokens, and under the new key there was nothing else
    have h := tokens_modify (net.places.rename old new) new (f := fun p => { p with id := new }) (fun _ => rfl)
      (Table.renamed old new id)
    refine h.trans ?_
    rw [Table.renamed, Table.get?_rename _ hfree]
    by_cases hold : id = old
    · rw [if_pos hold, if_pos rfl, ← hold, hbefore]
      rfl
    · rw [if_neg hold, if_neg hne, if_neg hold, hbefore]
      rfl
  | _ => exact congrArg (Option.map Place.tokens) hbefore

/-- Every place after an edit was added by it or was there before. -/
theorem stem_onPlaces (hallowed : net.Allows edit) (hedit : ∀ place color n, edit ≠ .setTokens place color n)
    {key : String} {now : Place} (hnow : (edit.onPlaces net.places).get? key = some now) :
    edit = .add (.place now) ∨ ∃ id, (net.places.get? id).isSome ∧ edit ≠ .removePlace id ∧ edit.nameOf id = key := by
  cases edit with
  | add component =>
    cases component with
    | place place =>
      rw [NetEdit.onPlaces, Table.get?_insert] at hnow
      split at hnow
      · cases hnow
        exact Or.inl rfl
      · exact Or.inr ⟨key, by rw [hnow]; rfl, by rintro ⟨⟩, rfl⟩
    | _ => exact Or.inr ⟨key, Option.isSome_of_eq_some hnow, by rintro ⟨⟩, rfl⟩
  | removePlace other =>
    rw [NetEdit.onPlaces, Table.get?_erase] at hnow
    split at hnow
    · cases hnow
    · rename_i hne
      exact Or.inr ⟨key, Option.isSome_of_eq_some hnow, fun h => hne (NetEdit.removePlace.inj h), rfl⟩
  | setTokens place color n => exact absurd rfl (hedit place color n)
  | setCapacity place capacity =>
    rw [NetEdit.onPlaces] at hnow
    have hthere := Option.isSome_of_eq_some hnow
    rw [← Table.contains, Table.contains_modify] at hthere
    exact Or.inr ⟨key, hthere, by rintro ⟨⟩, rfl⟩
  | setStatus place status =>
    rw [NetEdit.onPlaces] at hnow
    have hthere := Option.isSome_of_eq_some hnow
    rw [← Table.contains, Table.contains_modify] at hthere
    exact Or.inr ⟨key, hthere, by rintro ⟨⟩, rfl⟩
  | renamePlace old new =>
    have hthere := Option.isSome_of_eq_some hnow
    rw [NetEdit.onPlaces, ← Table.contains, Table.contains_modify, Table.contains,
      Table.get?_rename key (contains_places_of_isNode hallowed.1)] at hthere
    split at hthere
    · rename_i hnew
      exact Or.inr ⟨old, hthere, by rintro ⟨⟩, (if_pos rfl).trans hnew.symm⟩
    · split at hthere
      · cases hthere
      · rename_i hold
        exact Or.inr ⟨key, hthere, by rintro ⟨⟩, if_neg hold⟩
  | _ => exact Or.inr ⟨key, Option.isSome_of_eq_some hnow, by rintro ⟨⟩, rfl⟩

theorem restructured_of_perform (h : net.perform edit = .ok (removed, after))
    (hedit : ∀ place color n, edit ≠ .setTokens place color n) : net.Restructured edit after := by
  obtain ⟨hrevision, hmarking⟩ := counters_of_perform h hedit
  have heffect := effect_of_perform h
  refine ⟨hrevision, hmarking, fun id before hbefore hkept => ?_, fun key now hnow => ?_⟩
  · have htokens := tokens_onPlaces heffect.allowed hedit hbefore hkept
    rw [← heffect.places] at htokens
    exact Option.map_eq_some_iff.1 htokens
  · rw [heffect.places] at hnow
    refine (stem_onPlaces heffect.allowed hedit hnow).imp_right ?_
    rintro ⟨id, hthere, hkept, rfl⟩
    obtain ⟨before, hbefore⟩ := Option.isSome_iff_exists.1 hthere
    -- the place it stems from has kept its tokens, and there is one place only under the key
    have htokens := tokens_onPlaces heffect.allowed hedit hbefore hkept
    rw [hnow] at htokens
    exact ⟨id, before, hbefore, rfl, Option.some.inj htokens⟩

theorem signals_of_perform (h : net.perform edit = .ok (removed, after)) : net.Signals edit after := by
  cases edit with
  | setTokens place color n => exact restocked_setTokens (changed_eq_ok h)
  | _ => exact restructured_of_perform h nofun

/-- An edit that is made in place, check by check and write by write, ends as the edit that answers a new net
does. If it is refused, the net is the one of before, with both of its counters. If not, either one count was set
and the marking counter tells of it, or it is the other counter that does, and the places that remain have
kept their tokens. -/
theorem signalled (net : Net) (edit : NetEdit) :
    edit.carryOut net = (net.attempt edit, (net.perform edit).map fun _ => ()) ∧
      match edit.carryOut net with
      | (after, .error _) => after = net
      | (after, .ok ()) => net.Signals edit after := by
  rw [NetEdit.carryOut_eq, attempt]
  refine ⟨rfl, ?_⟩
  cases h : net.perform edit with
  | error e => rfl
  | ok result => exact signals_of_perform h

end Net

end PetriTree
