import PetriTree.Proofs.NetEdit

/-!
# PetriTree — what an edit checks and changes

An edit that is not refused has passed its checks and changed each table of the net in one way. Both are
said here once and for all edits, table by table, so that an invariant of nets looks at the few edits that
touch its tables and at none of the others.

Main results:
* `Net.Allows` — the checks of an edit;
* `NetEdit.onColors` … `NetEdit.onArcs` — what it makes of each table;
* `Net.effect_of_perform` — an edit that is not refused is allowed, and these are the tables after it.
-/

namespace PetriTree

/-! ## Changes of tables -/

namespace NetEdit

def onColors : NetEdit → Table TokenColor → Table TokenColor
  | .add (.color color), t => t.insert color.id color
  | _, t => t

def onNotes : NetEdit → Table Note → Table Note
  | .add (.note note), t => t.insert note.id note
  | _, t => t

def onPlaces : NetEdit → Table Place → Table Place
  | .add (.place place), t => t.insert place.id place
  | .removePlace id, t => t.erase id
  | .setTokens id color n, t => t.modify id fun p => { p with tokens := p.tokens.insert color n }
  | .setCapacity id capacity, t => t.modify id fun p => { p with capacity := capacity }
  | .setStatus id status, t => t.modify id fun p => { p with status := status }
  | .renamePlace old new, t => (t.rename old new).modify new fun p => { p with id := new }
  | _, t => t

def onParameters : NetEdit → Table RateParameter → Table RateParameter
  | .add (.rateParameter parameter), t => t.insert parameter.id parameter
  | .removeParameter id, t => t.erase id
  | .renamePlace old new, t =>
    t.map fun _ p => { p with expression := Net.renameInText old new p.expression }
  | _, t => t

def onTransitions : NetEdit → Table Transition → Table Transition
  | .add (.transition transition), t => t.insert transition.id transition
  | .removeTransition id, t => t.erase id
  | .setRate id rate, t => t.modify id fun t => { t with rate := rate }
  | .setDelay id delay, t => t.modify id fun t => { t with delay := delay }
  | .renamePlace old new, t => t.map fun _ t => { t with rate := Net.renameInRate old new t.rate }
  | _, t => t

def onArcs : NetEdit → Table Arc → Table Arc
  | .add (.arc arc), t => t.insert arc.id arc
  | .removePlace id, t => t.filter fun _ arc => arc.place != id
  | .removeTransition id, t => t.filter fun _ arc => arc.transition != id
  | .removeArc id, t => t.erase id
  | .setWeight id color text, t => t.modify id fun a => { a with weights := a.weights.insert color text }
  | .renamePlace old new, t => t.map fun _ arc => { arc with
      place := Table.renamed old new arc.place
      weights := arc.weights.map fun _ => Net.renameInText old new }
  | _, t => t

end NetEdit

namespace Net

variable {net after : Net} {edit : NetEdit} {removed : Option Component}

/-! ## Checks -/

/-- The text is an expression. -/
def Reads (text : String) : Prop := ∃ e, Expr.ofText text = .ok e

/-- Both ends of the arc are there, the status of its place is respected, and so are its kind and its
weights. -/
structure Admits (net : Net) (arc : Arc) : Prop where
  place : ∃ place, net.places.get? arc.place = some place ∧ checkStatus arc place.status = .ok ()
  transition : net.transitions.contains arc.transition = true
  kind : arc.isInbound = true ∨ arc.kind = .normal
  weights : net.checkWeights arc.id arc.weights.entries = .ok ()

/-- Nothing in the net stands against the edit. A rate that is a parameter is looked up when its transition
is added, and not when it is set. -/
def Allows (net : Net) : NetEdit → Prop
  | .add (.color color) => net.colors.contains color.id = false
  | .add (.note note) => net.notes.contains note.id = false
  | .add (.place place) => net.isNode place.id = false
  | .add (.rateParameter parameter) =>
    net.parameters.contains parameter.id = false ∧ Reads parameter.expression
  | .add (.transition transition) => net.isNode transition.id = false ∧
      (∀ text, transition.rate = .expression text → Reads text) ∧
      ∀ key, transition.rate = .parameter key → net.parameters.contains key = true
  | .add (.arc arc) => net.arcs.contains arc.id = false ∧ net.Admits arc
  | .removePlace id | .setCapacity id _ | .setStatus id _ => net.places.contains id = true
  | .removeTransition id | .setDelay id _ => net.transitions.contains id = true
  | .removeArc id => net.arcs.contains id = true
  | .removeParameter id =>
    (∀ t ∈ net.transitions.values, t.rate ≠ .parameter id) ∧ net.parameters.contains id = true
  | .setTokens id color _ => net.colors.contains color = true ∧ net.places.contains id = true
  | .setWeight id color text =>
    Reads text ∧ net.colors.contains color = true ∧ net.arcs.contains id = true
  | .setRate id rate =>
    (∀ text, rate = .expression text → Reads text) ∧ net.transitions.contains id = true
  | .renamePlace old new => net.isNode new = false ∧ net.places.contains old = true

/-- The edit was allowed, and this is the net after it. -/
structure Effect (net : Net) (edit : NetEdit) (after : Net) : Prop where
  allowed : net.Allows edit
  colors : after.colors = edit.onColors net.colors
  notes : after.notes = edit.onNotes net.notes
  places : after.places = edit.onPlaces net.places
  parameters : after.parameters = edit.onParameters net.parameters
  transitions : after.transitions = edit.onTransitions net.transitions
  arcs : after.arcs = edit.onArcs net.arcs

theorem contains_of_get? {α : Type} {t : Table α} {name : String} (h : ∃ value, t.get? name = some value) :
    t.contains name = true := Option.isSome_iff_exists.2 h

theorem effect_of_add {component : Component} (h : net.add component = .ok after) :
    net.Effect (.add component) after := by
  cases component with
  | color value =>
    obtain ⟨hfresh, rfl⟩ := addColor_eq_ok h
    exact ⟨hfresh, rfl, rfl, rfl, rfl, rfl, rfl⟩
  | note value =>
    obtain ⟨hfresh, rfl⟩ := addNote_eq_ok h
    exact ⟨hfresh, rfl, rfl, rfl, rfl, rfl, rfl⟩
  | place value =>
    obtain ⟨hfresh, rfl⟩ := addPlace_eq_ok h
    exact ⟨hfresh, rfl, rfl, rfl, rfl, rfl, rfl⟩
  | rateParameter value =>
    obtain ⟨hfresh, hreads, rfl⟩ := addParameter_eq_ok h
    exact ⟨⟨hfresh, hreads⟩, rfl, rfl, rfl, rfl, rfl, rfl⟩
  | transition value =>
    obtain ⟨hfresh, hreads, hknown, rfl⟩ := addTransition_eq_ok h
    exact ⟨⟨hfresh, hreads, hknown⟩, rfl, rfl, rfl, rfl, rfl, rfl⟩
  | arc value =>
    obtain ⟨hfresh, hplace, htransition, hkind, hweights, rfl⟩ := addArc_eq_ok h
    exact ⟨⟨hfresh, hplace, htransition, hkind, hweights⟩, rfl, rfl, rfl, rfl, rfl, rfl⟩

/-- An edit that is not refused is allowed, and changes each table as it says. -/
theorem effect_of_perform (h : net.perform edit = .ok (removed, after)) : net.Effect edit after := by
  cases edit with
  | add component => exact effect_of_add (changed_eq_ok h)
  | removePlace id =>
    obtain ⟨place, h⟩ := taken_eq_ok h
    obtain ⟨hplace, rfl⟩ := removePlace_eq_ok h
    exact ⟨contains_of_get? ⟨_, hplace⟩, rfl, rfl, rfl, rfl, rfl, rfl⟩
  | removeTransition id =>
    obtain ⟨transition, h⟩ := taken_eq_ok h
    obtain ⟨htransition, rfl⟩ := removeTransition_eq_ok h
    exact ⟨contains_of_get? ⟨_, htransition⟩, rfl, rfl, rfl, rfl, rfl, rfl⟩
  | removeArc id =>
    obtain ⟨arc, h⟩ := taken_eq_ok h
    obtain ⟨harc, rfl⟩ := removeArc_eq_ok h
    exact ⟨contains_of_get? ⟨_, harc⟩, rfl, rfl, rfl, rfl, rfl, rfl⟩
  | removeParameter id =>
    obtain ⟨parameter, h⟩ := taken_eq_ok h
    obtain ⟨hunused, hparameter, rfl⟩ := removeParameter_eq_ok h
    exact ⟨⟨hunused, contains_of_get? ⟨_, hparameter⟩⟩, rfl, rfl, rfl, rfl, rfl, rfl⟩
  | setTokens id color n =>
    obtain ⟨hcolor, hplace, rfl⟩ := setTokens_eq_ok (changed_eq_ok h)
    exact ⟨⟨hcolor, contains_of_get? hplace⟩, rfl, rfl, rfl, rfl, rfl, rfl⟩
  | setCapacity id capacity =>
    obtain ⟨hplace, rfl⟩ := setCapacity_eq_ok (changed_eq_ok h)
    exact ⟨contains_of_get? hplace, rfl, rfl, rfl, rfl, rfl, rfl⟩
  | setStatus id status =>
    obtain ⟨hplace, rfl⟩ := setStatus_eq_ok (changed_eq_ok h)
    exact ⟨contains_of_get? hplace, rfl, rfl, rfl, rfl, rfl, rfl⟩
  | setWeight id color text =>
    obtain ⟨hreads, hcolor, harc, rfl⟩ := setWeight_eq_ok (changed_eq_ok h)
    exact ⟨⟨hreads, hcolor, contains_of_get? harc⟩, rfl, rfl, rfl, rfl, rfl, rfl⟩
  | setRate id rate =>
    obtain ⟨hreads, htransition, rfl⟩ := setRate_eq_ok (changed_eq_ok h)
    exact ⟨⟨hreads, contains_of_get? htransition⟩, rfl, rfl, rfl, rfl, rfl, rfl⟩
  | setDelay id delay =>
    obtain ⟨htransition, rfl⟩ := setDelay_eq_ok (changed_eq_ok h)
    exact ⟨contains_of_get? htransition, rfl, rfl, rfl, rfl, rfl, rfl⟩
  | renamePlace old new =>
    obtain ⟨hfresh, hplace, rfl⟩ := renamePlace_eq_ok (changed_eq_ok h)
    exact ⟨⟨hfresh, contains_of_get? hplace⟩, rfl, rfl, rfl, rfl, rfl, rfl⟩

end Net

end PetriTree
