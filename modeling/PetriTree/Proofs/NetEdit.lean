import PetriTree.Net.Edit
import PetriTree.Proofs.Assembly

/-!
# PetriTree — nets made by edits

A net starts empty and is changed by edits only, each of which is checked. What an edit leaves alone and
what it checks before it adds something are the two sources of every invariant of nets.

Main results:
* `Net.Built` — the nets that edits lead to;
* `Net.Anchored` — transitions are filed under their ids and every arc is attached to one of them;
* `Net.Built.anchored` — every net made by edits is anchored.
-/

namespace PetriTree

namespace Table

variable {t : Table α} {name : String}

theorem mem_entries_insert {value : α} {e : String × α} (h : e ∈ (t.insert name value).entries) :
    e = (name, value) ∨ e ∈ t.entries := by
  have hfound := get?_eq_some_iff.2 (h : (e.1, e.2) ∈ (t.insert name value).entries)
  rw [get?_insert] at hfound
  split at hfound
  · rename_i hkey
    cases hfound
    exact Or.inl (Prod.ext hkey.symm rfl)
  · exact Or.inr (get?_eq_some_iff.1 hfound)

theorem mem_values_insert {value v : α} (h : v ∈ (t.insert name value).values) :
    v = value ∨ v ∈ t.values := by
  obtain ⟨e, he, rfl⟩ := List.mem_map.1 h
  rcases mem_entries_insert he with rfl | he
  · exact Or.inl rfl
  · exact Or.inr (List.mem_map_of_mem he)

theorem mem_values_filter {keep : String → α → Bool} {v : α} (h : v ∈ (t.filter keep).values) :
    v ∈ t.values ∧ ∃ key, keep key v = true := by
  obtain ⟨e, he, rfl⟩ := List.mem_map.1 h
  obtain ⟨hmem, hkeep⟩ := List.mem_filter.1 he
  exact ⟨List.mem_map_of_mem hmem, _, hkeep⟩

theorem mem_values_map {f : String → α → β} {v : β} (h : v ∈ (t.map f).values) :
    ∃ key, ∃ u ∈ t.values, v = f key u := by
  obtain ⟨e, he, rfl⟩ := List.mem_map.1 h
  obtain ⟨d, hd, rfl⟩ := List.mem_map.1 he
  exact ⟨d.1, d.2, List.mem_map_of_mem hd, rfl⟩

theorem contains_insert (value : α) (key : String) :
    (t.insert name value).contains key = (decide (name = key) || t.contains key) := by
  rw [contains, get?_insert, contains]
  by_cases h : name = key <;> simp [h]

theorem contains_erase (key : String) :
    (t.erase name).contains key = (decide (name ≠ key) && t.contains key) := by
  rw [contains, get?_erase, contains]
  by_cases h : name = key <;> simp [h]

theorem contains_map (f : String → α → β) (key : String) : (t.map f).contains key = t.contains key := by
  rw [contains, get?_map, contains, Option.isSome_map]

theorem values_rename (old new : String) : (t.rename old new).values = t.values := by
  unfold rename
  split
  · rfl
  · simp [values, Function.comp_def]

end Table

namespace Net

/-- The nets that edits lead to. The name of a net may be changed at any time. -/
inductive Built : Net → Prop
  | new (name : String) : Built (Net.new name)
  | named {net : Net} (name : String) : Built net → Built { net with name := name }
  | perform {net after : Net} {edit : NetEdit} {removed : Option Component} : Built net →
      net.perform edit = .ok (removed, after) → Built after

/-- Transitions are filed under their ids and every arc is attached to one of them. -/
structure Anchored (net : Net) : Prop where
  keys : ∀ e ∈ net.transitions.entries, e.2.id = e.1
  ends : ∀ arc ∈ net.arcs.values, net.transitions.contains arc.transition = true

/-! ## What a successful edit was

One lemma for each edit: the checks it passed and the net it leaves. -/

section Edits

variable {net after : Net} {id : String}

theorem refuseIf_eq_ok {condition : Bool} {error : NetError} {done : Unit} :
    refuseIf condition error = .ok done ↔ condition = false := by
  cases condition <;> simp [refuseIf]

theorem required_eq_ok {kind : ComponentKind} {found : Option α} {value : α} :
    NetError.required id kind found = .ok value ↔ found = some value := by
  cases found <;> simp [NetError.required]

theorem checkExpression_eq_ok {text : String} {done : Unit} :
    checkExpression id text = .ok done ↔ ∃ e, Expr.ofText text = .ok e := by
  cases h : Expr.ofText text <;> simp [checkExpression, h]

theorem changed_eq_ok {result : Except NetError Net} {removed : Option Component}
    (h : changed result = .ok (removed, after)) : result = .ok after := by
  obtain ⟨net, hnet, heq⟩ := map_eq_ok.1 h
  cases heq
  exact hnet

theorem taken_eq_ok {wrap : α → Component} {result : Except NetError (α × Net)}
    {removed : Option Component} (h : taken wrap result = .ok (removed, after)) :
    ∃ value, result = .ok (value, after) := by
  obtain ⟨⟨value, net⟩, hnet, heq⟩ := map_eq_ok.1 h
  cases heq
  exact ⟨value, hnet⟩

theorem addColor_eq_ok {color : TokenColor} (h : net.addColor color = .ok after) :
    net.colors.contains color.id = false ∧
      after = { net with colors := net.colors.insert color.id color }.touch := by
  simp only [addColor, bind_eq_ok, refuseIf_eq_ok, pure_eq_ok] at h
  obtain ⟨_, hfresh, h⟩ := h
  exact ⟨hfresh, h.symm⟩

theorem addNote_eq_ok {note : Note} (h : net.addNote note = .ok after) :
    net.notes.contains note.id = false ∧
      after = { net with notes := net.notes.insert note.id note }.touch := by
  simp only [addNote, bind_eq_ok, refuseIf_eq_ok, pure_eq_ok] at h
  obtain ⟨_, hfresh, h⟩ := h
  exact ⟨hfresh, h.symm⟩

theorem addPlace_eq_ok {place : Place} (h : net.addPlace place = .ok after) :
    net.isNode place.id = false ∧
      after = { net with places := net.places.insert place.id place }.touch := by
  simp only [addPlace, bind_eq_ok, refuseIf_eq_ok, pure_eq_ok] at h
  obtain ⟨_, hfresh, h⟩ := h
  exact ⟨hfresh, h.symm⟩

theorem addParameter_eq_ok {parameter : RateParameter} (h : net.addParameter parameter = .ok after) :
    net.parameters.contains parameter.id = false ∧ (∃ e, Expr.ofText parameter.expression = .ok e) ∧
      after = { net with parameters := net.parameters.insert parameter.id parameter }.touch := by
  simp only [addParameter, bind_eq_ok, refuseIf_eq_ok, checkExpression_eq_ok, pure_eq_ok] at h
  obtain ⟨_, hfresh, _, hreads, h⟩ := h
  exact ⟨hfresh, hreads, h.symm⟩

theorem addTransition_eq_ok {transition : Transition} (h : net.addTransition transition = .ok after) :
    net.isNode transition.id = false ∧
      (∀ text, transition.rate = .expression text → ∃ e, Expr.ofText text = .ok e) ∧
      (∀ key, transition.rate = .parameter key → net.parameters.contains key = true) ∧
      after = { net with transitions := net.transitions.insert transition.id transition }.touch := by
  cases hrate : transition.rate with
  | expression text =>
    simp only [addTransition, hrate, bind_eq_ok, refuseIf_eq_ok, checkExpression_eq_ok, pure_eq_ok] at h
    obtain ⟨_, hfresh, _, hreads, h⟩ := h
    refine ⟨hfresh, ?_, ?_, h.symm⟩
    · rintro _ ⟨⟩
      exact hreads
    · rintro _ ⟨⟩
  | parameter key =>
    simp only [addTransition, hrate, bind_eq_ok, refuseIf_eq_ok, pure_eq_ok, Bool.not_eq_false'] at h
    obtain ⟨_, hfresh, _, hkey, h⟩ := h
    refine ⟨hfresh, ?_, ?_, h.symm⟩
    · rintro _ ⟨⟩
    · rintro _ ⟨⟩
      exact hkey

theorem addArc_eq_ok {arc : Arc} (h : net.addArc arc = .ok after) :
    net.arcs.contains arc.id = false ∧
      (∃ place, net.places.get? arc.place = some place ∧ checkStatus arc place.status = .ok ()) ∧
      net.transitions.contains arc.transition = true ∧ (arc.isInbound = true ∨ arc.kind = .normal) ∧
      checkWeights net arc.id arc.weights.entries = .ok () ∧
      after = { net with arcs := net.arcs.insert arc.id arc }.touch := by
  rw [addArc, bind_eq_ok] at h
  obtain ⟨_, hfresh, h⟩ := h
  split at h
  · rename_i place hplace htransition
    simp only [bind_eq_ok, refuseIf_eq_ok, pure_eq_ok] at h
    obtain ⟨_, hstatus, _, hkind, _, hweights, h⟩ := h
    refine ⟨refuseIf_eq_ok.1 hfresh, ⟨place, hplace, hstatus⟩, htransition, ?_, hweights, h.symm⟩
    cases hinbound : arc.isInbound
    · exact Or.inr (by simpa [hinbound] using hkind)
    · exact Or.inl rfl
  · rw [bind_eq_ok] at h
    obtain ⟨_, h, _⟩ := h
    cases h

theorem removePlace_eq_ok {place : Place} (h : net.removePlace id = .ok (place, after)) :
    net.places.get? id = some place ∧
      after = { net with
        places := net.places.erase id
        arcs := net.arcs.filter fun _ arc => arc.place != id }.touch := by
  simp only [removePlace, Net.place, bind_eq_ok, required_eq_ok, pure_eq_ok] at h
  obtain ⟨_, hplace, h⟩ := h
  cases h
  exact ⟨hplace, rfl⟩

theorem removeTransition_eq_ok {transition : Transition}
    (h : net.removeTransition id = .ok (transition, after)) :
    net.transitions.get? id = some transition ∧
      after = { net with
        transitions := net.transitions.erase id
        arcs := net.arcs.filter fun _ arc => arc.transition != id }.touch := by
  simp only [removeTransition, Net.transition, bind_eq_ok, required_eq_ok, pure_eq_ok] at h
  obtain ⟨_, htransition, h⟩ := h
  cases h
  exact ⟨htransition, rfl⟩

theorem removeArc_eq_ok {arc : Arc} (h : net.removeArc id = .ok (arc, after)) :
    net.arcs.get? id = some arc ∧ after = { net with arcs := net.arcs.erase id }.touch := by
  simp only [removeArc, Net.arc, bind_eq_ok, required_eq_ok, pure_eq_ok] at h
  obtain ⟨_, harc, h⟩ := h
  cases h
  exact ⟨harc, rfl⟩

theorem removeParameter_eq_ok {parameter : RateParameter}
    (h : net.removeParameter id = .ok (parameter, after)) :
    (∀ t ∈ net.transitions.values, t.rate ≠ .parameter id) ∧ net.parameters.get? id = some parameter ∧
      after = { net with parameters := net.parameters.erase id }.touch := by
  rw [removeParameter] at h
  split at h
  · cases h
  · rename_i hunused
    simp only [bind_eq_ok, required_eq_ok, pure_eq_ok] at h
    obtain ⟨_, _, _, hparameter, h⟩ := h
    cases h
    refine ⟨fun t ht => ?_, hparameter, rfl⟩
    simpa using List.find?_eq_none.1 hunused t ht

theorem setTokens_eq_ok {color : String} {n : Count} (h : net.setTokens id color n = .ok after) :
    net.colors.contains color = true ∧ (∃ place, net.places.get? id = some place) ∧
      after = { net with
        places := net.places.modify id fun p => { p with tokens := p.tokens.insert color n }
        markingRevision := net.markingRevision + 1 } := by
  simp only [setTokens, Net.place, bind_eq_ok, refuseIf_eq_ok, required_eq_ok, pure_eq_ok,
    Bool.not_eq_false'] at h
  obtain ⟨_, hcolor, place, hplace, h⟩ := h
  exact ⟨hcolor, ⟨place, hplace⟩, h.symm⟩

theorem setCapacity_eq_ok {capacity : UInt64} (h : net.setCapacity id capacity = .ok after) :
    (∃ place, net.places.get? id = some place) ∧
      after = { net with
        places := net.places.modify id fun p => { p with capacity := capacity } }.touch := by
  simp only [setCapacity, Net.place, bind_eq_ok, required_eq_ok, pure_eq_ok] at h
  obtain ⟨place, hplace, h⟩ := h
  exact ⟨⟨place, hplace⟩, h.symm⟩

theorem setStatus_eq_ok {status : PlaceStatus} (h : net.setStatus id status = .ok after) :
    (∃ place, net.places.get? id = some place) ∧
      after = { net with places := net.places.modify id fun p => { p with status := status } }.touch := by
  simp only [setStatus, Net.place, bind_eq_ok, required_eq_ok, pure_eq_ok] at h
  obtain ⟨place, hplace, h⟩ := h
  exact ⟨⟨place, hplace⟩, h.symm⟩

theorem setWeight_eq_ok {color text : String} (h : net.setWeight id color text = .ok after) :
    (∃ e, Expr.ofText text = .ok e) ∧ net.colors.contains color = true ∧
      (∃ arc, net.arcs.get? id = some arc) ∧
      after = { net with
        arcs := net.arcs.modify id fun a => { a with weights := a.weights.insert color text } }.touch := by
  simp only [setWeight, Net.arc, bind_eq_ok, refuseIf_eq_ok, checkExpression_eq_ok, required_eq_ok,
    pure_eq_ok, Bool.not_eq_false'] at h
  obtain ⟨_, hreads, _, hcolor, arc, harc, h⟩ := h
  exact ⟨hreads, hcolor, ⟨arc, harc⟩, h.symm⟩

/-- A rate that is a parameter is not looked up. -/
theorem setRate_eq_ok {rate : Rate} (h : net.setRate id rate = .ok after) :
    (∀ text, rate = .expression text → ∃ e, Expr.ofText text = .ok e) ∧
      (∃ transition, net.transitions.get? id = some transition) ∧
      after = { net with transitions := net.transitions.modify id fun t => { t with rate := rate } }.touch := by
  cases rate with
  | expression text =>
    simp only [setRate, Net.transition, bind_eq_ok, checkExpression_eq_ok, required_eq_ok, pure_eq_ok] at h
    obtain ⟨_, hreads, transition, htransition, h⟩ := h
    refine ⟨?_, ⟨transition, htransition⟩, h.symm⟩
    rintro _ ⟨⟩
    exact hreads
  | parameter key =>
    simp only [setRate, Net.transition, bind_eq_ok, required_eq_ok, pure_eq_ok] at h
    obtain ⟨_, _, transition, htransition, h⟩ := h
    refine ⟨?_, ⟨transition, htransition⟩, h.symm⟩
    rintro _ ⟨⟩

theorem setDelay_eq_ok {delay : UInt64} (h : net.setDelay id delay = .ok after) :
    (∃ transition, net.transitions.get? id = some transition) ∧
      after = { net with
        transitions := net.transitions.modify id fun t => { t with delay := delay } }.touch := by
  simp only [setDelay, Net.transition, bind_eq_ok, required_eq_ok, pure_eq_ok] at h
  obtain ⟨transition, htransition, h⟩ := h
  exact ⟨⟨transition, htransition⟩, h.symm⟩

theorem renamePlace_eq_ok {new : String} (h : net.renamePlace id new = .ok after) :
    net.isNode new = false ∧ (∃ place, net.places.get? id = some place) ∧
      after = { net with
        arcs := net.arcs.map fun _ arc => { arc with
          place := Table.renamed id new arc.place
          weights := arc.weights.map fun _ => renameInText id new }
        parameters := net.parameters.map fun _ p =>
          { p with expression := renameInText id new p.expression }
        transitions := net.transitions.map fun _ t => { t with rate := renameInRate id new t.rate }
        places := (net.places.rename id new).modify new fun p => { p with id := new } }.touch := by
  simp only [renamePlace, Net.place, bind_eq_ok, refuseIf_eq_ok, required_eq_ok, pure_eq_ok] at h
  obtain ⟨_, hfresh, place, hplace, h⟩ := h
  exact ⟨hfresh, ⟨place, hplace⟩, h.symm⟩

end Edits

/-! ## Edits that commands on trees make -/

namespace Built

variable {net after : Net} {id : String}

theorem removePlace (h : net.Built) {place : Place} (hedit : net.removePlace id = .ok (place, after)) :
    after.Built :=
  @perform _ _ (.removePlace id) (some (.place place)) h (map_eq_ok.2 ⟨_, hedit, rfl⟩)

theorem setStatus (h : net.Built) {status : PlaceStatus} (hedit : net.setStatus id status = .ok after) :
    after.Built :=
  @perform _ _ (.setStatus id status) none h (map_eq_ok.2 ⟨after, hedit, rfl⟩)

theorem renamePlace (h : net.Built) {new : String} (hedit : net.renamePlace id new = .ok after) :
    after.Built :=
  @perform _ _ (.renamePlace id new) none h (map_eq_ok.2 ⟨after, hedit, rfl⟩)

theorem add (h : net.Built) {component : Component} (hedit : net.add component = .ok after) : after.Built :=
  @perform _ _ (.add component) none h (map_eq_ok.2 ⟨after, hedit, rfl⟩)

theorem addPlace (h : net.Built) {place : Place} (hedit : net.addPlace place = .ok after) : after.Built :=
  @add _ _ h (.place place) hedit

/-- Adding components one after the other, whether they are refused or not. -/
theorem addAll (h : net.Built) (components : List Component) : (net.addAll components).1.Built := by
  refine List.foldlRecOn (motive := fun state : Net × List (Nat × NetError) => state.1.Built) _ _ h ?_
  rintro ⟨built, refused⟩ hstate ⟨component, place⟩ _
  dsimp only
  split
  · rename_i hedit
    exact hstate.add hedit
  · exact hstate

end Built

/-! ## Attached arcs -/

/-- An edit that keeps the transitions, and every arc at its transition. -/
theorem Anchored.keep {net after : Net} (h : net.Anchored)
    (hkeys : ∀ e ∈ after.transitions.entries, ∃ d ∈ net.transitions.entries, e.1 = d.1 ∧ e.2.id = d.2.id)
    (hnames : ∀ id, after.transitions.contains id = net.transitions.contains id)
    (harcs : ∀ arc ∈ after.arcs.values, ∃ arc' ∈ net.arcs.values, arc.transition = arc'.transition) :
    after.Anchored where
  keys e he := by
    obtain ⟨d, hd, hkey, hid⟩ := hkeys e he
    rw [hid, hkey, h.keys d hd]
  ends arc harc := by
    obtain ⟨arc', harc', heq⟩ := harcs arc harc
    rw [hnames, heq, h.ends arc' harc']

/-- An edit that leaves the transitions alone and takes out arcs at most. -/
theorem Anchored.fewer {net after : Net} (h : net.Anchored) (htransitions : after.transitions = net.transitions)
    (harcs : ∀ arc ∈ after.arcs.values, arc ∈ net.arcs.values) : after.Anchored :=
  h.keep (fun e he => ⟨e, htransitions ▸ he, rfl, rfl⟩) (fun id => by rw [htransitions])
    fun arc harc => ⟨arc, harcs arc harc, rfl⟩

/-- An edit that changes transitions, but not their ids, and keeps every arc at its transition. -/
theorem Anchored.map {net after : Net} (h : net.Anchored) {f : String → Transition → Transition}
    (htransitions : after.transitions = net.transitions.map f) (hid : ∀ key t, (f key t).id = t.id)
    (harcs : ∀ arc ∈ after.arcs.values, ∃ arc' ∈ net.arcs.values, arc.transition = arc'.transition) :
    after.Anchored := by
  refine h.keep (fun e he => ?_) (fun id => ?_) harcs
  · rw [htransitions] at he
    obtain ⟨d, hd, rfl⟩ := List.mem_map.1 he
    exact ⟨d, hd, rfl, hid _ _⟩
  · rw [htransitions, Table.contains_map]

theorem Anchored.modify {net after : Net} (h : net.Anchored) {name : String} {f : Transition → Transition}
    (htransitions : after.transitions = net.transitions.modify name f) (hid : ∀ t, (f t).id = t.id)
    (harcs : after.arcs = net.arcs) : after.Anchored := by
  refine h.map htransitions (fun key t => ?_) fun arc harc => ⟨arc, harcs ▸ harc, rfl⟩
  split
  · exact hid t
  · rfl

theorem Anchored.addTransition {net after : Net} {transition : Transition} (h : net.Anchored)
    (hedit : net.addTransition transition = .ok after) : after.Anchored := by
  obtain ⟨_, _, _, rfl⟩ := addTransition_eq_ok hedit
  refine ⟨fun e he => ?_, fun arc harc => ?_⟩
  · rcases Table.mem_entries_insert he with rfl | he
    · rfl
    · exact h.keys e he
  · simp only [touch, Table.contains_insert, h.ends arc harc, Bool.or_true]

theorem Anchored.addArc {net after : Net} {arc : Arc} (h : net.Anchored) (hedit : net.addArc arc = .ok after) :
    after.Anchored := by
  obtain ⟨_, _, htransition, _, _, rfl⟩ := addArc_eq_ok hedit
  refine ⟨h.keys, fun other hother => ?_⟩
  rcases Table.mem_values_insert hother with rfl | hother
  · exact htransition
  · exact h.ends other hother

theorem Anchored.add {net after : Net} {component : Component} (h : net.Anchored)
    (hedit : net.add component = .ok after) : after.Anchored := by
  cases component with
  | transition value => exact h.addTransition hedit
  | arc value => exact h.addArc hedit
  | color value =>
    obtain ⟨_, rfl⟩ := addColor_eq_ok hedit
    exact h.fewer rfl fun _ harc => harc
  | note value =>
    obtain ⟨_, rfl⟩ := addNote_eq_ok hedit
    exact h.fewer rfl fun _ harc => harc
  | place value =>
    obtain ⟨_, rfl⟩ := addPlace_eq_ok hedit
    exact h.fewer rfl fun _ harc => harc
  | rateParameter value =>
    obtain ⟨_, _, rfl⟩ := addParameter_eq_ok hedit
    exact h.fewer rfl fun _ harc => harc

theorem Anchored.removeTransition {net after : Net} {id : String} {transition : Transition} (h : net.Anchored)
    (hedit : net.removeTransition id = .ok (transition, after)) : after.Anchored := by
  obtain ⟨_, rfl⟩ := removeTransition_eq_ok hedit
  refine ⟨fun e he => h.keys e (List.mem_filter.1 he).1, fun arc harc => ?_⟩
  obtain ⟨harc, _, hother⟩ := Table.mem_values_filter harc
  have hne : id ≠ arc.transition := fun heq => by simp [heq] at hother
  simp only [touch, Table.contains_erase, h.ends arc harc, Bool.and_true]
  exact decide_eq_true hne

theorem Anchored.setWeight {net after : Net} {id color text : String} (h : net.Anchored)
    (hedit : net.setWeight id color text = .ok after) : after.Anchored := by
  obtain ⟨_, _, _, rfl⟩ := setWeight_eq_ok hedit
  refine h.keep (fun e he => ⟨e, he, rfl, rfl⟩) (fun _ => rfl) fun arc harc => ?_
  obtain ⟨key, before, hbefore, rfl⟩ := Table.mem_values_map harc
  refine ⟨before, hbefore, ?_⟩
  split <;> rfl

theorem Anchored.renamePlace {net after : Net} {old new : String} (h : net.Anchored)
    (hedit : net.renamePlace old new = .ok after) : after.Anchored := by
  obtain ⟨_, _, rfl⟩ := renamePlace_eq_ok hedit
  refine h.map (f := fun _ t => { t with rate := renameInRate old new t.rate }) rfl (fun _ _ => rfl)
    fun arc harc => ?_
  obtain ⟨key, before, hbefore, rfl⟩ := Table.mem_values_map harc
  exact ⟨before, hbefore, rfl⟩

/-- Whatever an edit does, arcs stay attached. -/
theorem Anchored.perform {net after : Net} {edit : NetEdit} {removed : Option Component} (h : net.Anchored)
    (hedit : net.perform edit = .ok (removed, after)) : after.Anchored := by
  cases edit with
  | add component => exact h.add (changed_eq_ok hedit)
  | removeTransition id =>
    obtain ⟨transition, hedit⟩ := taken_eq_ok hedit
    exact h.removeTransition hedit
  | setWeight arc color text => exact h.setWeight (changed_eq_ok hedit)
  | renamePlace old new => exact h.renamePlace (changed_eq_ok hedit)
  -- arcs are taken out, transitions are left alone
  | removePlace id =>
    obtain ⟨place, hedit⟩ := taken_eq_ok hedit
    obtain ⟨_, rfl⟩ := removePlace_eq_ok hedit
    exact h.fewer rfl fun _ harc => (Table.mem_values_filter harc).1
  | removeArc id =>
    obtain ⟨arc, hedit⟩ := taken_eq_ok hedit
    obtain ⟨_, rfl⟩ := removeArc_eq_ok hedit
    exact h.fewer rfl fun _ harc => (Table.mem_values_filter harc).1
  -- neither arcs nor transitions are touched
  | removeParameter id =>
    obtain ⟨parameter, hedit⟩ := taken_eq_ok hedit
    obtain ⟨_, _, rfl⟩ := removeParameter_eq_ok hedit
    exact h.fewer rfl fun _ harc => harc
  | setTokens place color n =>
    obtain ⟨_, _, rfl⟩ := setTokens_eq_ok (changed_eq_ok hedit)
    exact h.fewer rfl fun _ harc => harc
  | setCapacity place capacity =>
    obtain ⟨_, rfl⟩ := setCapacity_eq_ok (changed_eq_ok hedit)
    exact h.fewer rfl fun _ harc => harc
  | setStatus place status =>
    obtain ⟨_, rfl⟩ := setStatus_eq_ok (changed_eq_ok hedit)
    exact h.fewer rfl fun _ harc => harc
  -- one transition changes, its id stays
  | setRate transition rate =>
    obtain ⟨_, _, rfl⟩ := setRate_eq_ok (changed_eq_ok hedit)
    exact h.modify (f := fun t => { t with rate := rate }) rfl (fun _ => rfl) rfl
  | setDelay transition delay =>
    obtain ⟨_, rfl⟩ := setDelay_eq_ok (changed_eq_ok hedit)
    exact h.modify (f := fun t => { t with delay := delay }) rfl (fun _ => rfl) rfl

/-- Every net made by edits is anchored. -/
theorem Built.anchored {net : Net} (h : net.Built) : net.Anchored := by
  induction h with
  | new name =>
    refine ⟨fun e he => ?_, fun arc harc => ?_⟩
    · simp [Net.new, Table.empty] at he
    · simp [Net.new, Table.empty, Table.values] at harc
  | named name _ ih => exact ⟨ih.keys, ih.ends⟩
  | perform _ hedit ih => exact ih.perform hedit

end Net

end PetriTree
