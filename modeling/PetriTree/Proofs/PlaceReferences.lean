import PetriTree.Proofs.Acceptance
import PetriTree.Proofs.PlaceRenaming

/-!
# PetriTree — who refers to a place

Giving up a used interface place takes the place out of the net, and a place does not go alone: every arc attached
to it goes as well, and an expression that reads it stays behind with a name that means nothing. So a node keeps the
place as long as something refers to it. What refers to a place is told here from the shape of the expressions,
`Expr.RefersTo`, apart from the walk that collects their mentions; the list that the net answers with is then exact,
part by part and in the order of its tables.

An arc is attached to a place by its place end only, and the list goes by these ends. Its other end should be a
transition, and no transition shares its id with a place; a net that was read from a document may still have an arc
whose transition end has the name of a place. Such an arc is not listed for it, and keeps that end when the place goes.

Main results:
* `Expr.mem_placeMentions_iff` — the walk finds a place at any depth;
* `Net.references_eq_referring`, `Net.nodup_referring` — the list of references, each of them once;
* `Net.givesUp_of_removePlace` — what is left of a net without the place;
* `IncludeTree.holdsOn_of_inUse`, `dropInterface_exact` — what keeps a used place;
* `IncludeTree.dropInterface_leaves_end` — an arc that keeps an end of that name.
-/

namespace PetriTree

/-! ## Expressions -/

namespace Expr

variable {place : String}

/-- Somewhere in the expression the tokens of the place are read, of one colour or of all, or its capacity is. -/
inductive RefersTo (place : String) : Expr → Prop
  | tokens (color : Option String) : RefersTo place (tokens place color)
  | capacity : RefersTo place (capacity place)
  | neg {inner : Expr} : RefersTo place inner → RefersTo place (neg inner)
  | left {operation : Operation} {left right : Expr} :
      RefersTo place left → RefersTo place (binary operation left right)
  | right {operation : Operation} {left right : Expr} :
      RefersTo place right → RefersTo place (binary operation left right)
  | argument {callee : Callee} {arguments : List Expr} {a : Expr} :
      a ∈ arguments → RefersTo place a → RefersTo place (call callee arguments)

theorem RefersTo.mem_placeMentions {e : Expr} (h : e.RefersTo place) : place ∈ e.placeMentions := by
  induction h with
  | tokens color => exact List.mem_singleton.2 rfl
  | capacity => exact List.mem_singleton.2 rfl
  | neg _ ih => exact ih
  | left _ ih => exact List.mem_append_left _ ih
  | right _ ih => exact List.mem_append_right _ ih
  | argument ha _ ih => exact placeMentions_subset_of_mem ha ih

/-- What the walk over an expression collects is what the expression refers to. -/
theorem mem_placeMentions_iff {e : Expr} : place ∈ e.placeMentions ↔ e.RefersTo place := by
  refine ⟨fun h => ?_, RefersTo.mem_placeMentions⟩
  induction e with
  | number value => cases h
  | parameter id => cases h
  | tokens other color =>
    obtain rfl := List.mem_singleton.1 h
    exact .tokens color
  | capacity other =>
    obtain rfl := List.mem_singleton.1 h
    exact .capacity
  | neg inner ih => exact .neg (ih h)
  | binary operation left right ihl ihr =>
    rcases List.mem_append.1 h with h | h
    · exact .left (ihl h)
    · exact .right (ihr h)
  | call callee arguments ih =>
    rw [placeMentions, placeMentionsAll_eq] at h
    obtain ⟨a, ha, h⟩ := List.mem_flatMap.1 h
    exact .argument ha (ih a ha h)

/-- The text is an expression that refers to the place. -/
def TextRefersTo (place text : String) : Prop := ∃ e, ofText text = .ok e ∧ e.RefersTo place

theorem textMentions_iff {text : String} : Net.textMentions place text = true ↔ TextRefersTo place text := by
  cases he : ofText text with
  | error problem =>
    rw [Net.textMentions_of_error he]
    refine ⟨fun h => absurd h Bool.false_ne_true, ?_⟩
    rintro ⟨e, hread, _⟩
    rw [he] at hread
    cases hread
  | ok e =>
    rw [Net.textMentions_of_ok he, mentionsPlace, List.contains_iff_mem, mem_placeMentions_iff]
    refine ⟨fun h => ⟨e, he, h⟩, ?_⟩
    rintro ⟨read, hread, h⟩
    cases Except.ok.inj (he.symm.trans hread)
    exact h

instance (place text : String) : Decidable (TextRefersTo place text) := decidable_of_iff _ textMentions_iff

end Expr

/-! ## Components -/

section Components

variable {place : String}

/-- The arc is attached to the place, by its place end, or one of its weights refers to it. -/
def Arc.RefersTo (place : String) (arc : Arc) : Prop :=
  arc.place = place ∨ ∃ text ∈ arc.weights.values, Expr.TextRefersTo place text

def RateParameter.RefersTo (place : String) (parameter : RateParameter) : Prop :=
  Expr.TextRefersTo place parameter.expression

/-- A rate that is a parameter is no expression, whatever the parameter refers to. -/
def Transition.RefersTo (place : String) (transition : Transition) : Prop :=
  ∃ text, transition.rate = .expression text ∧ Expr.TextRefersTo place text

/-- The two ends of an arc are its place end and its transition end. -/
theorem Arc.hasEnd_iff (arc : Arc) :
    arc.source = place ∨ arc.target = place ↔ arc.place = place ∨ arc.transition = place := by
  rw [Arc.source, Arc.target]
  split
  · exact Iff.rfl
  · exact or_comm

/-- An arc that is attached to the place is reported for that, even if it weighs by the place as well. -/
def Arc.reference (place : String) (arc : Arc) : Reference :=
  if arc.place = place then .attachedArc arc.id else .arcWeight arc.id

instance (arc : Arc) : Decidable (arc.RefersTo place) :=
  inferInstanceAs (Decidable (_ ∨ ∃ text ∈ arc.weights.values, Expr.TextRefersTo place text))

instance (parameter : RateParameter) : Decidable (parameter.RefersTo place) :=
  inferInstanceAs (Decidable (Expr.TextRefersTo place parameter.expression))

theorem Net.isSome_transitionReference_iff {transition : Transition} :
    (Net.transitionReference place transition).isSome = true ↔ transition.RefersTo place := by
  rw [Net.transitionReference]
  split
  · rename_i text hrate
    rw [Option.isSome_ite, Expr.textMentions_iff]
    constructor
    · intro h
      exact ⟨text, hrate, h⟩
    · rintro ⟨other, hother, h⟩
      rw [hrate] at hother
      cases hother
      exact h
  · rename_i id hrate
    refine ⟨fun h => absurd h Bool.false_ne_true, ?_⟩
    rintro ⟨text, htext, _⟩
    rw [hrate] at htext
    cases htext

instance (transition : Transition) : Decidable (transition.RefersTo place) :=
  decidable_of_iff _ Net.isSome_transitionReference_iff

theorem Net.arcReference_eq (arc : Arc) :
    Net.arcReference place arc = if arc.RefersTo place then some (arc.reference place) else none := by
  rw [Net.arcReference, Arc.reference]
  by_cases hplace : arc.place = place
  · rw [if_pos hplace, if_pos hplace, if_pos (show arc.RefersTo place from Or.inl hplace)]
  · have hweights : arc.weights.values.any (Net.textMentions place) = true ↔ arc.RefersTo place := by
      simp only [List.any_eq_true, Expr.textMentions_iff, Arc.RefersTo, hplace, false_or]
    rw [if_neg hplace, if_neg hplace]
    exact if_congr hweights rfl rfl

theorem Net.parameterReference_eq (parameter : RateParameter) :
    Net.parameterReference place parameter =
      if parameter.RefersTo place then some (.rateParameter parameter.id) else none :=
  if_congr Expr.textMentions_iff rfl rfl

theorem Net.transitionReference_eq (transition : Transition) :
    Net.transitionReference place transition =
      if transition.RefersTo place then some (.transitionRate transition.id) else none := by
  split
  · rename_i h
    obtain ⟨text, hrate, htext⟩ := h
    rw [Net.transitionReference, hrate]
    exact if_pos (Expr.textMentions_iff.2 htext)
  · rename_i h
    rw [← Net.isSome_transitionReference_iff] at h
    simpa using h

end Components

/-! ## The list -/

theorem filterMap_eq_map_filter {α β : Type} {f : α → Option β} {P : α → Prop} [DecidablePred P] {g : α → β}
    (h : ∀ a, f a = if P a then some (g a) else none) (l : List α) :
    l.filterMap f = (l.filter fun a => decide (P a)).map g := by
  induction l with
  | nil => rfl
  | cons a l ih => by_cases hP : P a <;> simp [h a, hP, ih]

/-- The names of a table that files everything under its id are the ids. -/
theorem Table.Keyed.map_values {α : Type} {t : Table α} {id : α → String} (h : t.Keyed id) :
    t.values.map id = t.names := by
  rw [Table.values, Table.names, List.map_map]
  exact List.map_congr_left fun e he => h e.1 e.2 (Table.get?_eq_some_iff.2 he)

theorem Table.filter_eq_self {α : Type} {t : Table α} {keep : α → Bool} (h : ∀ a ∈ t.values, keep a = true) :
    (t.filter fun _ a => keep a) = t := by
  have hentries : (t.filter fun _ a => keep a).entries = t.entries :=
    List.filter_eq_self.2 fun e he => h e.2 (List.mem_map_of_mem he)
  cases hfiltered : t.filter fun _ a => keep a
  cases t
  rw [hfiltered] at hentries
  cases hentries
  rfl

namespace Net

variable {net after : Net} {place : String}

/-- The components that refer to a place: the arcs, then the rate parameters, then the transitions, each kind in the
order of its table. -/
def referring (net : Net) (place : String) : List Reference :=
  (net.arcs.values.filter fun arc => decide (arc.RefersTo place)).map (Arc.reference place) ++
    (net.parameters.values.filter fun p => decide (p.RefersTo place)).map (fun p => .rateParameter p.id) ++
    (net.transitions.values.filter fun t => decide (t.RefersTo place)).map fun t => .transitionRate t.id

theorem references_eq_referring (net : Net) (place : String) : net.references place = net.referring place := by
  rw [references, referring, filterMap_eq_map_filter arcReference_eq, filterMap_eq_map_filter parameterReference_eq,
    filterMap_eq_map_filter transitionReference_eq]

/-- References to components of one table are told apart by their ids. -/
theorem nodup_map_reference {α : Type} {t : Table α} {id : α → String} (h : t.Keyed id) (keep : α → Bool)
    {f : α → Reference} (hf : ∀ a, (f a).component = id a) : ((t.values.filter keep).map f).Nodup := by
  have hids : ((t.values.filter keep).map id).Nodup := by
    refine List.Nodup.sublist (List.filter_sublist.map id) ?_
    rw [h.map_values]
    exact t.nodup
  refine List.Nodup.of_map Reference.component ?_
  rw [List.map_map]
  exact (List.map_congr_left fun a _ => hf a) ▸ hids

theorem nodup_referring (h : net.Tidy) (place : String) : (net.referring place).Nodup := by
  have harc : ∀ arc : Arc, arc.reference place = .attachedArc arc.id ∨ arc.reference place = .arcWeight arc.id :=
    fun arc => by
      rw [Arc.reference]
      split
      · exact Or.inl rfl
      · exact Or.inr rfl
  have hcomponent : ∀ arc : Arc, (arc.reference place).component = arc.id := fun arc => by
    rcases harc arc with heq | heq <;> rw [heq] <;> rfl
  refine List.Nodup.append (List.Nodup.append (nodup_map_reference h.arcs _ hcomponent)
    (nodup_map_reference h.parameters _ fun _ => rfl) ?_) (nodup_map_reference h.transitions _ fun _ => rfl) ?_
  -- references of different kinds differ
  · intro r hr hr'
    obtain ⟨arc, _, rfl⟩ := List.mem_map.1 hr
    obtain ⟨p, _, heq⟩ := List.mem_map.1 hr'
    rcases harc arc with h | h <;> rw [h] at heq <;> cases heq
  · intro r hr hr'
    obtain ⟨t, _, rfl⟩ := List.mem_map.1 hr'
    rcases List.mem_append.1 hr with hr | hr
    · obtain ⟨arc, _, heq⟩ := List.mem_map.1 hr
      rcases harc arc with h | h <;> rw [h] at heq <;> cases heq
    · obtain ⟨p, _, heq⟩ := List.mem_map.1 hr
      cases heq

theorem referring_eq_nil_iff : net.referring place = [] ↔ (∀ arc ∈ net.arcs.values, ¬ arc.RefersTo place) ∧
    (∀ p ∈ net.parameters.values, ¬ p.RefersTo place) ∧ ∀ t ∈ net.transitions.values, ¬ t.RefersTo place := by
  simp only [referring, List.append_eq_nil_iff, List.map_eq_nil_iff, List.filter_eq_nil_iff, decide_eq_true_eq,
    and_assoc]

/-- The transition end of an arc has no name of a place, in a net whose parts fit together. -/
theorem Intact.transition_ne (h : net.Intact) (hheld : net.places.contains place = true) {arc : Arc}
    (harc : arc ∈ net.arcs.values) : arc.transition ≠ place := by
  intro hends
  have hthere := (h.ends arc harc).2
  rw [hends, h.apart place hheld] at hthere
  cases hthere

/-- Each end of an arc that has the name of a place is its place end, in such a net. -/
theorem Intact.hasEnd_iff (h : net.Intact) (hheld : net.places.contains place = true) {arc : Arc}
    (harc : arc ∈ net.arcs.values) : arc.source = place ∨ arc.target = place ↔ arc.place = place := by
  rw [arc.hasEnd_iff]
  exact or_iff_left (h.transition_ne hheld harc)

/-- A net once a place of it is given up: the place was there and is gone, everything else is as it was, and nothing
of it refers to the place. -/
structure GivesUp (net : Net) (away : String) (after : Net) : Prop where
  held : net.places.contains away = true
  after_eq : after = { net with places := net.places.erase away }.touch
  arcs : ∀ arc ∈ after.arcs.values, ¬ arc.RefersTo away
  parameters : ∀ p ∈ after.parameters.values, ¬ p.RefersTo away
  transitions : ∀ t ∈ after.transitions.values, ¬ t.RefersTo away
  /-- An end of an arc that has the name still is its transition end. -/
  ends : ∀ arc ∈ after.arcs.values, arc.source = away ∨ arc.target = away ↔ arc.transition = away
  /-- In a net whose parts fit together the place has no name of a transition, so neither end of an arc is left. -/
  free : net.Intact → ∀ arc ∈ after.arcs.values, arc.source ≠ away ∧ arc.target ≠ away

/-- Taking out a place that nothing refers to takes out no arc. -/
theorem givesUp_of_removePlace {away : String} {removed : Place} (hnone : net.referring away = [])
    (h : net.removePlace away = .ok (removed, after)) : net.GivesUp away after := by
  obtain ⟨harcs, hparameters, htransitions⟩ := referring_eq_nil_iff.1 hnone
  obtain ⟨hplace, rfl⟩ := removePlace_eq_ok h
  have hheld : net.places.contains away = true := by rw [Table.contains, hplace]; rfl
  have hkept : (net.arcs.filter fun _ arc => arc.place != away) = net.arcs :=
    Table.filter_eq_self fun arc harc => bne_iff_ne.2 fun hends => harcs arc harc (Or.inl hends)
  rw [hkept]
  have hends : ∀ arc ∈ net.arcs.values, arc.source = away ∨ arc.target = away ↔ arc.transition = away := by
    intro arc harc
    rw [arc.hasEnd_iff]
    exact or_iff_right fun hplace => harcs arc harc (Or.inl hplace)
  refine ⟨hheld, rfl, harcs, hparameters, htransitions, hends, fun hintact arc harc => ?_⟩
  rw [← not_or, hends arc harc]
  exact hintact.transition_ne hheld harc

end Net

/-! ## Giving up a used place -/

namespace IncludeTree

variable {tree : IncludeTree} {id : NodeId} {away : String} {owner : TreeNode} {entry : InterfacePlace}

/-- How a node holds on to an interface place that it uses. -/
structure HoldsOn (tree : IncludeTree) (id : NodeId) (away : String) (owner : TreeNode) : Prop where
  /-- As long as something refers to the place, it stays, and all that refers to it is told. -/
  refused : owner.net.referring away ≠ [] →
    tree.dropInterface id away = .error ⟨(owner.net.referring away).map (.referenced away)⟩
  /-- Nothing else keeps a place that is there. -/
  accepted : owner.net.referring away = [] → owner.net.places.contains away = true →
    ∃ after, tree.dropInterface id away = .ok after
  /-- No other node is changed, and the offer of the place stands. -/
  left : ∀ after, tree.dropInterface id away = .ok after → ∃ net, owner.net.GivesUp away net ∧
    after.node? id = some (owner.mark net away .available) ∧
    ∀ other, other ≠ id → after.node? other = tree.node? other

theorem dropInterface_of_inUse (hnode : tree.node? id = some owner)
    (hentry : owner.interface.get? away = some entry) (huse : entry.state = .inUse) :
    tree.dropInterface id away = do
      ConflictReport.orElse ((owner.net.references away).map (.referenced away)) ()
      let removed ← ofEdit away (owner.net.removePlace away)
      return (tree.modifyNode id (TreeNode.mark removed.2 away .available)).touch := by
  obtain ⟨key, home, state⟩ := entry
  cases huse
  simp only [dropInterface, requireNode_eq_ok.2 hnode, hentry, bind, Except.bind]
  rfl

theorem holdsOn_of_inUse (hnode : tree.node? id = some owner)
    (hentry : owner.interface.get? away = some entry) (huse : entry.state = .inUse) : tree.HoldsOn id away owner := by
  have hcommand := dropInterface_of_inUse hnode hentry huse
  rw [Net.references_eq_referring] at hcommand
  refine ⟨fun hsome => ?_, fun hnone hheld => ?_, fun after hafter => ?_⟩
  · rw [hcommand, bind_eq_error]
    left
    rw [ConflictReport.orElse, if_neg]
    simpa using hsome
  · obtain ⟨removed, hremoved⟩ := Option.isSome_iff_exists.1 hheld
    rw [hcommand, hnone]
    simp only [Net.removePlace, Net.place, hremoved]
    exact ⟨_, rfl⟩
  · rw [hcommand] at hafter
    simp only [bind_eq_ok, pure_eq_ok, ConflictReport.orElse_eq_ok, List.map_eq_nil_iff, ofEdit_eq_ok] at hafter
    obtain ⟨_, ⟨hnone, _⟩, ⟨removed, net⟩, hedit, rfl⟩ := hafter
    refine ⟨net, Net.givesUp_of_removePlace hnone hedit, ?_, fun other hother => ?_⟩
    · exact (node?_modifyNode tree id id _).trans (by rw [if_pos rfl, hnode]; rfl)
    · exact (node?_modifyNode tree id other _).trans (if_neg hother)

/-- A net lists what refers to a place, each component once and all of them; arcs are listed by their place ends, which
are all the ends of that name when the parts of the net fit together. So a node that uses a place gives it up exactly if
nothing in its net refers to the place, and no arc goes with it. -/
theorem dropInterface_exact :
    (∀ (net : Net) (place : String), net.references place = net.referring place ∧
      (net.Tidy → (net.references place).Nodup) ∧
      (net.Intact → net.places.contains place = true → ∀ arc ∈ net.arcs.values,
        arc.source = place ∨ arc.target = place ↔ arc.place = place)) ∧
    ∀ (tree : IncludeTree) (id : NodeId) (away : String) (owner : TreeNode) (entry : InterfacePlace),
      tree.node? id = some owner → owner.interface.get? away = some entry → entry.state = .inUse →
        tree.HoldsOn id away owner := by
  refine ⟨fun net place => ?_, fun tree id away owner entry hnode hentry huse => holdsOn_of_inUse hnode hentry huse⟩
  rw [Net.references_eq_referring]
  exact ⟨rfl, fun h => Net.nodup_referring h place, fun h hheld _ harc => h.hasEnd_iff hheld harc⟩

/-- The root uses a place of the net that it includes, and its own net has gained some components since. -/
def consuming (components : List Component) : IncludeTree :=
  ((Sample.pair [] [.place (Sample.placeOf { PlaceStatus.plain with merge := .home } "P" 2)] "a").performAll
    [.useInterface rootId "root.a.P"]).setNet rootId (Sample.netOf
      (.place (Sample.placeOf { PlaceStatus.plain with merge := .inUse, home := some ⟨⟨1⟩, "P"⟩ } "root.a.P" 0) ::
        components))

/-- Components that read the place, and an arc that is attached to it. -/
def readers : List Component :=
  [Sample.place "Q" 1, .rateParameter ⟨"r", "max(1,cap(root.a.P))"⟩,
    Sample.transition "T" (.expression "#(root.a.P,Default)+1"), Sample.transition "U" (.parameter "r"),
    Sample.arc "y" "Q" "T" .placeToTransition "max(1,-#(root.a.P))",
    Sample.arc "x" "root.a.P" "U" .placeToTransition "#(root.a.P)"]

/-- The place stays with four references to it, told in the order of the tables, and goes without any. -/
theorem dropInterface_exact_consuming :
    (consuming readers).dropInterface rootId "root.a.P" = .error ⟨[.arcWeight "y", .attachedArc "x",
      .rateParameter "r", .transitionRate "T"].map (.referenced "root.a.P")⟩ ∧
    ∃ after, (consuming []).dropInterface rootId "root.a.P" = .ok after := by
  have hread : ((consuming readers).node? rootId).map (fun owner =>
      ((owner.interface.get? "root.a.P").map InterfacePlace.state, owner.net.references "root.a.P")) =
        some (some .inUse, [.arcWeight "y", .attachedArc "x", .rateParameter "r", .transitionRate "T"]) := by
    decide +kernel
  have hfree : ((consuming []).node? rootId).map (fun owner =>
      ((owner.interface.get? "root.a.P").map InterfacePlace.state, owner.net.references "root.a.P",
        owner.net.places.contains "root.a.P")) = some (some .inUse, [], true) := by decide +kernel
  constructor
  · obtain ⟨owner, hnode, heq⟩ := Option.map_eq_some_iff.1 hread
    obtain ⟨hstate, hreferences⟩ := Prod.mk.inj heq
    obtain ⟨entry, hentry, huse⟩ := Option.map_eq_some_iff.1 hstate
    obtain ⟨hlists, hholds⟩ := dropInterface_exact
    have hholds := hholds _ _ _ _ _ hnode hentry huse
    rw [(hlists owner.net "root.a.P").1] at hreferences
    rw [hholds.refused (by rw [hreferences]; exact List.cons_ne_nil _ _), hreferences]
  · obtain ⟨owner, hnode, heq⟩ := Option.map_eq_some_iff.1 hfree
    obtain ⟨hstate, hrest⟩ := Prod.mk.inj heq
    obtain ⟨hreferences, hheld⟩ := Prod.mk.inj hrest
    obtain ⟨entry, hentry, huse⟩ := Option.map_eq_some_iff.1 hstate
    obtain ⟨hlists, hholds⟩ := dropInterface_exact
    have hholds := hholds _ _ _ _ _ hnode hentry huse
    rw [(hlists owner.net "root.a.P").1] at hreferences
    exact hholds.accepted hreferences hheld

/-- The root has a net as a document may give it: the transition end of its arc has the name of a place that the net
does not have yet. Then the root uses a place of that name, of the net that it includes. -/
def crossing : IncludeTree :=
  let net := Sample.netOf [Sample.place "Q" 1]
  let stray : Arc := ⟨"y", "Q", "root.a.P", .placeToTransition, .normal, Table.empty.insert defaultColor "1", []⟩
  (Sample.also (IncludeTree.new { net with arcs := net.arcs.insert "y" stray } "root")
    [.place (Sample.placeOf { PlaceStatus.plain with merge := .home } "P" 2)] "a").performAll
      [.useInterface rootId "root.a.P"]

/-- The arc is no reference to the place, which goes and leaves the arc with an end of its name. -/
theorem dropInterface_leaves_end : ∃ owner after rest, crossing.node? rootId = some owner ∧
    (owner.interface.get? "root.a.P").map InterfacePlace.state = some .inUse ∧
    owner.net.places.contains "root.a.P" = true ∧ owner.net.references "root.a.P" = [] ∧
    crossing.dropInterface rootId "root.a.P" = .ok after ∧ after.node? rootId = some rest ∧
    rest.net.places.contains "root.a.P" = false ∧ ∃ arc ∈ rest.net.arcs.values, arc.target = "root.a.P" := by
  have hbefore : (crossing.node? rootId).map (fun owner =>
      ((owner.interface.get? "root.a.P").map InterfacePlace.state, owner.net.places.contains "root.a.P",
        owner.net.references "root.a.P")) = some (some .inUse, true, []) := by decide +kernel
  have hafter : (crossing.dropInterface rootId "root.a.P").map (fun after => (after.node? rootId).map fun rest =>
      (rest.net.places.contains "root.a.P", rest.net.arcs.values.any fun arc => arc.target == "root.a.P")) =
        .ok (some (false, true)) := by decide +kernel
  obtain ⟨owner, hnode, howner⟩ := Option.map_eq_some_iff.1 hbefore
  simp only [Prod.mk.injEq] at howner
  obtain ⟨huse, hheld, hnone⟩ := howner
  obtain ⟨after, hdrop, houtcome⟩ := map_eq_ok.1 hafter
  obtain ⟨rest, hrest, heq⟩ := Option.map_eq_some_iff.1 houtcome
  simp only [Prod.mk.injEq, List.any_eq_true, beq_iff_eq] at heq
  obtain ⟨hgone, hleft⟩ := heq
  exact ⟨owner, after, rest, hnode, huse, hheld, hnone, hdrop, hrest, hgone, hleft⟩

end IncludeTree

end PetriTree
