import Mathlib.Data.List.Nodup
import PetriTree.Flat.Assembly
import PetriTree.Proofs.Outcome

/-!
# PetriTree — the copies of all components

Joining a tree starts by copying every component of every node. The walk, the nodes and their tables
are nested loops; what they leave behind is one list of copies for each kind of component, in the order
of the walk, each made from one component of one node.

Main results:
* `Local`, `localsOf` — the components of the nodes of a tree;
* `Assembly.Copied` — the copies, the noted away places and the bindings, in terms of those components;
* `Assembly.copied_of_ofTree` — copying a whole tree leaves them.
-/

namespace PetriTree

/-! ## Components of nodes -/

/-- A component of a node's net. -/
structure Local (α : Type u) where
  node : NodeId
  owner : TreeNode
  part : α

/-- The components of one kind that nodes have, in order. -/
def localsOf (parts : Net → List α) (nodes : List (NodeId × TreeNode)) : List (Local α) :=
  nodes.flatMap fun e => (parts e.2.net).map fun part => ⟨e.1, e.2, part⟩

theorem localsOf_snoc (parts : Net → List α) (nodes : List (NodeId × TreeNode)) (id : NodeId)
    (node : TreeNode) : localsOf parts (nodes ++ [(id, node)]) =
      localsOf parts nodes ++ (parts node.net).map fun part => ⟨id, node, part⟩ := by
  simp [localsOf]

theorem mem_localsOf {parts : Net → List α} {nodes : List (NodeId × TreeNode)} {l : Local α} :
    l ∈ localsOf parts nodes ↔ (l.node, l.owner) ∈ nodes ∧ l.part ∈ parts l.owner.net := by
  simp only [localsOf, List.mem_flatMap, List.mem_map]
  constructor
  · rintro ⟨e, he, part, hpart, rfl⟩
    exact ⟨he, hpart⟩
  · intro ⟨hnode, hpart⟩
    exact ⟨_, hnode, _, hpart, rfl⟩

namespace Local

/-- The id that the copy of a place gets. -/
def flat (l : Local Place) : String := qualify l.owner.path l.part.id

/-- What the copy of a place is bound to. -/
def source (l : Local Place) : SourcePlace := ⟨l.node, l.part.id⟩

/-- The home of a place that stands for a place of another node. -/
def home? (l : Local Place) : Option HomeRef := Assembly.foreignHome l.node l.part.status

/-- The copy of a place. -/
def copy (l : Local Place) : Place :=
  { l.part with
    id := l.flat
    status := { l.part.status with merge := if l.home?.isSome then .away else l.part.status.merge } }

/-- The copy of a place that stands for another one is marked as waiting. -/
theorem merge_copy {l : Local Place} (h : l.home?.isSome) : l.copy.status.merge = .away := by
  simp [copy, h]

/-- The note that a place waits for its home. -/
def away? (l : Local Place) : Option AwayPlace :=
  l.home?.map fun home => ⟨l.flat, l.owner.qualifiedName, home⟩

/-- Is the entry the copy of a rate parameter? -/
def CopiesParameter (l : Local RateParameter) (e : String × RateParameter) : Prop :=
  e.1 = qualify l.owner.path l.part.id ∧ e.2.id = e.1 ∧
    Assembly.qualifyText l.owner.path e.1 l.part.expression = .ok e.2.expression

/-- Is the entry the copy of a transition? -/
def CopiesTransition (l : Local Transition) (e : String × Transition) : Prop :=
  e.1 = qualify l.owner.path l.part.id ∧
    ∃ rate, Assembly.qualifyRate l.owner.path e.1 l.part.rate = .ok rate ∧
      e.2 = { l.part with id := e.1, rate := rate }

/-- Is the entry the copy of an arc? -/
def CopiesArc (l : Local Arc) (e : String × Arc) : Prop :=
  e.1 = qualify l.owner.path l.part.id ∧
    ∃ weights, l.part.weights.mapExcept (fun _ => Assembly.qualifyText l.owner.path e.1) = .ok weights ∧
      e.2 = { l.part with
        id := e.1
        place := qualify l.owner.path l.part.place
        transition := qualify l.owner.path l.part.transition
        weights := weights }

end Local

/-! ## Tables -/

namespace Table

theorem insertEntry_of_notMem {name : String} (value : α) :
    ∀ {entries : List (String × α)}, name ∉ entries.map Prod.fst →
      insertEntry name value entries = entries ++ [(name, value)]
  | [], _ => rfl
  | (key, old) :: rest, h => by
    rw [List.map_cons, List.mem_cons, not_or] at h
    rw [insertEntry, if_neg (Ne.symm h.1), insertEntry_of_notMem value h.2, List.cons_append]

/-- A new name goes to the end. -/
theorem entries_insert {t : Table α} {name : String} (value : α) (hnew : t.contains name = false) :
    (t.insert name value).entries = t.entries ++ [(name, value)] :=
  insertEntry_of_notMem value fun h => by
    rw [mem_names_iff.1 h] at hnew
    cases hnew

end Table

namespace Assembly

theorem read_eq_ok {component text : String} {e : Expr} :
    read component text = .ok e ↔ Expr.ofText text = .ok e := by
  unfold read
  cases Expr.ofText text <;> simp

theorem insertNew_eq_ok {t t' : Table α} {id : String} {value : α} {kind : ComponentKind}
    (h : insertNew t id value kind = .ok t') : t.contains id = false ∧ t' = t.insert id value := by
  unfold insertNew at h
  rw [refusal_eq_ok] at h
  refine ⟨by simpa using h.1, ?_⟩
  cases h.2
  rfl

/-! ## One component -/

theorem addPlace_eq_ok {a a' : Assembly} {id : NodeId} {node : TreeNode} {place : Place}
    {l : Local Place} (hl : l = ⟨id, node, place⟩) (h : a.addPlace id node place = .ok a') :
    a.transitions.contains l.flat = false ∧ a.places.contains l.flat = false ∧
      a' = { a with
        places := a.places.insert l.flat l.copy
        bindings := a.bindings.bind l.source l.flat
        aways := a.aways ++ l.away?.toList } := by
  -- both branches of the source add the same entry but for the mark of waiting
  have hcopy : a.addPlace id node place =
      if a.transitions.contains l.flat then .error (.duplicateId l.flat .place)
      else do
        return { a with
          places := ← insertNew a.places l.flat l.copy .place
          bindings := a.bindings.bind l.source l.flat
          aways := a.aways ++ l.away?.toList } := by
    subst hl
    cases hhome : foreignHome id place.status <;>
      simp [addPlace, Local.flat, Local.copy, Local.away?, Local.home?, Local.source, hhome, bind,
        Except.bind]
  rw [hcopy, refusal_eq_ok, bind_eq_ok] at h
  obtain ⟨htransition, places, hplaces, h⟩ := h
  obtain ⟨hnew, rfl⟩ := insertNew_eq_ok hplaces
  cases h
  exact ⟨by simpa using htransition, hnew, rfl⟩

theorem addParameter_eq_ok {a a' : Assembly} {path : String} {parameter : RateParameter}
    (h : a.addParameter path parameter = .ok a') :
    ∃ expression, qualifyText path (qualify path parameter.id) parameter.expression = .ok expression ∧
      a.parameters.contains (qualify path parameter.id) = false ∧
      a' = { a with
        parameters := a.parameters.insert (qualify path parameter.id)
          ⟨qualify path parameter.id, expression⟩ } := by
  simp only [addParameter, bind_eq_ok] at h
  obtain ⟨expression, hexpression, parameters, hparameters, h⟩ := h
  obtain ⟨hnew, rfl⟩ := insertNew_eq_ok hparameters
  cases h
  exact ⟨expression, hexpression, hnew, rfl⟩

theorem addTransition_eq_ok {a a' : Assembly} {path : String} {transition : Transition}
    (h : a.addTransition path transition = .ok a') :
    ∃ rate, qualifyRate path (qualify path transition.id) transition.rate = .ok rate ∧
      a.places.contains (qualify path transition.id) = false ∧
      a.transitions.contains (qualify path transition.id) = false ∧
      a' = { a with
        transitions := a.transitions.insert (qualify path transition.id)
          { transition with id := qualify path transition.id, rate := rate } } := by
  simp only [addTransition, guard_eq_ok, bind_eq_ok] at h
  obtain ⟨hplace, rate, hrate, transitions, htransitions, h⟩ := h
  obtain ⟨hnew, rfl⟩ := insertNew_eq_ok htransitions
  cases h
  exact ⟨rate, hrate, by simpa using hplace, hnew, rfl⟩

theorem addArc_eq_ok {a a' : Assembly} {path : String} {arc : Arc} (h : a.addArc path arc = .ok a') :
    ∃ weights, arc.weights.mapExcept (fun _ => qualifyText path (qualify path arc.id)) = .ok weights ∧
      a.arcs.contains (qualify path arc.id) = false ∧
      a' = { a with
        arcs := a.arcs.insert (qualify path arc.id)
          { arc with
            id := qualify path arc.id
            place := qualify path arc.place
            transition := qualify path arc.transition
            weights := weights } } := by
  simp only [addArc, mapWeights, bind_eq_ok] at h
  obtain ⟨copy, ⟨weights, hweights, hcopy⟩, arcs, harcs, h⟩ := h
  obtain ⟨hnew, rfl⟩ := insertNew_eq_ok harcs
  cases hcopy
  cases h
  exact ⟨weights, hweights, hnew, rfl⟩

/-! ## Bindings of the copies -/

end Assembly

/-- Every place is bound to its copy and nothing else is bound. -/
structure Bindings.Holds (b : Bindings) (ps : List (Local Place)) : Prop where
  sources : b.sources.entries = ps.map fun l => (l.flat, [l.source])
  flatOf : ∀ l ∈ ps, b.flatOf l.source = some l.flat
  bound : ∀ source flat, b.flatOf source = some flat → ∃ l ∈ ps, l.source = source ∧ l.flat = flat

/-- Binding a place whose source and whose copy are new. -/
theorem Bindings.Holds.bind {b : Bindings} {ps : List (Local Place)} (h : b.Holds ps) {l : Local Place}
    (hsource : ∀ k ∈ ps, k.source ≠ l.source) (hflat : ∀ k ∈ ps, k.flat ≠ l.flat) :
    (b.bind l.source l.flat).Holds (ps ++ [l]) := by
  -- nothing has to be unbound, so binding only adds
  have hfree : b.flatOf l.source = none := by
    cases hfound : b.flatOf l.source with
    | none => rfl
    | some flat =>
      obtain ⟨k, hk, hks, _⟩ := h.bound _ _ hfound
      exact absurd hks (hsource k hk)
  have hnew : b.sources.get? l.flat = none := by
    rw [Table.get?, Table.lookup_eq_none_iff, h.sources]
    simpa using hflat
  have hlookup : ∀ source, (b.bind l.source l.flat).flatOf source =
      if source = l.source then some l.flat else b.flatOf source := by
    intro source
    simp only [Bindings.bind, Bindings.flatOf, SortedMap.get?_insert,
      Std.LawfulEqCmp.compare_eq_iff_eq]
  refine ⟨?_, ?_, ?_⟩
  · simp only [Bindings.bind, hfree, hnew, Option.getD_none, List.nil_append, List.map_append,
      List.map_cons, List.map_nil]
    rw [Table.entries_insert _ (by rw [Table.contains, hnew]; rfl), h.sources]
  · intro k hk
    rw [hlookup]
    rcases List.mem_append.1 hk with hk | hk
    · rw [if_neg (hsource k hk), h.flatOf k hk]
    · cases List.mem_singleton.1 hk
      rw [if_pos rfl]
  · intro source flat hfound
    rw [hlookup] at hfound
    split at hfound
    · rename_i heq
      cases hfound
      exact ⟨l, by simp, heq.symm, rfl⟩
    · obtain ⟨k, hk, hk'⟩ := h.bound _ _ hfound
      exact ⟨k, List.mem_append_left _ hk, hk'⟩

namespace Assembly

/-! ## All copies -/

/-- The assembly holds the copies of the components listed, and nothing else. -/
structure Copied (tree : IncludeTree) (ps : List (Local Place)) (rs : List (Local RateParameter))
    (ts : List (Local Transition)) (as : List (Local Arc)) (a : Assembly) : Prop where
  owners : ∀ l ∈ ps, tree.node? l.node = some l.owner
  places : a.places.entries = ps.map fun l => (l.flat, l.copy)
  aways : a.aways = ps.filterMap Local.away?
  bindings : a.bindings.Holds ps
  parameters : List.Forall₂ Local.CopiesParameter rs a.parameters.entries
  transitions : List.Forall₂ Local.CopiesTransition ts a.transitions.entries
  arcs : List.Forall₂ Local.CopiesArc as a.arcs.entries
  /-- Places and transitions share their ids. -/
  apart : ∀ id, a.places.contains id = true → a.transitions.contains id = false

namespace Copied

variable {tree : IncludeTree} {ps : List (Local Place)} {rs : List (Local RateParameter)}
  {ts : List (Local Transition)} {as : List (Local Arc)} {a a' : Assembly}

theorem empty (tree : IncludeTree) : Copied tree [] [] [] [] Assembly.empty where
  owners := by simp
  places := rfl
  aways := rfl
  bindings := ⟨rfl, by simp, fun source flat h => by
    simp [Assembly.empty, Bindings.empty, Bindings.flatOf, SortedMap.get?, SortedMap.empty,
      SortedMap.lookup] at h⟩
  parameters := .nil
  transitions := .nil
  arcs := .nil
  apart := fun id h => by simp [Assembly.empty, Table.contains, Table.get?, Table.empty, Table.lookup] at h

theorem flat_ne (h : Copied tree ps rs ts as a) {flat : String} (hnew : a.places.contains flat = false)
    {l : Local Place} (hl : l ∈ ps) : l.flat ≠ flat := by
  rintro rfl
  have hmem : l.flat ∈ a.places.names := by
    rw [Table.names, h.places, List.map_map]
    exact List.mem_map.2 ⟨l, hl, rfl⟩
  rw [Table.mem_names_iff.1 hmem] at hnew
  cases hnew

theorem nodup_flat (h : Copied tree ps rs ts as a) : (ps.map Local.flat).Nodup := by
  have hnames := a.places.nodup
  rw [h.places, List.map_map] at hnames
  exact hnames

/-- A place is known by its flat id. -/
theorem eq_of_flat_eq (h : Copied tree ps rs ts as a) {k l : Local Place} (hk : k ∈ ps) (hl : l ∈ ps)
    (hflat : k.flat = l.flat) : k = l :=
  List.inj_on_of_nodup_map h.nodup_flat hk hl hflat

theorem contains_place_iff (h : Copied tree ps rs ts as a) {flat : String} :
    a.places.contains flat = true ↔ ∃ l ∈ ps, l.flat = flat := by
  rw [← Table.mem_names_iff, Table.names, h.places, List.map_map, List.mem_map]
  rfl

theorem get?_flat (h : Copied tree ps rs ts as a) {l : Local Place} (hl : l ∈ ps) :
    a.places.get? l.flat = some l.copy := by
  rw [Table.get?_eq_some_iff, h.places]
  exact List.mem_map.2 ⟨l, hl, rfl⟩

/-- A place is known by its source. -/
theorem eq_of_source_eq (h : Copied tree ps rs ts as a) {k l : Local Place} (hk : k ∈ ps) (hl : l ∈ ps)
    (hsource : k.source = l.source) : k = l := by
  have hflat := h.bindings.flatOf k hk
  rw [hsource, h.bindings.flatOf l hl] at hflat
  exact h.eq_of_flat_eq hk hl (Option.some.inj hflat).symm

/-- Copying a place. -/
theorem addPlace (h : Copied tree ps rs ts as a) {id : NodeId} {node : TreeNode} {place : Place}
    (hnode : tree.node? id = some node) (hstep : a.addPlace id node place = .ok a') :
    Copied tree (ps ++ [⟨id, node, place⟩]) rs ts as a' := by
  obtain ⟨htransition, hnew, rfl⟩ := addPlace_eq_ok rfl hstep
  set l : Local Place := ⟨id, node, place⟩ with hl
  refine ⟨?_, ?_, ?_, ?_, h.parameters, h.transitions, h.arcs, ?_⟩
  · intro k hk
    rcases List.mem_append.1 hk with hk | hk
    · exact h.owners k hk
    · cases List.mem_singleton.1 hk
      exact hnode
  · simp only [Table.entries_insert _ hnew, h.places, List.map_append, List.map_cons, List.map_nil]
  · rw [h.aways, List.filterMap_append]
    cases hl' : l.away? <;> simp [hl']
  · refine h.bindings.bind (fun k hk heq => ?_) fun k hk => h.flat_ne hnew hk
    -- two places with one source are one place of one node, and so have one flat id
    have hnode' : k.node = id := congrArg SourcePlace.node heq
    have howner : k.owner = node := by
      have hfound := h.owners k hk
      rw [hnode', hnode] at hfound
      exact (Option.some.inj hfound).symm
    refine h.flat_ne hnew hk ?_
    have hid : k.part.id = place.id := congrArg SourcePlace.place heq
    rw [Local.flat, Local.flat, howner, hid]
  -- and the new place among the transitions
  · intro flat hflat
    simp only [Table.contains, Table.get?_insert] at hflat
    split at hflat
    · rename_i heq
      exact heq ▸ htransition
    · exact h.apart flat hflat

/-- Copying a rate parameter. -/
theorem addParameter (h : Copied tree ps rs ts as a) (id : NodeId) {node : TreeNode}
    {parameter : RateParameter} (hstep : a.addParameter node.path parameter = .ok a') :
    Copied tree ps (rs ++ [⟨id, node, parameter⟩]) ts as a' := by
  obtain ⟨expression, hexpression, hnew, rfl⟩ := addParameter_eq_ok hstep
  refine ⟨h.owners, h.places, h.aways, h.bindings, ?_, h.transitions, h.arcs, h.apart⟩
  rw [Table.entries_insert _ hnew]
  exact List.rel_append h.parameters (.cons ⟨rfl, rfl, hexpression⟩ .nil)

/-- Copying a transition. -/
theorem addTransition (h : Copied tree ps rs ts as a) (id : NodeId) {node : TreeNode}
    {transition : Transition} (hstep : a.addTransition node.path transition = .ok a') :
    Copied tree ps rs (ts ++ [⟨id, node, transition⟩]) as a' := by
  obtain ⟨rate, hrate, hplace, hnew, rfl⟩ := addTransition_eq_ok hstep
  refine ⟨h.owners, h.places, h.aways, h.bindings, h.parameters, ?_, h.arcs, ?_⟩
  · rw [Table.entries_insert _ hnew]
    exact List.rel_append h.transitions (.cons ⟨rfl, rate, hrate, rfl⟩ .nil)
  -- the new transition was looked for among the places
  · intro flat hflat
    simp only [Table.contains, Table.get?_insert]
    split
    · rename_i heq
      rw [heq, hflat] at hplace
      cases hplace
    · exact h.apart flat hflat

/-- Copying an arc. -/
theorem addArc (h : Copied tree ps rs ts as a) (id : NodeId) {node : TreeNode} {arc : Arc}
    (hstep : a.addArc node.path arc = .ok a') :
    Copied tree ps rs ts (as ++ [⟨id, node, arc⟩]) a' := by
  obtain ⟨weights, hweights, hnew, rfl⟩ := addArc_eq_ok hstep
  refine ⟨h.owners, h.places, h.aways, h.bindings, h.parameters, h.transitions, ?_, h.apart⟩
  rw [Table.entries_insert _ hnew]
  exact List.rel_append h.arcs (.cons ⟨rfl, weights, hweights, rfl⟩ .nil)

theorem addColors (h : Copied tree ps rs ts as a) (colors : List TokenColor) :
    Copied tree ps rs ts as (colors.foldl addColor a) := by
  refine List.foldlRecOn _ _ h fun a h color _ => ?_
  unfold addColor
  split
  · exact h
  · exact ⟨h.owners, h.places, h.aways, h.bindings, h.parameters, h.transitions, h.arcs, h.apart⟩

theorem addNotes (h : Copied tree ps rs ts as a) {path : String} {notes : List Note}
    (hrun : notes.foldlM (addNote path) a = .ok a') : Copied tree ps rs ts as a' := by
  refine foldlM_invariant (P := fun _ => Copied tree ps rs ts as) ?_ h hrun
  intro _ note _ a a' _ h hstep
  simp only [addNote, bind_eq_ok] at hstep
  obtain ⟨notes, _, hstep⟩ := hstep
  cases hstep
  exact ⟨h.owners, h.places, h.aways, h.bindings, h.parameters, h.transitions, h.arcs, h.apart⟩

theorem addPlaces (h : Copied tree ps rs ts as a) {id : NodeId} {node : TreeNode} {places : List Place}
    (hnode : tree.node? id = some node) (hrun : places.foldlM (Assembly.addPlace id node) a = .ok a') :
    Copied tree (ps ++ places.map fun p => ⟨id, node, p⟩) rs ts as a' :=
  foldlM_invariant
    (P := fun passed => Copied tree (ps ++ passed.map fun p => ⟨id, node, p⟩) rs ts as)
    (fun _ _ _ _ _ _ h hstep => by simpa using h.addPlace hnode hstep) (by simpa using h) hrun

theorem addParameters (h : Copied tree ps rs ts as a) (id : NodeId) {node : TreeNode}
    {parameters : List RateParameter}
    (hrun : parameters.foldlM (Assembly.addParameter node.path) a = .ok a') :
    Copied tree ps (rs ++ parameters.map fun r => ⟨id, node, r⟩) ts as a' :=
  foldlM_invariant
    (P := fun passed => Copied tree ps (rs ++ passed.map fun r => ⟨id, node, r⟩) ts as)
    (fun _ _ _ _ _ _ h hstep => by simpa using h.addParameter id hstep) (by simpa using h) hrun

theorem addTransitions (h : Copied tree ps rs ts as a) (id : NodeId) {node : TreeNode}
    {transitions : List Transition}
    (hrun : transitions.foldlM (Assembly.addTransition node.path) a = .ok a') :
    Copied tree ps rs (ts ++ transitions.map fun t => ⟨id, node, t⟩) as a' :=
  foldlM_invariant
    (P := fun passed => Copied tree ps rs (ts ++ passed.map fun t => ⟨id, node, t⟩) as)
    (fun _ _ _ _ _ _ h hstep => by simpa using h.addTransition id hstep) (by simpa using h) hrun

theorem addArcs (h : Copied tree ps rs ts as a) (id : NodeId) {node : TreeNode} {arcs : List Arc}
    (hrun : arcs.foldlM (Assembly.addArc node.path) a = .ok a') :
    Copied tree ps rs ts (as ++ arcs.map fun arc => ⟨id, node, arc⟩) a' :=
  foldlM_invariant
    (P := fun passed => Copied tree ps rs ts (as ++ passed.map fun arc => ⟨id, node, arc⟩))
    (fun _ _ _ _ _ _ h hstep => by simpa using h.addArc id hstep) (by simpa using h) hrun

/-- Copying every component of a node. -/
theorem addNode (h : Copied tree ps rs ts as a) {id : NodeId} {node : TreeNode}
    (hnode : tree.node? id = some node) (hstep : a.addNode id node = .ok a') :
    Copied tree (ps ++ node.net.places.values.map fun p => ⟨id, node, p⟩)
      (rs ++ node.net.parameters.values.map fun r => ⟨id, node, r⟩)
      (ts ++ node.net.transitions.values.map fun t => ⟨id, node, t⟩)
      (as ++ (node.net.inboundArcs ++ node.net.outboundArcs).map fun arc => ⟨id, node, arc⟩) a' := by
  simp only [Assembly.addNode, bind_eq_ok] at hstep
  obtain ⟨a₁, hnotes, a₂, hplaces, a₃, hparameters, a₄, htransitions, harcs⟩ := hstep
  -- colours and notes are no part of the invariant
  have h := (h.addColors node.net.colors.values).addNotes hnotes
  have h := (h.addPlaces hnode hplaces).addParameters id hparameters
  exact (h.addTransitions id htransitions).addArcs id harcs

end Copied

end Assembly

/-! ## All nodes -/

/-- The places of nodes. -/
def placesOf : List (NodeId × TreeNode) → List (Local Place) := localsOf fun net => net.places.values

/-- The rate parameters of nodes. -/
def parametersOf : List (NodeId × TreeNode) → List (Local RateParameter) :=
  localsOf fun net => net.parameters.values

/-- The transitions of nodes. -/
def transitionsOf : List (NodeId × TreeNode) → List (Local Transition) :=
  localsOf fun net => net.transitions.values

/-- The arcs of nodes: of one node, those into transitions come before those out of them. -/
def arcsOf : List (NodeId × TreeNode) → List (Local Arc) :=
  localsOf fun net => net.inboundArcs ++ net.outboundArcs

theorem node?_of_mem_walk {tree : IncludeTree} {id : NodeId} {node : TreeNode}
    (h : (id, node) ∈ tree.walk) : tree.node? id = some node := by
  obtain ⟨id', _, hid'⟩ := List.mem_filterMap.1 h
  obtain ⟨node', hnode', heq⟩ := Option.map_eq_some_iff.1 hid'
  cases heq
  exact hnode'

/-- Copying a whole tree leaves a copy of every component, in the order of the walk. -/
theorem Assembly.copied_of_ofTree {tree : IncludeTree} {a : Assembly}
    (h : Assembly.ofTree tree = .ok a) :
    Copied tree (placesOf tree.walk) (parametersOf tree.walk) (transitionsOf tree.walk)
      (arcsOf tree.walk) a := by
  refine foldlM_invariant (P := fun nodes => Copied tree (placesOf nodes)
    (parametersOf nodes) (transitionsOf nodes) (arcsOf nodes)) ?_ (Copied.empty tree) h
  rintro nodes ⟨id, node⟩ after s s' hwalk hs hstep
  -- a member of the walk is a node of the tree, which tells places with one source apart
  have hnode : tree.node? id = some node := node?_of_mem_walk (by rw [hwalk]; simp)
  have hadded := hs.addNode hnode hstep
  simpa only [placesOf, parametersOf, transitionsOf, arcsOf, localsOf_snoc] using hadded

end PetriTree
