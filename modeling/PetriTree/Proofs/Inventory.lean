import PetriTree.Proofs.AllOrNothing
import PetriTree.Proofs.Sharing
import PetriTree.Proofs.Traversal

/-!
# PetriTree — the inventory of a joined net

Joining copies, renames and merges, and it refuses where two ids meet: local ids may hold points, so ids of
different nodes can come out the same. When it succeeds the flat net holds what the nodes hold, in the order
in which the nodes are met, each component under its qualified id. The only ones that are left out are places
that stand for a place of another node.

Copies are made in this order, and none of the merges moves anything. A merge rewrites the place of an arc and
expressions, and it takes out one place without disturbing those around it.

Main results:
* `Assembly.notes_of_ofTree` — notes are copied, and nothing after that touches them;
* `Assembly.Redirect.frame_transition`, `frame_arc` — what merging leaves of a transition and of an arc;
* `Assembly.Merged.places_eq` — the places that stay, in their order;
* `FlatNet.inventory` — the components of a flat net are those of the nodes, and their ids are different.
-/

namespace PetriTree

/-- The id of a component in the joined net. -/
def Local.flatId (id : α → String) (l : Local α) : String := qualify l.owner.path (id l.part)

/-- Does a place stand for a place of another node? -/
def Local.IsBorrowed (l : Local Place) : Prop :=
  l.part.status.merge = .inUse ∧ ∃ home, l.part.status.home = some home ∧ home.node ≠ l.node

/-- The notes of nodes. -/
def notesOf : List (NodeId × TreeNode) → List (Local Note) := localsOf fun net => net.notes.values

/-- A transition without its rate. -/
def Transition.frame (t : Transition) : Transition := { t with rate := .one }

/-- An arc without its place and the texts of its weights. -/
def Arc.frame (arc : Arc) : Arc := { arc with place := "", weights := Table.empty }

theorem Local.home?_eq_none_iff {l : Local Place} : l.home? = none ↔ ¬ l.IsBorrowed := by
  unfold home? Assembly.foreignHome IsBorrowed
  by_cases huse : l.part.status.merge = .inUse
  · rw [if_pos huse, Option.filter_eq_none_iff]
    simp [huse]
  · simp [huse]

instance (l : Local Place) : Decidable l.IsBorrowed :=
  decidable_of_iff (l.home?.isSome) (by
    rw [← not_iff_not, ← Local.home?_eq_none_iff, Option.not_isSome_iff_eq_none])

/-- Names that are listed along with something else are different. -/
theorem Table.nodup_of_entries_eq {t : Table α} {f : String × α → γ} {xs : List β} {name : β → String} {g : β → γ}
    (h : t.entries.map (fun e => (e.1, f e)) = xs.map fun x => (name x, g x)) : (xs.map name).Nodup := by
  have hnames := congrArg (List.map Prod.fst) h
  rw [List.map_map, List.map_map] at hnames
  exact hnames ▸ t.nodup

namespace Assembly

variable {tree : IncludeTree} {a a' : Assembly}

/-! ## Notes -/

theorem notes_addColor (a : Assembly) (color : TokenColor) : (a.addColor color).notes = a.notes := by
  unfold addColor
  split <;> rfl

theorem notes_addNotes {path : String} {notes : List Note} (hrun : notes.foldlM (addNote path) a = .ok a') :
    a'.notes.entries = a.notes.entries ++
      notes.map fun note => (qualify path note.id, { note with id := qualify path note.id }) := by
  refine foldlM_invariant (P := fun passed s => s.notes.entries = a.notes.entries ++
    passed.map fun note => (qualify path note.id, { note with id := qualify path note.id })) ?_ (by simp) hrun
  intro before note after s s' _ h hstep
  simp only [addNote, bind_eq_ok] at hstep
  obtain ⟨inserted, hinserted, hstep⟩ := hstep
  obtain ⟨hnew, rfl⟩ := insertNew_eq_ok hinserted
  cases hstep
  rw [Table.entries_insert _ hnew, h, List.map_append, List.append_assoc]
  rfl

theorem notes_addNode {id : NodeId} {node : TreeNode} (h : a.addNode id node = .ok a') :
    a'.notes.entries = a.notes.entries ++
      node.net.notes.values.map fun note => (qualify node.path note.id, { note with id := qualify node.path note.id }) := by
  simp only [addNode, bind_eq_ok] at h
  obtain ⟨a₁, hnotes, a₂, hplaces, a₃, hparameters, a₄, htransitions, harcs⟩ := h
  have hcolors : (node.net.colors.values.foldl addColor a).notes = a.notes :=
    List.foldlRecOn (motive := fun s : Assembly => s.notes = a.notes) _ _ rfl
      fun s hs color _ => (notes_addColor s color).trans hs
  -- only the notes of the node are added to the notes
  have h₂ := foldlM_keeps Assembly.notes (fun _ _ _ hstep => by
    obtain ⟨_, _, rfl⟩ := addPlace_eq_ok rfl hstep
    rfl) hplaces
  have h₃ := foldlM_keeps Assembly.notes (fun _ _ _ hstep => by
    obtain ⟨_, _, _, rfl⟩ := addParameter_eq_ok hstep
    rfl) hparameters
  have h₄ := foldlM_keeps Assembly.notes (fun _ _ _ hstep => by
    obtain ⟨_, _, _, _, rfl⟩ := addTransition_eq_ok hstep
    rfl) htransitions
  have h₅ := foldlM_keeps Assembly.notes (fun _ _ _ hstep => by
    obtain ⟨_, _, _, rfl⟩ := addArc_eq_ok hstep
    rfl) harcs
  rw [h₅, h₄, h₃, h₂, notes_addNotes hnotes, hcolors]

/-- Copying a whole tree copies the notes in the order of the walk. -/
theorem notes_of_ofTree (h : ofTree tree = .ok a) : a.notes.entries =
    (notesOf tree.walk).map fun l => (l.flatId Note.id, { l.part with id := l.flatId Note.id }) := by
  refine foldlM_invariant (P := fun nodes s => s.notes.entries =
    (notesOf nodes).map fun l => (l.flatId Note.id, { l.part with id := l.flatId Note.id })) ?_ rfl h
  rintro nodes ⟨id, node⟩ after s s' _ hs hstep
  rw [notes_addNode hstep, hs, notesOf, localsOf_snoc, List.map_append, List.map_map]
  rfl

/-- Merging touches no note. -/
theorem notes_of_joined (h : joined tree = .ok a) : a.notes.entries =
    (notesOf tree.walk).map fun l => (l.flatId Note.id, { l.part with id := l.flatId Note.id }) := by
  rw [joined, bind_eq_ok] at h
  obtain ⟨a₀, ha₀, hrun⟩ := h
  have hmerges := foldlM_keeps Assembly.notes (fun _ _ _ hstep => by
    obtain ⟨_, _, _, _, _, _, _, _, rfl⟩ := merge_eq_ok hstep
    rfl) hrun
  rw [hmerges, notes_of_ofTree ha₀]

/-! ## What merging leaves -/

theorem Redirect.frame_transition {r : Redirect} {t t' : Transition} (h : r.transition t = .ok t') :
    t'.frame = t.frame := by
  rw [Redirect.transition, bind_eq_ok] at h
  obtain ⟨rate, _, h⟩ := h
  cases h
  rfl

theorem Redirect.frame_arc {r : Redirect} {arc arc' : Arc} (h : r.arc arc = .ok arc') :
    arc'.frame = arc.frame ∧ arc'.weights.names = arc.weights.names := by
  obtain ⟨weights, hweights, rfl⟩ := Redirect.arc_eq_ok h
  exact ⟨rfl, names_of_forall₂ (Table.mapExcept_eq_ok.1 hweights)⟩

/-- The places that stay are those that stand for themselves, in their order. -/
theorem Merged.places_eq {ps : List (Local Place)} {rs : List (Local RateParameter)} {ts : List (Local Transition)}
    {as : List (Local Arc)} {a₀ : Assembly} (h : Merged tree ps a₀ ps a) (hcopied : Copied tree ps rs ts as a₀) :
    a.places.entries = (ps.filter fun l => ¬ l.IsBorrowed).map fun l => (l.flat, { l.part with id := l.flat }) := by
  have hstays : ∀ l ∈ ps, (l.flat ∉ (redirectsOf tree ps).map Redirect.old ↔ ¬ l.IsBorrowed) := by
    intro l hl
    rw [← Local.home?_eq_none_iff]
    constructor
    · intro hkept
      by_contra hhome
      -- a place that waits for a home has found one
      obtain ⟨flat, _, htarget, _⟩ := h.homes l hl (Option.isSome_iff_ne_none.2 hhome)
      exact hkept (mem_map_old.2 ⟨l, hl, by rw [htarget]; rfl, rfl⟩)
    · intro hhome hold
      obtain ⟨k, hk, hsome, hflat⟩ := mem_map_old.1 hold
      cases hcopied.eq_of_flat_eq hk hl hflat
      rw [target?_eq_none hhome] at hsome
      cases hsome
  rw [h.places, hcopied.places, List.filter_map]
  have hkeep : ps.filter ((fun e => !((redirectsOf tree ps).map Redirect.old).contains e.1) ∘ fun l => (l.flat, l.copy)) =
      ps.filter fun l => ¬ l.IsBorrowed := by
    refine List.filter_congr fun l hl => ?_
    rw [Bool.eq_iff_iff, decide_eq_true_iff, ← hstays l hl]
    simp
  rw [hkeep]
  refine List.map_congr_left fun l hl => ?_
  have hown : l.home? = none := Local.home?_eq_none_iff.2 (by simpa using (List.mem_filter.1 hl).2)
  rw [Local.copy_eq hown]

end Assembly


namespace FlatNet

open Assembly

variable {tree : IncludeTree} {net : FlatNet}

/-! ## The inventory -/

/-- The components of a flat net are those of the nodes, in their order, each under its qualified id; of the
places, those that stand for a place of another node are left out. -/
structure Lists (net : FlatNet) (nodes : List (NodeId × TreeNode)) : Prop where
  notes : net.notes.entries =
    (notesOf nodes).map fun l => (l.flatId Note.id, { l.part with id := l.flatId Note.id })
  places : net.places.entries = ((placesOf nodes).filter fun l => ¬ l.IsBorrowed).map fun l =>
    (l.flatId Place.id, { l.part with id := l.flatId Place.id })
  parameters : net.parameters.entries.map (fun e => (e.1, e.2.id)) =
    (parametersOf nodes).map fun l => (l.flatId RateParameter.id, l.flatId RateParameter.id)
  /-- The rate of a transition is an expression or a rate parameter under other names. -/
  transitions : net.transitions.entries.map (fun e => (e.1, e.2.transition.frame)) =
    (transitionsOf nodes).map fun l => (l.flatId Transition.id, { l.part.frame with id := l.flatId Transition.id })
  /-- So are the weights of an arc, and its place may have been merged. -/
  arcs : net.arcs.entries.map (fun e => (e.1, e.2.arc.frame, e.2.weights.map Prod.fst)) =
    (arcsOf nodes).map fun l => (l.flatId Arc.id,
      { l.part.frame with id := l.flatId Arc.id, transition := l.flatId Arc.transition }, l.part.weights.names)

/-- The qualified ids of components of one kind are different, and no place has the id of a transition. This is
asked of all places, also of those that stand for another one. -/
structure Distinct (nodes : List (NodeId × TreeNode)) : Prop where
  notes : ((notesOf nodes).map (Local.flatId Note.id)).Nodup
  places : ((placesOf nodes).map (Local.flatId Place.id)).Nodup
  parameters : ((parametersOf nodes).map (Local.flatId RateParameter.id)).Nodup
  transitions : ((transitionsOf nodes).map (Local.flatId Transition.id)).Nodup
  arcs : ((arcsOf nodes).map (Local.flatId Arc.id)).Nodup
  apart : ∀ place ∈ placesOf nodes, ∀ transition ∈ transitionsOf nodes,
    place.flatId Place.id ≠ transition.flatId Transition.id

theorem lists_of_ofTree (h : FlatNet.ofTree tree = .ok net) : net.Lists tree.walk := by
  obtain ⟨a, ha, hnet⟩ := compiledFrom_of_ofTree h
  obtain ⟨a₀, hcopied, hmerged⟩ := merged_of_joined ha
  -- a component that is neither a note nor a place is copied, merged and, but for parameters, compiled
  have hparameters := forall₂_trans (T := fun l e => (e.1, e.2.id) =
      (l.flatId RateParameter.id, l.flatId RateParameter.id)) (fun l e d hcopy hmerge => by
    rw [hmerge.1, foldlM_keeps RateParameter.id (fun _ _ _ => Redirect.parameter_id) hmerge.2, hcopy.2.1, hcopy.1]
    rfl) hcopied.parameters hmerged.parameters
  have htransitions := forall₂_trans (T := fun l e => (e.1, e.2.frame) =
      (l.flatId Transition.id, { l.part.frame with id := l.flatId Transition.id })) (fun l e d hcopy hmerge => by
    obtain ⟨hid, rate, _, hcopy⟩ := hcopy
    rw [hmerge.1, foldlM_keeps Transition.frame (fun _ _ _ => Redirect.frame_transition) hmerge.2, hcopy, hid]
    rfl) hcopied.transitions hmerged.transitions
  have harcs := forall₂_trans (T := fun l e => (e.1, e.2.frame, e.2.weights.names) = (l.flatId Arc.id,
      { l.part.frame with id := l.flatId Arc.id, transition := l.flatId Arc.transition }, l.part.weights.names))
      (fun l e d hcopy hmerge => by
    obtain ⟨hid, weights, hweights, hcopy⟩ := hcopy
    rw [hmerge.1, foldlM_keeps Arc.frame (fun _ _ _ harc => (Redirect.frame_arc harc).1) hmerge.2,
      foldlM_keeps (fun arc : Arc => arc.weights.names) (fun _ _ _ harc => (Redirect.frame_arc harc).2) hmerge.2,
      hcopy, hid]
    exact congrArg (fun names => (_, _, names)) (names_of_forall₂ (Table.mapExcept_eq_ok.1 hweights)))
    hcopied.arcs hmerged.arcs
  refine ⟨by rw [hnet.notes, notes_of_joined ha], ?_, ?_, ?_, ?_⟩
  · rw [hnet.places, hmerged.places_eq hcopied]
    rfl
  · rw [hnet.parameters]
    exact map_eq_of_forall₂ hparameters fun _ _ hd => hd
  · refine map_eq_of_forall₂ (forall₂_trans (fun l e d hl hd => ?_) htransitions hnet.transitions) fun _ _ hd => hd
    rw [hd.1, hd.2.1]
    exact hl
  · refine map_eq_of_forall₂ (forall₂_trans (fun l e d hl hd => ?_) harcs hnet.arcs) fun _ _ hd => hd
    rw [hd.1, hd.2.1, map_eq_of_forall₂ hd.2.2.2.2 fun _ _ hw => hw.1]
    exact hl

theorem distinct_of_ofTree (h : FlatNet.ofTree tree = .ok net) : Distinct tree.walk := by
  obtain ⟨a, ha, hnet⟩ := compiledFrom_of_ofTree h
  obtain ⟨a₀, hcopied, hmerged⟩ := merged_of_joined ha
  have hlists := lists_of_ofTree h
  refine ⟨?_, hcopied.nodup_flat, Table.nodup_of_entries_eq hlists.parameters,
    Table.nodup_of_entries_eq hlists.transitions, Table.nodup_of_entries_eq hlists.arcs, ?_⟩
  · have hnames := net.notes.nodup
    rw [hlists.notes, List.map_map] at hnames
    exact hnames
  · intro place hplace transition htransition heq
    have hthere : a₀.places.contains (place.flatId Place.id) = true :=
      hcopied.contains_place_iff.2 ⟨place, hplace, rfl⟩
    have hnone := hcopied.apart _ hthere
    obtain ⟨e, he, hcopy⟩ := exists_right_of_forall₂ hcopied.transitions htransition
    rw [heq, Local.flatId, ← hcopy.1, Table.mem_names_iff.1 (List.mem_map_of_mem he)] at hnone
    cases hnone

/-- When a tree can be joined, its nodes in depth-first order give the flat net: notes, places, rate parameters,
transitions and arcs are those of the nodes in this order, each once and under its qualified id, without the
places that stand for a place of another node. No two ids of one kind are the same, and no place has the id of a
transition. -/
theorem inventory (harises : tree.Arises) (h : FlatNet.ofTree tree = .ok net) :
    ∃ nodes, tree.Traverses [tree.root] (nodes.map Prod.fst) ∧ (∀ e ∈ nodes, tree.node? e.1 = some e.2) ∧
      net.Lists nodes ∧ Distinct nodes :=
  ⟨tree.walk, harises.hung.treelike.walks, fun _ he => node?_of_mem_walk he, lists_of_ofTree h,
    distinct_of_ofTree h⟩

/-- The root of this tree has a place that stands for one of the node below it, and the joined net has the one
place only. -/
theorem inventory_lending : lending.Arises ∧ ∃ net, FlatNet.ofTree lending = .ok net ∧ net.places.names = ["a.P"] ∧
    ∃ nodes, lending.Traverses [lending.root] (nodes.map Prod.fst) ∧
      (∀ e ∈ nodes, lending.node? e.1 = some e.2) ∧ net.Lists nodes ∧ Distinct nodes := by
  have harises : lending.Arises := (Sample.reachable_pair _ _ _).arises
  have hrun : (FlatNet.ofTree lending).map (fun net => net.places.names) = .ok ["a.P"] := by decide +kernel
  obtain ⟨net, hnet, hnames⟩ := map_eq_ok.1 hrun
  exact ⟨harises, net, hnet, hnames, inventory harises hnet⟩

end FlatNet

end PetriTree
