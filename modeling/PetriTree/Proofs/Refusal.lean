import PetriTree.Proofs.Merge
import PetriTree.Flat.Compile

/-!
# PetriTree — what joining is refused for

Copying, reading and compiling refuse a tree for what they find in expressions, ids and arcs. For want of
a home only the merge of an interface place refuses it, and a home stays where it is once it was copied.

Main results:
* `Assembly.failsOnly_joined` — joining finds every home when all homes are copied;
* `FlatNet.failsOnly_ofTree` — and so does all that follows.
-/

namespace PetriTree

/-- The refusal is not for want of a home. -/
def FlattenError.IsHoused (e : FlattenError) : Prop := ∀ away node, e ≠ .missingHome away node

namespace Assembly

open FlattenError (IsHoused)

/-! ## Copying -/

theorem failsOnly_read (component text : String) : FailsOnly IsHoused (read component text) := by
  unfold read
  split
  · exact .ok _
  · exact .error fun _ _ => by simp

theorem failsOnly_renameText (component : String) (places parameters : String → String) (text : String) :
    FailsOnly IsHoused (renameText component places parameters text) := by
  refine (failsOnly_read component text).bind fun e _ => ?_
  split <;> exact .ok _

theorem failsOnly_mapWeights {f : String → Except FlattenError String} (hf : ∀ text, FailsOnly IsHoused (f text))
    (arc : Arc) : FailsOnly IsHoused (mapWeights f arc) :=
  (FailsOnly.mapExcept (fun _ => hf) arc.weights).bind fun _ _ => .ok _

theorem failsOnly_mapRate {f : String → Except FlattenError String} (hf : ∀ text, FailsOnly IsHoused (f text))
    (rate : Rate) : FailsOnly IsHoused (mapRate f rate) := by
  cases rate with
  | expression text => exact (hf text).bind fun _ _ => .ok _
  | parameter id => exact .ok _

theorem failsOnly_insertNew (t : Table α) (id : String) (value : α) (kind : ComponentKind) :
    FailsOnly IsHoused (insertNew t id value kind) := by
  unfold insertNew
  split
  · exact .error fun _ _ => by simp
  · exact .ok _

theorem failsOnly_addNote (path : String) (a : Assembly) (note : Note) :
    FailsOnly IsHoused (addNote path a note) :=
  (failsOnly_insertNew ..).bind fun _ _ => .ok _

theorem failsOnly_addPlace (id : NodeId) (node : TreeNode) (a : Assembly) (place : Place) :
    FailsOnly IsHoused (addPlace id node a place) := by
  refine .guard (fun _ _ => by simp) ?_
  cases foreignHome id place.status <;> exact (failsOnly_insertNew ..).bind fun _ _ => .ok _

theorem failsOnly_addParameter (path : String) (a : Assembly) (parameter : RateParameter) :
    FailsOnly IsHoused (addParameter path a parameter) :=
  (failsOnly_renameText ..).bind fun _ _ => (failsOnly_insertNew ..).bind fun _ _ => .ok _

theorem failsOnly_qualifyRate (path component : String) (rate : Rate) :
    FailsOnly IsHoused (qualifyRate path component rate) := by
  cases rate with
  | expression text => exact (failsOnly_renameText ..).bind fun _ _ => .ok _
  | parameter id => exact .ok _

theorem failsOnly_addTransition (path : String) (a : Assembly) (transition : Transition) :
    FailsOnly IsHoused (addTransition path a transition) := by
  refine .guard (fun _ _ => by simp) ?_
  exact (failsOnly_qualifyRate ..).bind fun _ _ => (failsOnly_insertNew ..).bind fun _ _ => .ok _

theorem failsOnly_addArc (path : String) (a : Assembly) (arc : Arc) :
    FailsOnly IsHoused (addArc path a arc) := by
  refine (failsOnly_mapWeights (fun text => failsOnly_renameText ..) _).bind fun _ _ => ?_
  exact (failsOnly_insertNew ..).bind fun _ _ => .ok _

theorem failsOnly_addNode (a : Assembly) (id : NodeId) (node : TreeNode) :
    FailsOnly IsHoused (a.addNode id node) := by
  refine (FailsOnly.foldlM_of_forall (failsOnly_addNote node.path) _ _).bind fun _ _ => ?_
  refine (FailsOnly.foldlM_of_forall (failsOnly_addPlace id node) _ _).bind fun _ _ => ?_
  refine (FailsOnly.foldlM_of_forall (failsOnly_addParameter node.path) _ _).bind fun _ _ => ?_
  refine (FailsOnly.foldlM_of_forall (failsOnly_addTransition node.path) _ _).bind fun _ _ => ?_
  exact FailsOnly.foldlM_of_forall (failsOnly_addArc node.path) _ _

theorem failsOnly_ofTree (tree : IncludeTree) : FailsOnly IsHoused (ofTree tree) := by
  refine FailsOnly.foldlM_of_forall (fun a e => ?_) tree.walk empty
  exact failsOnly_addNode a e.1 e.2

/-! ## Merging -/

/-- A merge whose home is there is refused for other things only. -/
theorem failsOnly_merge {tree : IncludeTree} {a : Assembly} {away : AwayPlace} {home : String}
    (h : a.homeOf tree away.home = some home) : FailsOnly IsHoused (merge tree a away) := by
  simp only [merge, h]
  refine (FailsOnly.mapExcept (fun _ arc => ?_) _).bind fun _ _ => ?_
  · exact failsOnly_mapWeights (fun text => failsOnly_renameText ..) _
  refine (FailsOnly.mapExcept (fun _ p => ?_) _).bind fun _ _ => ?_
  · exact (failsOnly_renameText ..).bind fun _ _ => .ok _
  refine (FailsOnly.mapExcept (fun _ t => ?_) _).bind fun _ _ => .ok _
  exact (failsOnly_mapRate (fun text => failsOnly_renameText ..) _).bind fun _ _ => .ok _

/-- Joining finds every home, when every home was copied. -/
theorem failsOnly_joined {tree : IncludeTree}
    (hhomes : ∀ a, ofTree tree = .ok a → ∀ away ∈ a.aways, ∃ home, a.homeOf tree away.home = some home) :
    FailsOnly IsHoused (joined tree) := by
  refine (failsOnly_ofTree tree).bind fun a ha => ?_
  have hcopied := copied_of_ofTree ha
  -- a copy that waits for its home is no home itself
  have hwaits : ∀ away ∈ a.aways, ∀ place, a.places.get? away.flatId = some place →
      place.status.merge ≠ .home := by
    intro away haway place hplace
    rw [hcopied.aways] at haway
    obtain ⟨l, hl, hlaway⟩ := List.mem_filterMap.1 haway
    obtain ⟨home, hhome, rfl⟩ := Option.map_eq_some_iff.1 hlaway
    have hfound : a.places.get? l.flat = some place := hplace
    rw [hcopied.get?_flat hl] at hfound
    cases hfound
    rw [Local.merge_copy (by rw [hhome]; rfl)]
    simp
  -- merging takes out copies that wait, so homes stay
  refine FailsOnly.foldlM (I := fun s : Assembly => ∀ flat place, a.places.get? flat = some place →
    place.status.merge = .home → s.places.get? flat = some place) (fun s away haway hs => ?_)
    fun _ _ hplace _ => hplace
  obtain ⟨home, hhome⟩ := hhomes a ha away haway
  obtain ⟨node, place, hnode, rfl, hplace, hmerge⟩ := homeOf_eq_some hhome
  -- the home was found among the copies and is still there
  have hstill : s.homeOf tree away.home = some (qualify node.path away.home.place) := by
    simp [homeOf, hnode, hs _ _ hplace hmerge, hmerge]
  refine ⟨failsOnly_merge hstill, fun s' hs' flat found hfound hfoundMerge => ?_⟩
  obtain ⟨_, _, _, _, _, _, _, _, rfl⟩ := merge_eq_ok hs'
  dsimp only
  rw [Table.get?_erase, if_neg ?_, hs flat found hfound hfoundMerge]
  rintro rfl
  exact hwaits away haway found hfound hfoundMerge

/-! ## Compiling -/

theorem failsOnly_checkMentions (a : Assembly) (component : String) (e : Expr) :
    FailsOnly IsHoused (a.checkMentions component e) := by
  unfold checkMentions
  split
  · exact .error fun _ _ => by simp
  · split
    · exact .error fun _ _ => by simp
    · split
      · exact .error fun _ _ => by simp
      · exact .ok _

theorem failsOnly_compileText (a : Assembly) (component text : String) :
    FailsOnly IsHoused (a.compileText component text) :=
  (failsOnly_read ..).bind fun _ _ => (failsOnly_checkMentions ..).bind fun _ _ => .ok _

theorem failsOnly_compileParameters (a : Assembly) : ∀ parameters : List RateParameter,
    FailsOnly IsHoused (a.compileParameters parameters)
  | [] => .ok []
  | p :: rest => by
    refine (failsOnly_compileText a p.id p.expression).bind fun _ _ => ?_
    exact (failsOnly_compileParameters a rest).bind fun _ _ => .ok _

theorem failsOnly_compileTransition (a : Assembly) (t : Transition) :
    FailsOnly IsHoused (a.compileTransition t) := by
  unfold compileTransition
  split
  · refine (failsOnly_read ..).bind fun _ _ => ?_
    exact (failsOnly_checkMentions ..).bind fun _ _ => .ok _
  · exact (failsOnly_checkMentions ..).bind fun _ _ => .ok _

theorem failsOnly_checkEndpoint (a : Assembly) (arc endpoint : String) :
    FailsOnly IsHoused (a.checkEndpoint arc endpoint) := by
  unfold checkEndpoint
  split
  · exact .ok _
  · exact .error fun _ _ => by simp

theorem failsOnly_compileWeights (a : Assembly) (arc : String) : ∀ weights : List (String × String),
    FailsOnly IsHoused (a.compileWeights arc weights)
  | [] => .ok []
  | (color, text) :: rest => by
    refine .guard (fun _ _ => by simp) ?_
    refine (failsOnly_compileText a arc text).bind fun _ _ => ?_
    exact (failsOnly_compileWeights a arc rest).bind fun _ _ => .ok _

theorem failsOnly_compileArc (a : Assembly) (arc : Arc) : FailsOnly IsHoused (a.compileArc arc) := by
  refine (failsOnly_checkEndpoint ..).bind fun _ _ => ?_
  refine (failsOnly_checkEndpoint ..).bind fun _ _ => ?_
  exact (failsOnly_compileWeights ..).bind fun _ _ => .ok _

theorem failsOnly_compile (a : Assembly) (name : String) : FailsOnly IsHoused (a.compile name) := by
  refine (failsOnly_compileParameters a _).bind fun definitions _ => ?_
  dsimp only
  split
  · refine (FailsOnly.mapExcept (fun _ => failsOnly_compileTransition a) _).bind fun _ _ => ?_
    exact (FailsOnly.mapExcept (fun _ => failsOnly_compileArc a) _).bind fun _ _ => .ok _
  · exact .error fun _ _ => by simp

end Assembly

/-- A tree all of whose homes are copied is not refused for want of one. -/
theorem FlatNet.failsOnly_ofTree {tree : IncludeTree} (hhomes : ∀ a, Assembly.ofTree tree = .ok a →
    ∀ away ∈ a.aways, ∃ home, a.homeOf tree away.home = some home) :
    FailsOnly FlattenError.IsHoused (FlatNet.ofTree tree) :=
  (Assembly.failsOnly_joined hhomes).bind fun a _ => Assembly.failsOnly_compile a _

end PetriTree
