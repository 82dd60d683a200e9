import PetriTree.Proofs.Ledger
import PetriTree.Proofs.Rooted

/-!
# PetriTree — the ledger of a tree

The interface maps of the nodes and the statuses of their places are a ledger. Here the commands are
read as changes of it.

Main results:
* `Net.standing?`, `IncludeTree.ledger` — what a net, and what a tree, records about the interface;
* `Net.standing?_perform` — an edit that spares interface places is not recorded;
* `Net.Built.filed` — edits file places under their ids;
* `IncludeTree.entry_announced`, `IncludeTree.standing_setNet_at` — what registering a place and changing a net
  record.
-/

namespace PetriTree

/-! ## What a net records -/

namespace Table

theorem lookup_map_renamed {old new : String} (key : String) : ∀ {entries : List (String × α)},
    new ∉ entries.map Prod.fst →
      lookup key (entries.map fun e => (renamed old new e.1, e.2)) =
        if key = new then lookup old entries else if key = old then none else lookup key entries
  | [], _ => by simp [lookup]
  | (first, value) :: rest, hnew => by
    rw [List.map_cons, List.mem_cons, not_or] at hnew
    rw [List.map_cons, lookup, lookup_map_renamed key hnew.2, lookup, lookup]
    -- the first entry is the renamed one, or keeps its key
    by_cases hfirst : first = old
    · subst hfirst
      by_cases hkey : key = new
      · simp [renamed, hkey]
      · by_cases hold : key = first
        · simp [renamed, hold, Ne.symm hnew.1, hnew.1]
        · simp [renamed, hkey, hold, Ne.symm hkey, Ne.symm hold]
    · by_cases hkey : key = new
      · subst hkey
        simp [renamed, hfirst, Ne.symm hnew.1]
      · by_cases hold : key = old
        · simp [renamed, hold, hfirst]
        · simp [renamed, hkey, hold, hfirst]

theorem get?_rename {t : Table α} {old new : String} (key : String) (hnew : t.contains new = false) :
    (t.rename old new).get? key =
      if key = new then t.get? old else if key = old then none else t.get? key := by
  have hnames : new ∉ t.names := fun hmem => by
    rw [mem_names_iff, hnew] at hmem
    cases hmem
  rw [rename, dif_neg hnames]
  exact lookup_map_renamed key hnames

theorem get?_eq_none_of_contains {t : Table α} {key : String} (h : t.contains key = false) :
    t.get? key = none := Option.not_isSome_iff_eq_none.1 (by simpa [contains] using h)

end Table

namespace Net

/-- The status of a place that is in the interface. -/
def standing? (net : Net) (place : String) : Option PlaceStatus :=
  ((net.places.get? place).map Place.status).filter PlaceStatus.isInterface

theorem standing?_eq_some {net : Net} {place : String} {status : PlaceStatus} :
    net.standing? place = some status ↔
      ∃ found, net.places.get? place = some found ∧ found.status = status ∧ status.isInterface = true := by
  simp only [standing?, Option.filter_eq_some_iff, Option.map_eq_some_iff]
  constructor
  · rintro ⟨⟨found, hfound, hstatus⟩, hinterface⟩
    exact ⟨found, hfound, hstatus, hinterface⟩
  · rintro ⟨found, hfound, hstatus, hinterface⟩
    exact ⟨⟨found, hfound, hstatus⟩, hinterface⟩

/-- A net without interface places has no place that stands for one. -/
theorem standing?_eq_none {net : Net} (h : ∀ place ∈ net.places.values, place.status.isInterface = false)
    (place : String) : net.standing? place = none := by
  cases hplace : net.standing? place with
  | none => rfl
  | some status =>
    obtain ⟨found, hfound, rfl, hinterface⟩ := standing?_eq_some.1 hplace
    rw [h found (Table.mem_values_iff.2 ⟨place, hfound⟩)] at hinterface
    cases hinterface

end Net

/-- The edit neither takes out, renames or gives a new status to an interface place, nor does it make a
place one. -/
def NetEdit.Spares (net : Net) : NetEdit → Prop
  | .add (.place place) => place.status.isInterface = false
  | .removePlace id | .renamePlace id _ => net.standing? id = none
  | .setStatus id status => net.standing? id = none ∧ status.isInterface = false
  | _ => True

namespace Net

section Edits

variable {net after : Net} {id : String}

theorem isNode_eq_false (h : net.isNode id = false) : net.places.get? id = none := by
  simp only [isNode, Bool.or_eq_false_iff] at h
  exact Table.get?_eq_none_of_contains h.1

theorem standing?_addPlace {place : Place} (h : net.addPlace place = .ok after) (key : String) :
    after.standing? key =
      if key = place.id then (some place.status).filter PlaceStatus.isInterface else net.standing? key := by
  obtain ⟨_, rfl⟩ := addPlace_eq_ok h
  simp only [standing?, touch, Table.get?_insert]
  by_cases hkey : key = place.id
  · simp [hkey]
  · rw [if_neg (Ne.symm hkey), if_neg hkey]

theorem standing?_removePlace {place : Place} (h : net.removePlace id = .ok (place, after)) (key : String) :
    after.standing? key = if key = id then none else net.standing? key := by
  obtain ⟨_, rfl⟩ := removePlace_eq_ok h
  simp only [standing?, touch, Table.get?_erase]
  by_cases hkey : key = id
  · simp [hkey]
  · rw [if_neg (Ne.symm hkey), if_neg hkey]

theorem standing?_setStatus {status : PlaceStatus} (h : net.setStatus id status = .ok after) (key : String) :
    after.standing? key =
      if key = id then (some status).filter PlaceStatus.isInterface else net.standing? key := by
  obtain ⟨⟨place, hplace⟩, rfl⟩ := setStatus_eq_ok h
  simp only [standing?, touch, Table.get?_modify]
  by_cases hkey : key = id
  · simp [hkey, hplace]
  · rw [if_neg (Ne.symm hkey), if_neg hkey]

/-- A place takes its standing with it to its new name. -/
theorem standing?_renamePlace {new : String} (h : net.renamePlace id new = .ok after) (key : String) :
    after.standing? key =
      if key = new then net.standing? id else if key = id then none else net.standing? key := by
  obtain ⟨hfresh, _, rfl⟩ := renamePlace_eq_ok h
  have hfree : net.places.contains new = false := by simp [Table.contains, isNode_eq_false hfresh]
  simp only [standing?, touch, Table.get?_modify, Table.get?_rename key hfree]
  by_cases hkey : key = new
  · simp [hkey, Function.comp_def]
  · rw [if_neg (Ne.symm hkey), if_neg hkey, if_neg hkey]
    split
    · rfl
    · rfl

/-- What an edit can do to the places of a net. -/
inductive PlacesAfter (net : Net) : NetEdit → Table Place → Prop
  | add (place : Place) : net.places.get? place.id = none →
      PlacesAfter net (.add (.place place)) (net.places.insert place.id place)
  | remove (id : String) : PlacesAfter net (.removePlace id) (net.places.erase id)
  | status (id : String) (status : PlaceStatus) :
      PlacesAfter net (.setStatus id status) (net.places.modify id fun p => { p with status := status })
  | rename (old new : String) : net.places.contains new = false →
      PlacesAfter net (.renamePlace old new) ((net.places.rename old new).modify new fun p => { p with id := new })
  /-- What a place holds and how much it can hold. -/
  | refill (edit : NetEdit) (id : String) (f : Place → Place) : (∀ p, (f p).id = p.id) →
      (∀ p, (f p).status = p.status) → PlacesAfter net edit (net.places.modify id f)
  | keep (edit : NetEdit) : PlacesAfter net edit net.places

theorem placesAfter_perform {edit : NetEdit} {removed : Option Component}
    (h : net.perform edit = .ok (removed, after)) : net.PlacesAfter edit after.places := by
  cases edit with
  | add component =>
    have hadd := changed_eq_ok h
    cases component with
    | place place =>
      obtain ⟨hfresh, rfl⟩ := addPlace_eq_ok hadd
      exact .add place (isNode_eq_false hfresh)
    | color value =>
      obtain ⟨_, rfl⟩ := addColor_eq_ok hadd
      exact .keep _
    | note value =>
      obtain ⟨_, rfl⟩ := addNote_eq_ok hadd
      exact .keep _
    | rateParameter value =>
      obtain ⟨_, _, rfl⟩ := addParameter_eq_ok hadd
      exact .keep _
    | transition value =>
      obtain ⟨_, _, _, rfl⟩ := addTransition_eq_ok hadd
      exact .keep _
    | arc value =>
      obtain ⟨_, _, _, _, _, rfl⟩ := addArc_eq_ok hadd
      exact .keep _
  | removePlace id =>
    obtain ⟨place, hremove⟩ := taken_eq_ok h
    obtain ⟨_, rfl⟩ := removePlace_eq_ok hremove
    exact .remove id
  | setStatus id status =>
    obtain ⟨_, rfl⟩ := setStatus_eq_ok (changed_eq_ok h)
    exact .status id status
  | renamePlace old new =>
    obtain ⟨hfresh, _, rfl⟩ := renamePlace_eq_ok (changed_eq_ok h)
    exact .rename old new (by simp [Table.contains, isNode_eq_false hfresh])
  | setTokens place color n =>
    obtain ⟨_, _, rfl⟩ := setTokens_eq_ok (changed_eq_ok h)
    exact .refill _ place (fun p => { p with tokens := p.tokens.insert color n }) (fun _ => rfl) fun _ => rfl
  | setCapacity place capacity =>
    obtain ⟨_, rfl⟩ := setCapacity_eq_ok (changed_eq_ok h)
    exact .refill _ place (fun p => { p with capacity := capacity }) (fun _ => rfl) fun _ => rfl
  -- the others are about transitions, arcs and rate parameters
  | removeTransition id =>
    obtain ⟨transition, hremove⟩ := taken_eq_ok h
    obtain ⟨_, rfl⟩ := removeTransition_eq_ok hremove
    exact .keep _
  | removeArc id =>
    obtain ⟨arc, hremove⟩ := taken_eq_ok h
    obtain ⟨_, rfl⟩ := removeArc_eq_ok hremove
    exact .keep _
  | removeParameter id =>
    obtain ⟨parameter, hremove⟩ := taken_eq_ok h
    obtain ⟨_, _, rfl⟩ := removeParameter_eq_ok hremove
    exact .keep _
  | setWeight arc color text =>
    obtain ⟨_, _, _, rfl⟩ := setWeight_eq_ok (changed_eq_ok h)
    exact .keep _
  | setRate transition rate =>
    obtain ⟨_, _, rfl⟩ := setRate_eq_ok (changed_eq_ok h)
    exact .keep _
  | setDelay transition delay =>
    obtain ⟨_, rfl⟩ := setDelay_eq_ok (changed_eq_ok h)
    exact .keep _

/-- An edit that spares interface places is not recorded. -/
theorem standing?_perform {edit : NetEdit} {removed : Option Component} (h : edit.Spares net)
    (hedit : net.perform edit = .ok (removed, after)) (key : String) :
    after.standing? key = net.standing? key := by
  have hplaces := placesAfter_perform hedit
  rw [standing?, standing?]
  generalize after.places = places at hplaces
  cases hplaces with
  | add place hfresh =>
    rw [Table.get?_insert]
    split
    -- there was no place of that name, and the new one is an ordinary one
    · rename_i hkey
      have hplain : place.status.isInterface = false := h
      simp [← hkey, hfresh, Option.filter, hplain]
    · rfl
  | remove id =>
    rw [Table.get?_erase]
    split
    · rename_i hkey
      exact hkey ▸ Eq.symm h
    · rfl
  | status id status =>
    rw [Table.get?_modify]
    split
    -- an ordinary status for an ordinary one
    · rename_i hkey
      have hbefore : ((net.places.get? key).map Place.status).filter PlaceStatus.isInterface = none :=
        hkey ▸ h.1
      rw [hbefore]
      cases net.places.get? key <;> simp [Option.filter, h.2]
    · rfl
  | rename old new hfresh =>
    have hplain : net.standing? old = none := h
    rw [Table.get?_modify, Table.get?_rename key hfresh]
    by_cases hkey : key = new
    -- nothing was filed under the new name, and nothing in the interface under the old one
    · subst hkey
      rw [if_pos rfl, if_pos rfl, Option.map_map, Table.get?_eq_none_of_contains hfresh]
      exact hplain
    · rw [if_neg (Ne.symm hkey), if_neg hkey]
      by_cases hold : key = old
      · rw [if_pos hold, hold]
        exact hplain.symm
      · rw [if_neg hold]
  | refill _ id f _ hstatus =>
    rw [Table.get?_modify]
    split
    · simp only [Option.map_map, Function.comp_def, hstatus]
    · rfl
  | keep => rfl

/-- Places are filed under their ids. -/
def Filed (net : Net) : Prop := ∀ key place, net.places.get? key = some place → place.id = key

theorem Filed.perform {edit : NetEdit} {removed : Option Component} (h : net.Filed)
    (hedit : net.perform edit = .ok (removed, after)) : after.Filed := by
  intro key place hplace
  have hplaces := placesAfter_perform hedit
  generalize after.places = places at hplaces hplace
  cases hplaces with
  | add place =>
    rw [Table.get?_insert] at hplace
    split at hplace
    · rename_i hkey
      cases hplace
      exact hkey
    · exact h key _ hplace
  | remove id =>
    rw [Table.get?_erase] at hplace
    split at hplace
    · cases hplace
    · exact h key _ hplace
  | status id status =>
    rw [Table.get?_modify] at hplace
    split at hplace
    · obtain ⟨before, hbefore, rfl⟩ := Option.map_eq_some_iff.1 hplace
      exact h key before hbefore
    · exact h key _ hplace
  | rename old new hfresh =>
    rw [Table.get?_modify, Table.get?_rename key hfresh] at hplace
    split at hplace
    -- the id of a renamed place follows its key
    · rename_i hkey
      obtain ⟨before, _, rfl⟩ := Option.map_eq_some_iff.1 hplace
      exact hkey
    · rename_i hkey
      rw [if_neg (Ne.symm hkey)] at hplace
      split at hplace
      · cases hplace
      · exact h key _ hplace
  | refill _ id f hid _ =>
    rw [Table.get?_modify] at hplace
    split at hplace
    · obtain ⟨before, hbefore, rfl⟩ := Option.map_eq_some_iff.1 hplace
      rw [hid, h key before hbefore]
    · exact h key _ hplace
  | keep => exact h key _ hplace

/-- Nets made by edits file their places under their ids. -/
theorem Built.filed {net : Net} (h : net.Built) : net.Filed := by
  induction h with
  | new name =>
    intro key place hplace
    cases hplace
  | named name _ ih => exact ih
  | perform _ hedit ih => exact ih.perform hedit

end Edits

end Net

/-! ## What a tree records -/

namespace IncludeTree

variable {tree after : IncludeTree}

/-- What the maps and the places of a tree record. -/
def ledger (tree : IncludeTree) : Ledger where
  entry id key := (tree.node? id).bind fun node => node.interface.get? key
  standing id place := (tree.node? id).bind fun node => node.net.standing? place

theorem entry_eq {id : NodeId} {node : TreeNode} (h : tree.node? id = some node) (key : String) :
    tree.ledger.entry id key = node.interface.get? key := by
  simp only [ledger, h, Option.bind_some]

theorem standing_eq {id : NodeId} {node : TreeNode} (h : tree.node? id = some node) (place : String) :
    tree.ledger.standing id place = node.net.standing? place := by
  simp only [ledger, h, Option.bind_some]

theorem entry_eq_some {id : NodeId} {key : String} {e : InterfacePlace} :
    tree.ledger.entry id key = some e ↔ ∃ node, tree.node? id = some node ∧ node.interface.get? key = some e :=
  Option.bind_eq_some_iff

theorem standing_eq_some {id : NodeId} {place : String} {status : PlaceStatus} :
    tree.ledger.standing id place = some status ↔
      ∃ node, tree.node? id = some node ∧ node.net.standing? place = some status :=
  Option.bind_eq_some_iff

theorem standing_eq_bind (tree : IncludeTree) (id : NodeId) (place : String) :
    tree.ledger.standing id place = (tree.net? id).bind fun net => net.standing? place := by
  simp only [ledger, net?, Option.bind_map, Function.comp_def]

theorem ledger_touch (tree : IncludeTree) : tree.touch.ledger = tree.ledger := rfl

theorem entry_modifyNode (tree : IncludeTree) (id n : NodeId) (f : TreeNode → TreeNode) (key : String) :
    (tree.modifyNode id f).ledger.entry n key =
      if n = id then (tree.node? n).bind fun node => (f node).interface.get? key
      else tree.ledger.entry n key := by
  simp only [ledger, node?_modifyNode]
  by_cases hn : n = id
  · simp only [if_pos hn, Option.bind_map, Function.comp_def]
  · simp only [if_neg hn]

theorem standing_modifyNode (tree : IncludeTree) (id n : NodeId) (f : TreeNode → TreeNode) (place : String) :
    (tree.modifyNode id f).ledger.standing n place =
      if n = id then (tree.node? n).bind fun node => (f node).net.standing? place
      else tree.ledger.standing n place := by
  simp only [ledger, node?_modifyNode]
  by_cases hn : n = id
  · simp only [if_pos hn, Option.bind_map, Function.comp_def]
  · simp only [if_neg hn]

theorem Relabels.ledger_eq (h : tree.Relabels after) : after.ledger = tree.ledger := by
  have hentry : ∀ t : IncludeTree, t.ledger.entry = fun id key =>
      (t.contents? id).bind fun contents => contents.2.get? key := fun t => by
    simp only [ledger, contents?, Option.bind_map, Function.comp_def]
  have hstanding : ∀ t : IncludeTree, t.ledger.standing = fun id place =>
      (t.contents? id).bind fun contents => contents.1.standing? place := fun t => by
    simp only [ledger, contents?, Option.bind_map, Function.comp_def]
  have hcontents : after.contents? = tree.contents? := funext h.contents
  have heq : ∀ l l' : Ledger, l.entry = l'.entry → l.standing = l'.standing → l = l' := by
    rintro ⟨_, _⟩ ⟨_, _⟩ rfl rfl
    rfl
  exact heq _ _ (by rw [hentry, hentry, hcontents]) (by rw [hstanding, hstanding, hcontents])

/-! ## Changes of maps -/

namespace Remaps

theorem standing (h : tree.Remaps after) (id : NodeId) (place : String) :
    after.ledger.standing id place = tree.ledger.standing id place := by
  rw [standing_eq_bind, standing_eq_bind, h.net?]

end Remaps

theorem remaps_enter (tree : IncludeTree) (key : String) (entry : NodeId → InterfacePlace)
    (targets : List NodeId) : tree.Remaps (tree.enter key entry targets) := by
  unfold enter
  induction targets generalizing tree with
  | nil => exact .refl tree
  | cons first rest ih => exact (remaps_modifyNode tree first _).trans (ih _)

/-- The entry stands in the maps of those targets that are nodes. -/
theorem entry_enter (tree : IncludeTree) (key : String) (entry : NodeId → InterfacePlace)
    (targets : List NodeId) (id : NodeId) (k : String) :
    (tree.enter key entry targets).ledger.entry id k =
      if (id ∈ targets ∧ (tree.node? id).isSome) ∧ k = key then some (entry id)
      else tree.ledger.entry id k := by
  induction targets generalizing tree with
  | nil => simp [enter]
  | cons first rest ih =>
    -- entering changes maps, so the same ids are nodes all along
    have hsome := (remaps_modifyNode tree first fun node =>
      node.interface.insert key (entry first)).shape.isSome id
    rw [enter, List.foldl_cons, ← enter, ih, hsome, entry_modifyNode]
    cases hnode : tree.node? id with
    | none => simp [ledger, hnode]
    | some node =>
      by_cases hfirst : id = first
      · subst hfirst
        by_cases hkey : k = key
        · simp [hkey, Table.get?_insert]
        · simp [hkey, Table.get?_insert, Ne.symm hkey, ledger, hnode]
      · simp [hfirst]

theorem vacant_iff {key : String} {targets : List NodeId} :
    tree.Vacant key targets ↔ ∀ id ∈ targets, tree.ledger.entry id key = none := by
  simp only [Vacant, ledger, Option.bind_eq_none_iff]
  refine forall₂_congr fun id _ => forall₂_congr fun node _ => ?_
  simp [Table.contains]

theorem remaps_announced (tree : IncludeTree) (key : String) (home : HomeRef) :
    tree.Remaps (tree.announced key home) :=
  (remaps_enter ..).trans (remaps_touch _)

theorem entry_announced (tree : IncludeTree) (key : String) (home : HomeRef) (id : NodeId) (k : String) :
    (tree.announced key home).ledger.entry id k =
      if (id ∈ tree.scopeNodes home.node tree.accessScope ∧ (tree.node? id).isSome) ∧ k = key then
        some (homeEntry key home id)
      else tree.ledger.entry id k := by
  rw [announced, ledger_touch, entry_enter]

/-! ## Changes of nets -/

theorem sameShape_setNet (tree : IncludeTree) (id : NodeId) (net : Net) : tree.SameShape (tree.setNet id net) :=
  sameShape_modifyNode tree id fun _ => rfl

theorem entry_setNet (tree : IncludeTree) (id : NodeId) (net : Net) (n : NodeId) (key : String) :
    (tree.setNet id net).ledger.entry n key = tree.ledger.entry n key := by
  rw [setNet, entry_modifyNode]
  split <;> rfl

theorem standing_setNet {id : NodeId} {node : TreeNode} (hnode : tree.node? id = some node) (net : Net)
    (n : NodeId) (place : String) : (tree.setNet id net).ledger.standing n place =
      if n = id then net.standing? place else tree.ledger.standing n place := by
  rw [setNet, standing_modifyNode]
  by_cases hn : n = id
  · rw [if_pos hn, if_pos hn, hn, hnode]
    rfl
  · rw [if_neg hn, if_neg hn]

/-- The new net differs in the standing of one place. -/
theorem standing_setNet_at {id : NodeId} {node : TreeNode} (hnode : tree.node? id = some node) {net : Net}
    {place : String} {status : Option PlaceStatus}
    (hnet : ∀ p, net.standing? p = if p = place then status else node.net.standing? p) (n : NodeId)
    (p : String) : (tree.setNet id net).ledger.standing n p =
      if n = id ∧ p = place then status else tree.ledger.standing n p := by
  rw [standing_setNet hnode]
  by_cases hn : n = id
  · rw [if_pos hn, hnet, hn, standing_eq hnode]
    simp only [true_and]
  · simp only [hn, if_false, false_and]

end IncludeTree

end PetriTree
