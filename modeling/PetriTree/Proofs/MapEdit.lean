import PetriTree.Proofs.Registry

/-!
# PetriTree — edits of several maps

An edit of the interface maps is checked in every node it is for before it is made in any. The edit of a
used entry renames a place as well, and renaming may be refused. By then this cannot happen: what an edit
asks of a node was looked at, and no node stands in the way of another. A node that is reached a second
time has nothing left to edit.

Main results:
* `applyCommand_of_open` — an edit that nothing stands against is made;
* `applyAll_of_open` — and so it is in one node after the other, with the same result in any order;
* `execute_cases` — a command on maps is refused with the tree as it was, or all its nodes are edited.
-/

namespace PetriTree

namespace Table

theorem insertEntry_again (name : String) (value : α) : ∀ entries : List (String × α),
    insertEntry name value (insertEntry name value entries) = insertEntry name value entries
  | [] => by simp [insertEntry]
  | (key, old) :: rest => by
    by_cases hkey : key = name
    · simp [insertEntry, hkey]
    · simp only [insertEntry, if_neg hkey, insertEntry_again name value rest]

/-- An insertion that is repeated changes nothing. -/
theorem insert_again (t : Table α) (name : String) (value : α) :
    (t.insert name value).insert name value = t.insert name value := by
  simp only [insert, insertEntry_again]

end Table

/-- A place that is there gets any name that is free. -/
theorem Net.exists_renamePlace {net : Net} {old new : String} (hplace : net.places.contains old = true)
    (hfresh : net.isNode new = false) : ∃ after, net.renamePlace old new = .ok after := by
  obtain ⟨place, hfound⟩ := Option.isSome_iff_exists.1 hplace
  simp only [renamePlace, refuseIf, hfresh, Net.place, hfound, NetError.required]
  exact ⟨_, rfl⟩

namespace IncludeTree

variable {tree after : IncludeTree} {command : MapCommand} {node node' : TreeNode} {old new : String}

/-! ## One node -/

/-- The entry of a node can get another name: the name is free in its map, and in its net as well if the
entry is in use. -/
structure Renames (old new : String) (node : TreeNode) (entry : InterfacePlace) : Prop where
  listed : node.interface.get? old = some entry
  free : node.interface.contains new = false
  placed : entry.state = .inUse → node.net.places.contains old = true
  fresh : entry.state = .inUse → node.net.isNode new = false

theorem Renames.ne {entry : InterfacePlace} (h : Renames old new node entry) : old ≠ new := by
  rintro rfl
  have hfree := h.free
  simp [Table.contains, h.listed] at hfree

/-- The check of a new name. -/
theorem commandProblem_rename (h : commandProblem (.rename old new) node = none) :
    ∃ entry, Renames old new node entry := by
  unfold commandProblem at h
  dsimp only at h
  split at h
  · cases h
  · rename_i entry hentry
    split at h
    · cases h
    · rename_i hfree
      refine ⟨entry, hentry, by simpa using hfree, fun huse => ?_, fun huse => ?_⟩
      · cases hplace : node.net.places.contains old with
        | true => rfl
        | false => simp [huse, hplace] at h
      · cases htaken : node.net.isNode new with
        | false => rfl
        | true => cases hplace : node.net.places.contains old <;> simp [huse, hplace, htaken] at h

/-- A node whose entry got another name. Its net has the place renamed if the entry is in use, and is
the net of before otherwise. -/
theorem applyCommand_rename {entry : InterfacePlace} (h : Renames old new node entry) :
    ∃ net, (entry.state = .inUse → node.net.renamePlace old new = .ok net) ∧
      (entry.state ≠ .inUse → net = node.net) ∧
      applyCommand (.rename old new) node = .ok { node with
        net := net
        interface := (node.interface.rename old new).modify new fun e => { e with awayId := new } } := by
  by_cases huse : entry.state = .inUse
  · obtain ⟨net, hedit⟩ := Net.exists_renamePlace (h.placed huse) (h.fresh huse)
    refine ⟨net, fun _ => hedit, fun hnot => absurd huse hnot, ?_⟩
    simp only [applyCommand, h.listed, huse, hedit]
    rfl
  · refine ⟨node.net, fun huse' => absurd huse' huse, fun _ => rfl, ?_⟩
    have hbeq : (entry.state == .inUse) = false := by simpa using huse
    simp only [applyCommand, h.listed, hbeq]
    rfl

/-- What nothing stands against is done, and there is nothing left to do when it comes a second time. -/
theorem applyCommand_of_open (h : commandProblem command node = none) :
    ∃ node', applyCommand command node = .ok node' ∧ applyCommand command node' = .ok node' := by
  cases command with
  | add entry =>
    refine ⟨_, rfl, ?_⟩
    simp only [applyCommand, Table.insert_again]
  | update entry =>
    refine ⟨_, rfl, ?_⟩
    simp only [applyCommand, Table.insert_again]
  | rename old new =>
    obtain ⟨entry, hrenames⟩ := commandProblem_rename h
    obtain ⟨net, _, _, happly⟩ := applyCommand_rename hrenames
    refine ⟨_, happly, ?_⟩
    -- nothing is listed under the old name any more
    have hgone : ((node.interface.rename old new).modify new fun e => { e with awayId := new }).get? old =
        none := by
      rw [Table.get?_modify, if_neg hrenames.ne.symm, Table.get?_rename old hrenames.free,
        if_neg hrenames.ne, if_pos rfl]
    simp only [applyCommand, hgone]

/-- An edit of a map leaves a node where it hangs. -/
theorem applyCommand_keeps (h : applyCommand command node = .ok node') :
    ∃ net interface, node' = { node with net := net, interface := interface } := by
  unfold applyCommand at h
  split at h
  · cases h
    exact ⟨_, _, rfl⟩
  · cases h
    exact ⟨_, _, rfl⟩
  · split at h
    · cases h
      exact ⟨_, _, rfl⟩
    · dsimp only at h
      split at h <;>
      · obtain ⟨net, _, h⟩ := bind_eq_ok.1 h
        cases h
        exact ⟨_, _, rfl⟩

/-! ## One node after the other -/

/-- The node after an edit, or as it is if the edit is refused. -/
def edited (command : MapCommand) (node : TreeNode) : TreeNode :=
  match applyCommand command node with
  | .ok node => node
  | .error _ => node

theorem edited_eq (h : applyCommand command node = .ok node') : edited command node = node' := by
  rw [edited, h]

/-- The nodes of the list are edited, and nothing else is. -/
structure Edits (command : MapCommand) (ids : List NodeId) (tree after : IncludeTree) : Prop where
  root : after.root = tree.root
  length : after.nodes.slots.length = tree.nodes.slots.length
  nodes : ∀ id, after.node? id =
    if id ∈ ids then (tree.node? id).map (edited command) else tree.node? id

/-- The node has yet to be edited, and nothing stands against it, or there is nothing left to edit. -/
def Open (command : MapCommand) (node : TreeNode) : Prop :=
  commandProblem command node = none ∨ applyCommand command node = .ok node

theorem Open.edited (h : Open command node) : applyCommand command node = .ok (edited command node) ∧
    applyCommand command (edited command node) = .ok (edited command node) := by
  rcases h with h | h
  · obtain ⟨node', happly, hagain⟩ := applyCommand_of_open h
    rw [edited_eq happly]
    exact ⟨happly, hagain⟩
  · rw [edited_eq h]
    exact ⟨h, h⟩

/-- The edits of open nodes are all made. -/
theorem applyAll_of_open {ids : List NodeId}
    (h : ∀ id ∈ ids, ∀ node, tree.node? id = some node → Open command node) :
    ∃ after, applyAll command ids tree = (after, .ok ()) ∧ Edits command ids tree after := by
  induction ids generalizing tree with
  | nil => exact ⟨tree, rfl, rfl, rfl, fun id => by simp⟩
  | cons first rest ih =>
    rw [applyAll]
    cases hfirst : tree.node? first with
    -- an id that stands for nothing is passed over
    | none =>
      obtain ⟨after, happly, hedits⟩ := ih fun id hid => h id (List.mem_cons_of_mem _ hid)
      refine ⟨after, happly, hedits.root, hedits.length, fun id => ?_⟩
      rw [hedits.nodes]
      by_cases hid : id = first
      · simp [hid, hfirst]
      · simp [hid]
    | some node =>
      obtain ⟨hmade, hagain⟩ := (h first (List.mem_cons_self ..) node hfirst).edited
      have hnode : ∀ id, (tree.modifyNode first fun _ => edited command node).node? id =
          if id = first then some (edited command node) else tree.node? id := fun id => by
        rw [node?_modifyNode]
        split
        · rename_i hid
          rw [hid, hfirst]
          rfl
        · rfl
      -- the nodes to come are as they were, or are this one again
      have hrest : ∀ id ∈ rest, ∀ found,
          (tree.modifyNode first fun _ => edited command node).node? id = some found →
            Open command found := by
        intro id hid found hfound
        rw [hnode] at hfound
        split at hfound
        · cases hfound
          exact Or.inr hagain
        · exact h id (List.mem_cons_of_mem _ hid) found hfound
      obtain ⟨after, happly, hedits⟩ := ih hrest
      refine ⟨after, ?_, hedits.root, hedits.length.trans (length_modifyNode ..), fun id => ?_⟩
      · simp only [hmade]
        exact happly
      · rw [hedits.nodes, hnode]
        by_cases hid : id = first
        · simp [hid, hfirst, edited_eq hagain]
        · simp [hid]

theorem Edits.shape {ids : List NodeId} (h : Edits command ids tree after) : tree.SameShape after := by
  have hchildren : ∀ node : TreeNode, (edited command node).children = node.children := fun node => by
    unfold edited
    split
    · rename_i happly
      obtain ⟨_, _, rfl⟩ := applyCommand_keeps happly
      rfl
    · rfl
  refine ⟨h.root, h.length, fun id => ?_⟩
  rw [children?, h.nodes, children?]
  split
  · rw [Option.map_map]
    exact congrArg (fun f => (tree.node? id).map f) (funext fun node => by
      rw [Function.comp_apply, hchildren])
  · rfl

/-! ## Commands on maps -/

/-- Nothing stands against the command in any of the nodes that the scope selects. -/
def Unopposed (tree : IncludeTree) (id : NodeId) (scope : Scope) (command : MapCommand) : Prop :=
  ∀ n ∈ tree.scopeNodes id scope, ∀ node, tree.node? n = some node → commandProblem command node = none

theorem execute_cases (tree : IncludeTree) (id : NodeId) (scope : Scope) (command : MapCommand) :
    (∃ report, tree.execute id scope command = (tree, .error report)) ∨
      ∃ after, tree.Unopposed id scope command ∧ Edits command (tree.scopeNodes id scope) tree after ∧
        tree.execute id scope command = (after.touch, .ok ()) := by
  unfold execute
  split
  · exact Or.inl ⟨_, rfl⟩
  · rename_i targets htargets
    simp only [commandTargets, Conflict.only, guard_eq_ok, ConflictReport.orElse_eq_ok, problems_eq_nil]
      at htargets
    obtain ⟨_, hopen, rfl⟩ := htargets
    obtain ⟨after, happly, hedits⟩ := applyAll_of_open fun n hn node hnode => Or.inl (hopen n hn node hnode)
    refine Or.inr ⟨after, hopen, hedits, ?_⟩
    rw [happly]

end IncludeTree

end PetriTree
