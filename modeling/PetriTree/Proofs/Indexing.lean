import PetriTree.Proofs.Lifetime
import PetriTree.Proofs.Traversal

/-!
# PetriTree — slots that are not empty

Where a node has to be there, its slot is accessed without asking whether it is empty. The commands that do so
are written out here with the access as a step that can fail. In a tree whose nodes hang where they belong no
such step fails: a parent that is noted in a node is live, and a node that was just found is too.

Main results:
* `strictAttach`, `strictDetach`, `strictRename` — the commands that access slots without asking;
* `Hung.strictPerform` — none of them meets an empty slot;
* `new_stays_tree` — a tree stays a tree under any commands, its ids last, and no empty slot is met.
-/

namespace PetriTree

namespace Arena

variable {α : Type u} {a : Arena α} {id : NodeId} {value : α}

theorem get_eq_ok (h : a.get? id = some value) : a.get id = .ok value := by rw [get, h]

end Arena

namespace IncludeTree

open Arena (MissingSlot)

variable {tree : IncludeTree} {parent id : NodeId} {net : Net} {name : String}

/-! ## Access without asking -/

/-- The tree with a node changed, which has to be there. -/
def strictModify (tree : IncludeTree) (id : NodeId) (f : TreeNode → TreeNode) :
    Except MissingSlot IncludeTree :=
  (tree.nodes.get id).map fun _ => tree.modifyNode id f

/-- The tree with the names of one node recomputed; the parent it notes has to be there. -/
def strictResolveNames (tree : IncludeTree) (id : NodeId) : Except MissingSlot IncludeTree :=
  match tree.node? id with
  | none => .ok tree
  | some node =>
    match node.parent with
    | none => tree.strictModify id fun n => { n with name := n.localName, qualifiedName := n.localName }
    | some parent => do
      let above ← tree.nodes.get parent
      let name := freeName node.localName (tree.takenNames id)
      tree.strictModify id fun n => { n with
        name := name
        qualifiedName := above.qualifiedName ++ "." ++ name
        path := qualify above.path name }

def strictResolveSubtree (tree : IncludeTree) (id : NodeId) : Except MissingSlot IncludeTree :=
  (tree.subtree id).foldlM strictResolveNames tree

/-- Attaches `net` below a node, unless this is refused. The new node is accessed once more at the end, to tell
its name. -/
def strictAttach (tree : IncludeTree) (parent : NodeId) (net : Net) (name : String) :
    Except MissingSlot (Except ConflictReport (NodeId × IncludeTree)) :=
  match tree.attach parent net name with
  | .error report => .ok (.error report)
  | .ok _ => do
    let id := tree.nodes.nextId
    let tree := { tree with
      nodes := tree.nodes.alloc ⟨name, "", "", "", some parent, Table.empty, net, Table.empty⟩ }
    let tree ← tree.strictModify parent fun node => { node with children := node.children.insert name id }
    let tree ← tree.strictResolveNames id
    let tree := ((tree.seedAvailable id).registerHomes id).touch
    let _ ← tree.nodes.get id
    return .ok (id, tree)

/-- Detaches the subtree included under an alias, unless this is refused. It is taken out of the children of
its parent. -/
def strictDetach (tree : IncludeTree) (parent : NodeId) (name : String) :
    Except MissingSlot (IncludeTree × Except ConflictReport Net) :=
  match tree.detachable parent name with
  | .error report => .ok (tree, .error report)
  | .ok _ => (tree.nodes.get parent).map fun _ => tree.detach parent name

/-- The parent of a node, if it has one, has to be there. -/
def strictLookup (tree : IncludeTree) : Option NodeId → Except MissingSlot Unit
  | none => .ok ()
  | some parent => (tree.nodes.get parent).map fun _ => ()

/-- The tree with a node under another alias, which its parent files it under too. -/
def strictRealiased (tree : IncludeTree) (id : NodeId) (parent : Option NodeId) (old new : String) :
    Except MissingSlot IncludeTree := do
  let tree ← match parent with
    | none => .ok tree
    | some above =>
      tree.strictModify above fun node => { node with children := node.children.rename old new }
  tree.strictModify id fun node => { node with localName := new }

/-- Gives a node a new alias, unless this is refused. -/
def strictRename (tree : IncludeTree) (id : NodeId) (name : String) :
    Except MissingSlot (Except ConflictReport IncludeTree) :=
  match tree.node? id with
  | none => .ok (tree.rename id name)
  | some node => do
    -- whether a sibling has the alias is read off the parent
    let _ ← tree.strictLookup (if isAlias name then node.parent else none)
    match tree.rename id name with
    | .error report => return .error report
    | .ok _ =>
      let tree ← tree.strictRealiased id node.parent node.localName name
      let tree ← tree.strictResolveSubtree id
      return .ok tree.touch

/-- The tree after a command, with its answer. Commands on the interface ask for every node they look up. -/
def strictPerform (tree : IncludeTree) :
    TreeCommand → Except MissingSlot (IncludeTree × Except ConflictReport TreeAnswer)
  | .attach parent net name => (tree.strictAttach parent net name).map (tree.settled .node)
  | .detach parent name => (tree.strictDetach parent name).map (answered .net)
  | .rename id name => (tree.strictRename id name).map tree.settledDone
  | command => .ok (tree.perform command)

def strictPerformAll (tree : IncludeTree) (commands : List TreeCommand) : Except MissingSlot IncludeTree :=
  commands.foldlM (fun tree command => (tree.strictPerform command).map Prod.fst) tree

/-! ## No slot is empty -/

theorem strictModify_eq (hlive : (tree.node? id).isSome) (f : TreeNode → TreeNode) :
    tree.strictModify id f = .ok (tree.modifyNode id f) := by
  obtain ⟨node, hnode⟩ := Option.isSome_iff_exists.1 hlive
  rw [strictModify, Arena.get_eq_ok hnode]
  rfl

/-- The node whose child is looked up is there. -/
theorem strictDetach_eq (tree : IncludeTree) (parent : NodeId) (name : String) :
    tree.strictDetach parent name = .ok (tree.detach parent name) := by
  rw [strictDetach]
  cases hdetachable : tree.detachable parent name with
  | error report => rw [detach, hdetachable]
  | ok id =>
    unfold detachable at hdetachable
    split at hdetachable
    · cases hdetachable
    · rename_i child hchild
      obtain ⟨owner, howner, _⟩ := Option.bind_eq_some_iff.1 hchild
      dsimp only
      rw [Arena.get_eq_ok howner]
      rfl

namespace Hung

/-- The parent that a node notes is live. -/
theorem strictResolveNames (h : tree.Hung) (id : NodeId) :
    tree.strictResolveNames id = .ok (tree.resolveNames id) := by
  rw [IncludeTree.strictResolveNames, resolveNames]
  cases hnode : tree.node? id with
  | none => rfl
  | some node =>
    have hlive : (tree.node? id).isSome := by rw [hnode]; rfl
    cases hparent : node.parent with
    | none =>
      simp only [hparent]
      exact strictModify_eq hlive _
    | some parent =>
      obtain ⟨above, habove⟩ := Option.isSome_iff_exists.1 (h.live_above ((parent?_eq hnode).trans hparent))
      simp only [hparent, habove, Arena.get_eq_ok habove]
      exact strictModify_eq hlive _

/-- Nodes that get new names hang where they hung, so that each finds its parent when it is its turn. -/
theorem strictResolveSubtree (h : tree.Hung) (id : NodeId) :
    tree.strictResolveSubtree id = .ok (tree.resolveSubtree id) := by
  rw [IncludeTree.strictResolveSubtree, resolveSubtree]
  generalize tree.subtree id = ids
  induction ids generalizing tree with
  | nil => rfl
  | cons first rest ih =>
    rw [List.foldlM_cons, h.strictResolveNames, List.foldl_cons]
    exact ih (h.keeps (seat_resolveNames tree first))

/-- The parent was just looked up, and the new node stays where it hangs. -/
theorem strictAttach (h : tree.Hung) : tree.strictAttach parent net name = .ok (tree.attach parent net name) := by
  rw [IncludeTree.strictAttach]
  cases hcommand : tree.attach parent net name with
  | error report => rfl
  | ok outcome =>
    obtain ⟨newId, after⟩ := outcome
    obtain ⟨node, hnode, _⟩ := attach_denotes hcommand
    obtain ⟨owner, howner, halias, hfree, rfl, rfl⟩ := attach_eq_ok hcommand
    have hparent : node? { tree with
        nodes := tree.nodes.alloc ⟨name, "", "", "", some parent, Table.empty, net, Table.empty⟩ } parent =
          some owner := by
      rw [node?, Arena.get?_alloc, if_neg (ne_nextId howner)]
      exact howner
    have hfiled := strictModify_eq (by rw [hparent]; rfl) fun node : TreeNode =>
      { node with children := node.children.insert name tree.nodes.nextId }
    have hresolved := (h.grow_attached net howner halias hfree).strictResolveNames tree.nodes.nextId
    refine bind_eq_ok.2 ⟨_, hfiled, bind_eq_ok.2 ⟨_, hresolved, ?_⟩⟩
    exact bind_eq_ok.2 ⟨node, Arena.get_eq_ok hnode, rfl⟩

/-- A node that is noted as a parent is live. -/
theorem strictLookup (h : tree.Hung) {node : TreeNode} (hnode : tree.node? id = some node) :
    tree.strictLookup node.parent = .ok () := by
  cases hparent : node.parent with
  | none => rfl
  | some parent =>
    obtain ⟨above, habove⟩ := Option.isSome_iff_exists.1 (h.live_above ((parent?_eq hnode).trans hparent))
    rw [IncludeTree.strictLookup, Arena.get_eq_ok habove]
    rfl

theorem strictRealiased (h : tree.Hung) {node : TreeNode} (hnode : tree.node? id = some node) (old new : String) :
    tree.strictRealiased id node.parent old new = .ok (tree.realiased id node.parent old new) := by
  have hlive : (tree.node? id).isSome := by rw [hnode]; rfl
  unfold IncludeTree.strictRealiased IncludeTree.realiased
  cases hparent : node.parent with
  | none => exact strictModify_eq hlive _
  | some parent =>
    have habove := h.live_above ((parent?_eq hnode).trans hparent)
    dsimp only
    rw [strictModify_eq habove]
    have hshape : tree.SameShape (tree.modifyNode parent fun above =>
        { above with children := above.children.rename old new }) :=
      sameShape_modifyNode tree parent fun _ => Table.values_rename ..
    exact strictModify_eq (hshape.isSome id ▸ hlive) _

/-- The names below a node are recomputed where the nodes hang. -/
theorem strictRename (h : tree.Hung) : tree.strictRename id name = .ok (tree.rename id name) := by
  rw [IncludeTree.strictRename]
  cases hnode : tree.node? id with
  | none => rfl
  | some node =>
    have hlookup : tree.strictLookup (if isAlias name then node.parent else none) = .ok () := by
      split
      · exact h.strictLookup hnode
      · rfl
    refine bind_eq_ok.2 ⟨(), hlookup, ?_⟩
    cases hcommand : tree.rename id name with
    | error report => rfl
    | ok after =>
      obtain ⟨found, hfound, halias, hfree, rfl⟩ := rename_eq_realiased hcommand
      rw [hnode] at hfound
      cases hfound
      have hrealiased := h.realiased hnode halias hfree
      refine bind_eq_ok.2 ⟨_, h.strictRealiased hnode node.localName name, ?_⟩
      exact bind_eq_ok.2 ⟨_, hrealiased.strictResolveSubtree id, rfl⟩

theorem strictPerform (h : tree.Hung) (command : TreeCommand) :
    tree.strictPerform command = .ok (tree.perform command) := by
  cases command with
  | attach parent net name => rw [IncludeTree.strictPerform, h.strictAttach]; rfl
  | detach parent name => rw [IncludeTree.strictPerform, strictDetach_eq]; rfl
  | rename id name => rw [IncludeTree.strictPerform, h.strictRename]; rfl
  | _ => rfl

theorem strictPerformAll (h : tree.Hung) (commands : List TreeCommand) :
    tree.strictPerformAll commands = .ok (tree.performAll commands) := by
  induction commands generalizing tree with
  | nil => rfl
  | cons command rest ih =>
    rw [IncludeTree.strictPerformAll, List.foldlM_cons, h.strictPerform]
    exact ih (h.perform command)

end Hung

/-! ## A tree stays a tree -/

/-- Whatever commands are given, what there is remains a tree that can be gone through in any direction. An id
stands for its node until this is detached, and no command meets an empty slot. -/
theorem new_stays_tree (net : Net) (name : String) (scope : Scope) (commands : List TreeCommand) :
    (((IncludeTree.new net name).withAccessScope scope).performAll commands).Treelike ∧
      ((IncludeTree.new net name).withAccessScope scope).IdsLast commands ∧
      ((IncludeTree.new net name).withAccessScope scope).strictPerformAll commands =
        .ok (((IncludeTree.new net name).withAccessScope scope).performAll commands) := by
  have hstart : ((IncludeTree.new net name).withAccessScope scope).Arises := .withAccessScope scope (.new net name)
  refine ⟨(hstart.performAll commands).hung.treelike, idsLast_new net name scope commands, ?_⟩
  exact hstart.hung.strictPerformAll commands

end IncludeTree

end PetriTree
