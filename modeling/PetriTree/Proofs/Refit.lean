import PetriTree.Proofs.Acceptance

/-!
# PetriTree — trees whose nodes are refitted

Most commands on a tree change nets and interface maps only. How the nodes hang together is the same
before and after, and nets are made by edits still.

Main results:
* `IncludeTree.Reachable` — the trees that commands and edits of their nets lead to;
* `IncludeTree.Linked` — how nodes hang together, up to the paths that are still to be recomputed;
* `IncludeTree.Refits` — the same tree with nodes refitted, or fewer of them;
* `IncludeTree.Linked.publish` … `IncludeTree.Linked.execute` — the commands on interface places.
-/

namespace PetriTree

/-! ## Arenas -/

namespace Arena

variable {α : Type u} (a : Arena α)

theorem length_modify (id : NodeId) (f : α → α) : (a.modify id f).slots.length = a.slots.length := by
  simp [modify]

theorem length_map (f : NodeId → α → α) : (a.map f).slots.length = a.slots.length := by simp [map]

theorem get?_map (f : NodeId → α → α) (id : NodeId) : (a.map f).get? id = (a.get? id).map (f id) := by
  simp only [get?, map, List.getElem?_mapIdx]
  cases a.slots[id.index]? <;> simp

theorem lt_of_get? {id : NodeId} {value : α} (h : a.get? id = some value) :
    id.index < a.slots.length := by
  rw [get?, Option.join_eq_some_iff] at h
  exact (List.getElem?_eq_some_iff.1 h).1

/-- Removed ids stand for nothing, and no other id changes. -/
theorem get?_foldl_remove (ids : List NodeId) (id : NodeId) (a : Arena α) :
    (ids.foldl remove a).get? id = if id ∈ ids then none else a.get? id := by
  induction ids generalizing a with
  | nil => simp
  | cons first rest ih =>
    rw [List.foldl_cons, ih, get?_remove]
    by_cases hfirst : id = first <;> by_cases hrest : id ∈ rest <;> simp [hfirst, hrest]

theorem length_foldl_remove (ids : List NodeId) (a : Arena α) :
    (ids.foldl remove a).slots.length = a.slots.length := by
  induction ids generalizing a with
  | nil => rfl
  | cons first rest ih =>
    rw [List.foldl_cons, ih]
    simp [remove]

end Arena

namespace IncludeTree

/-! ## Reachable trees -/

/-- The trees that commands lead to, whether they are refused or not. Nets are made by edits, those that
are attached as well as those that a node is given in place of its own. -/
inductive Reachable : IncludeTree → Prop
  | new {net : Net} (name : String) : net.Built → Reachable (IncludeTree.new net name)
  | withAccessScope {tree : IncludeTree} (scope : Scope) : Reachable tree →
      Reachable (tree.withAccessScope scope)
  | setNet {tree : IncludeTree} {net : Net} (id : NodeId) : Reachable tree → net.Built →
      Reachable (tree.setNet id net)
  | perform {tree : IncludeTree} (command : TreeCommand) : Reachable tree →
      (∀ parent net name, command = .attach parent net name → net.Built) →
      Reachable (tree.perform command).1

/-! ## How nodes hang together -/

/-- Is one node among the children of the other? -/
def Includes (tree : IncludeTree) (above below : NodeId) : Prop :=
  ∃ node, tree.node? above = some node ∧ below ∈ node.children.values

/-- Children are younger than their parents. -/
def Ordered (tree : IncludeTree) : Prop :=
  ∀ above below, tree.Includes above below → above.index < below.index ∧ below.index < tree.nodes.slots.length

/-- Nets are made by edits, children are younger than their parents and know them, and the path of a
child continues that of its parent by its name, unless it is one of those still to be recomputed. -/
structure Linked (pending : List NodeId) (tree : IncludeTree) : Prop where
  built : ∀ id node, tree.node? id = some node → node.net.Built
  placed : tree.root.index < tree.nodes.slots.length
  root : ∀ node, tree.node? tree.root = some node → node.parent = none ∧ node.path = ""
  younger : tree.Ordered
  parents : ∀ above below node, tree.Includes above below → tree.node? below = some node →
    node.parent = some above
  paths : ∀ above below owner node, tree.Includes above below → tree.node? above = some owner →
    tree.node? below = some node → below ∈ pending ∨ node.path = qualify owner.path node.name

theorem Linked.mono {pending pending' : List NodeId} {tree : IncludeTree} (h : tree.Linked pending)
    (hsub : ∀ id ∈ pending, id ∈ pending') : tree.Linked pending' := by
  refine ⟨h.built, h.placed, h.root, h.younger, h.parents, ?_⟩
  intro above below owner node hincludes habove hbelow
  exact (h.paths above below owner node hincludes habove hbelow).imp_left (hsub below)

end IncludeTree

/-- The same node with another net, another interface map or fewer children. -/
structure TreeNode.Refit (node node' : TreeNode) : Prop where
  parent : node'.parent = node.parent
  path : node'.path = node.path
  name : node'.name = node.name
  children : ∀ child ∈ node'.children.values, child ∈ node.children.values
  net : node.net.Built → node'.net.Built

theorem TreeNode.Refit.refl (node : TreeNode) : node.Refit node := ⟨rfl, rfl, rfl, fun _ h => h, id⟩

theorem TreeNode.Refit.trans {a b c : TreeNode} (h : a.Refit b) (h' : b.Refit c) : a.Refit c :=
  ⟨h'.parent.trans h.parent, h'.path.trans h.path, h'.name.trans h.name,
    fun child hchild => h.children child (h'.children child hchild), fun hnet => h'.net (h.net hnet)⟩

namespace IncludeTree

/-- The same tree with nodes refitted, or fewer of them. -/
structure Refits (tree after : IncludeTree) : Prop where
  root : after.root = tree.root
  length : after.nodes.slots.length = tree.nodes.slots.length
  nodes : ∀ id node', after.node? id = some node' → ∃ node, tree.node? id = some node ∧ node.Refit node'

theorem Refits.refl (tree : IncludeTree) : tree.Refits tree :=
  ⟨rfl, rfl, fun _ node hnode => ⟨node, hnode, .refl node⟩⟩

theorem Refits.trans {a b c : IncludeTree} (h : a.Refits b) (h' : b.Refits c) : a.Refits c := by
  refine ⟨h'.root.trans h.root, h'.length.trans h.length, fun id node hnode => ?_⟩
  obtain ⟨mid, hmid, hrefit'⟩ := h'.nodes id node hnode
  obtain ⟨first, hfirst, hrefit⟩ := h.nodes id mid hmid
  exact ⟨first, hfirst, hrefit.trans hrefit'⟩

theorem Refits.foldl {step : IncludeTree → α → IncludeTree}
    (hstep : ∀ (tree : IncludeTree) x, tree.Refits (step tree x)) (xs : List α) (tree : IncludeTree) :
    tree.Refits (xs.foldl step tree) := by
  induction xs generalizing tree with
  | nil => exact .refl tree
  | cons x rest ih => exact (hstep tree x).trans (ih _)

theorem Refits.includes {tree after : IncludeTree} (h : tree.Refits after) {above below : NodeId}
    (hincludes : after.Includes above below) : tree.Includes above below := by
  obtain ⟨node', hnode', hchild⟩ := hincludes
  obtain ⟨node, hnode, hrefit⟩ := h.nodes above node' hnode'
  exact ⟨node, hnode, hrefit.children below hchild⟩

/-- Nodes that are refitted hang together as before. -/
theorem Linked.refits {pending : List NodeId} {tree after : IncludeTree} (h : tree.Linked pending)
    (hafter : tree.Refits after) : after.Linked pending where
  built id node' hnode' := by
    obtain ⟨node, hnode, hrefit⟩ := hafter.nodes id node' hnode'
    exact hrefit.net (h.built id node hnode)
  placed := by rw [hafter.root, hafter.length]; exact h.placed
  root node' hnode' := by
    rw [hafter.root] at hnode'
    obtain ⟨node, hnode, hrefit⟩ := hafter.nodes _ node' hnode'
    rw [hrefit.parent, hrefit.path]
    exact h.root node hnode
  younger above below hincludes := by
    rw [hafter.length]
    exact h.younger above below (hafter.includes hincludes)
  parents above below node' hincludes hnode' := by
    obtain ⟨node, hnode, hrefit⟩ := hafter.nodes below node' hnode'
    rw [hrefit.parent]
    exact h.parents above below node (hafter.includes hincludes) hnode
  paths above below owner' node' hincludes howner' hnode' := by
    obtain ⟨owner, howner, hrefitOwner⟩ := hafter.nodes above owner' howner'
    obtain ⟨node, hnode, hrefit⟩ := hafter.nodes below node' hnode'
    rw [hrefit.path, hrefit.name, hrefitOwner.path]
    exact h.paths above below owner node (hafter.includes hincludes) howner hnode

theorem node?_modifyNode (tree : IncludeTree) (id other : NodeId) (f : TreeNode → TreeNode) :
    (tree.modifyNode id f).node? other =
      if other = id then (tree.node? other).map f else tree.node? other :=
  Arena.get?_modify tree.nodes id other f

theorem refits_modifyNode {tree : IncludeTree} {id : NodeId} {f : TreeNode → TreeNode}
    (hf : ∀ node, tree.node? id = some node → node.Refit (f node)) :
    tree.Refits (tree.modifyNode id f) := by
  refine ⟨rfl, Arena.length_modify .., fun other node' hnode' => ?_⟩
  rw [node?_modifyNode] at hnode'
  split at hnode'
  · rename_i heq
    subst heq
    obtain ⟨node, hnode, rfl⟩ := Option.map_eq_some_iff.1 hnode'
    exact ⟨node, hnode, hf node hnode⟩
  · exact ⟨node', hnode', .refl node'⟩

theorem refits_touch (tree : IncludeTree) : tree.Refits tree.touch :=
  ⟨rfl, rfl, fun _ node hnode => ⟨node, hnode, .refl node⟩⟩

/-! ## Commands that only refit nodes -/

variable {tree after : IncludeTree}

/-- A change of the interface map. -/
theorem refit_interface (node : TreeNode) (interface : Table InterfacePlace) :
    node.Refit { node with interface := interface } :=
  ⟨rfl, rfl, rfl, fun _ h => h, id⟩

/-- A change of the net and the interface map. -/
theorem refit_net (node : TreeNode) {net : Net} (hnet : net.Built) (interface : Table InterfacePlace) :
    node.Refit { node with net := net, interface := interface } :=
  ⟨rfl, rfl, rfl, fun _ h => h, fun _ => hnet⟩

/-- A change of the net and of the state of one entry. -/
theorem refit_mark {net : Net} (hnet : net.Built) (away : String) (state : MergeState) (node : TreeNode) :
    node.Refit (node.mark net away state) :=
  refit_net node hnet _

theorem refits_announced (tree : IncludeTree) (key : String) (home : HomeRef) :
    tree.Refits (tree.announced key home) := by
  refine Refits.trans (Refits.foldl (fun tree target => ?_) _ _) (refits_touch _)
  exact refits_modifyNode fun node _ => refit_interface node _

theorem refits_registerHomes (tree : IncludeTree) (id : NodeId) : tree.Refits (tree.registerHomes id) := by
  refine registerHomes_induction (.refl tree) fun _ _ place _ now hnow => hnow.trans ?_
  rcases tryRegister_cases now id place with ⟨owner, _, _, heq⟩ | ⟨_, heq⟩ <;> rw [heq]
  · exact refits_announced ..
  · exact .refl now

theorem refits_seedAvailable (tree : IncludeTree) (id : NodeId) : tree.Refits (tree.seedAvailable id) :=
  refits_modifyNode fun node _ => refit_interface node _

theorem refits_setNet (tree : IncludeTree) (id : NodeId) {net : Net} (hnet : net.Built) :
    tree.Refits (tree.setNet id net) :=
  refits_modifyNode fun node _ => refit_net node hnet node.interface

namespace Linked

variable {pending : List NodeId}

theorem setNet (h : tree.Linked pending) (id : NodeId) {net : Net} (hnet : net.Built) :
    (tree.setNet id net).Linked pending :=
  h.refits (refits_setNet tree id hnet)

theorem touch (h : tree.Linked pending) : tree.touch.Linked pending := h.refits (refits_touch tree)

theorem publish (h : tree.Linked pending) (id : NodeId) (place : String) :
    (tree.publish id place).1.Linked pending := by
  rcases publish_cases tree id place with ⟨_, heq⟩ | ⟨owner, found, net, hpublishes, heq⟩
  · rw [heq]
    exact h
  · rw [heq]
    -- the net that is edited is that of the tree before the entries
    have hbuilt := (h.built id owner hpublishes.live).setStatus hpublishes.edited
    exact (h.refits (refits_announced ..)).setNet id hbuilt

theorem useInterface (h : tree.Linked pending) {id : NodeId} {away answer : String}
    (hcommand : tree.useInterface id away = .ok (answer, after)) : after.Linked pending := by
  rcases useInterface_eq_ok hcommand with rfl | ⟨consumer, entry, net, htakes, rfl⟩
  · exact h
  · obtain ⟨_, _, hedit⟩ := htakes.edited
    have hbuilt := (h.built id consumer htakes.live).addPlace hedit
    exact (h.refits (refits_modifyNode fun node _ => refit_mark hbuilt away .inUse node)).touch

theorem dropInterface (h : tree.Linked pending) {id : NodeId} {away : String}
    (hcommand : tree.dropInterface id away = .ok after) : after.Linked pending := by
  obtain ⟨owner, entry, hdrops, ⟨_, place, net, hedit, rfl⟩ | ⟨_, rfl⟩⟩ := dropInterface_eq_ok hcommand
  -- a used entry goes together with the place that stands for it
  · have hbuilt := (h.built id owner hdrops.live).removePlace hedit
    exact (h.refits (refits_modifyNode fun node _ => refit_mark hbuilt away .available node)).touch
  · exact (h.refits (refits_modifyNode fun node _ => refit_interface node _)).touch

theorem forget (h : tree.Linked pending) (away : String) (home : HomeRef) :
    (tree.forget away home).Linked pending := by
  refine h.refits ⟨rfl, Arena.length_map .., fun id node' hnode' => ?_⟩
  rw [node?, IncludeTree.forget, Arena.get?_map, Option.map_eq_some_iff] at hnode'
  obtain ⟨node, hnode, rfl⟩ := hnode'
  exact ⟨node, hnode, refit_interface node _⟩

theorem release (h : tree.Linked pending) {id : NodeId} {away place : String}
    (hcommand : tree.release id away place = .ok after) : after.Linked pending := by
  rcases release_cases tree id away place with heq | ⟨node, found, net, hnode, _, hedit, heq⟩
  · rw [heq] at hcommand
    cases hcommand
    exact h
  · rw [heq] at hcommand
    cases hcommand
    exact h.setNet id ((h.built id node hnode).setStatus hedit)

theorem withdraw (h : tree.Linked pending) (home : NodeId) (away : String) :
    (tree.withdraw home away).1.Linked pending := by
  rcases withdraw_cases tree home away with ⟨_, heq⟩ | ⟨node, entry, released, _, hrelease, heq⟩
  · rw [heq]
    exact h
  · rw [heq]
    exact ((h.forget away entry.home).release hrelease).touch

/-- An edit of a map changes the net of the node by an edit at most. -/
theorem refit_applyCommand {command : MapCommand} {node node' : TreeNode} (hnode : node.net.Built)
    (h : applyCommand command node = .ok node') : node.Refit node' := by
  unfold applyCommand at h
  split at h
  -- adding and updating an entry
  · cases h
    exact refit_interface node _
  · cases h
    exact refit_interface node _
  -- renaming one, which renames the place of a used entry
  · split at h
    · cases h
      exact .refl node
    · rename_i entry _
      dsimp only at h
      split at h <;> simp only [bind_eq_ok, pure_eq_ok] at h
      · obtain ⟨net, hedit, rfl⟩ := h
        exact refit_net node (hnode.renamePlace (ofEdit_eq_ok.1 hedit)) _
      · obtain ⟨net, hnet, rfl⟩ := h
        cases hnet
        exact refit_interface node _

theorem applyAll (h : tree.Linked pending) (command : MapCommand) (ids : List NodeId) :
    (applyAll command ids tree).1.Linked pending := by
  induction ids generalizing tree with
  | nil => exact h
  | cons id rest ih =>
    rw [IncludeTree.applyAll]
    split
    · exact ih h
    · rename_i node hnode
      split
      · exact h
      · rename_i node' happly
        -- the node is read and written under one id, so the edit is of its own net
        have hrefit := refit_applyCommand (h.built id node hnode) happly
        refine ih (h.refits (refits_modifyNode fun found hfound => ?_))
        rw [hnode] at hfound
        cases hfound
        exact hrefit

theorem execute (h : tree.Linked pending) (id : NodeId) (scope : Scope) (command : MapCommand) :
    (tree.execute id scope command).1.Linked pending := by
  unfold IncludeTree.execute
  split
  · exact h
  · rename_i targets _
    have happlied := h.applyAll command targets
    split
    -- a refusal midway leaves the nodes before it edited
    · rename_i hresult
      rw [hresult] at happlied
      exact happlied
    · rename_i hresult
      rw [hresult] at happlied
      exact happlied.touch

end Linked

end IncludeTree

end PetriTree
