import PetriTree.Proofs.Shape

/-!
# PetriTree — trees made by commands

Attaching, detaching and renaming change how the nodes of a tree hang together. Names are recomputed from
above, so that for a while the paths of some nodes are out of date: those of the nodes still to come.

Main results:
* `IncludeTree.Linked.resolveSubtree` — recomputing the names below a node leaves nothing out of date;
* `IncludeTree.Reachable.linked` — the nodes of every reachable tree hang together;
* `IncludeTree.Linked.paths_of_walk` — a property of paths that passes from every node to its children.
-/

namespace PetriTree

/-- The node may have got other names, but hangs in the tree as before. -/
structure TreeNode.HangsAs (node node' : TreeNode) : Prop where
  parent : node'.parent = node.parent
  children : node'.children = node.children
  net : node'.net = node.net

namespace IncludeTree

/-! ## Recomputing names -/

theorem mem_descend {tree : IncludeTree} {bound : Nat} {id : NodeId} (h : tree.descend bound id ≠ []) :
    id ∈ tree.descend bound id := by
  cases bound with
  | zero => exact absurd rfl h
  | succ bound =>
    unfold descend at h ⊢
    split
    · rename_i hnone
      simp [hnone] at h
    · exact List.mem_cons_self ..

/-- Every node of the list comes before each of its children. -/
def ParentsFirst (tree : IncludeTree) : List NodeId → Prop
  | [] => True
  | id :: rest => (∀ below, tree.Includes id below → (tree.node? below).isSome → below ∈ rest) ∧
      tree.ParentsFirst rest

theorem ParentsFirst.append {tree : IncludeTree} {ids ids' : List NodeId} (h : tree.ParentsFirst ids)
    (h' : tree.ParentsFirst ids') : tree.ParentsFirst (ids ++ ids') := by
  induction ids with
  | nil => exact h'
  | cons id rest ih =>
    exact ⟨fun below hincludes hsome => List.mem_append_left _ (h.1 below hincludes hsome), ih h.2⟩

theorem ParentsFirst.flatMap {tree : IncludeTree} {f : NodeId → List NodeId} {ids : List NodeId}
    (h : ∀ id ∈ ids, tree.ParentsFirst (f id)) : tree.ParentsFirst (ids.flatMap f) := by
  induction ids with
  | nil => trivial
  | cons id rest ih =>
    rw [List.flatMap_cons]
    exact (h id (List.mem_cons_self ..)).append (ih fun id' hid' => h id' (List.mem_cons_of_mem _ hid'))

/-- Children are younger than their parents, so the number of slots is bound enough. -/
theorem Ordered.parentsFirst_descend {tree : IncludeTree} (h : tree.Ordered) {bound : Nat} {id : NodeId}
    (hbound : tree.nodes.slots.length ≤ bound + id.index) : tree.ParentsFirst (tree.descend bound id) := by
  induction bound generalizing id with
  | zero => trivial
  | succ bound ih =>
    unfold descend
    split
    · trivial
    · rename_i node hnode
      have hincludes : ∀ below ∈ node.children.values, tree.Includes id below := fun below hbelow =>
        ⟨node, hnode, hbelow⟩
      refine ⟨fun below hbelow hsome => ?_, ParentsFirst.flatMap fun below hbelow => ih ?_⟩
      · obtain ⟨node', hnode', hchild⟩ := hbelow
        rw [hnode] at hnode'
        cases hnode'
        obtain ⟨found, hfound⟩ := Option.isSome_iff_exists.1 hsome
        have hyounger := h id below (hincludes below hchild)
        refine List.mem_flatMap.2 ⟨below, hchild, mem_descend ?_⟩
        -- the child is a slot of its own, so the bound is not used up
        obtain ⟨bound', rfl⟩ : ∃ bound', bound = bound' + 1 := ⟨bound - 1, by omega⟩
        rw [descend, hfound]
        simp
      · have hyounger := h id below (hincludes below hbelow)
        omega

theorem Ordered.parentsFirst_subtree {tree : IncludeTree} (h : tree.Ordered) (id : NodeId) :
    tree.ParentsFirst (tree.subtree id) :=
  h.parentsFirst_descend (Nat.le_add_right ..)

section Modify

variable {tree : IncludeTree} {id : NodeId} {f : TreeNode → TreeNode} {node : TreeNode}

/-- A node of the tree after one of them was changed: the changed one, or one of before. -/
theorem node?_modifyNode_some (hnode : tree.node? id = some node) (hhangs : node.HangsAs (f node))
    {other : NodeId} {found : TreeNode} (h : (tree.modifyNode id f).node? other = some found) :
    ∃ old, tree.node? other = some old ∧ old.HangsAs found ∧
      ((other = id ∧ found = f node) ∨ (other ≠ id ∧ found = old)) := by
  rw [node?_modifyNode] at h
  split at h
  · rename_i heq
    rw [heq, hnode, Option.map_some, Option.some.injEq] at h
    subst h
    exact ⟨node, heq ▸ hnode, hhangs, Or.inl ⟨heq, rfl⟩⟩
  · rename_i hne
    exact ⟨found, h, ⟨rfl, rfl, rfl⟩, Or.inr ⟨hne, rfl⟩⟩

theorem includes_of_modifyNode (hnode : tree.node? id = some node) (hhangs : node.HangsAs (f node))
    {above below : NodeId} (h : (tree.modifyNode id f).Includes above below) :
    tree.Includes above below := by
  obtain ⟨found, hfound, hchild⟩ := h
  obtain ⟨old, hold, hsame, _⟩ := node?_modifyNode_some hnode hhangs hfound
  exact ⟨old, hold, hsame.children ▸ hchild⟩

end Modify

namespace Linked

variable {tree : IncludeTree} {pending : List NodeId}

/-- A node gets new names. Its path is up to date then, and those of its children are to be recomputed. -/
theorem renamed {id : NodeId} (h : tree.Linked (id :: pending)) {f : TreeNode → TreeNode} {node : TreeNode}
    (hnode : tree.node? id = some node) (hhangs : node.HangsAs (f node))
    (hroot : node.parent = none → (f node).path = node.path)
    (hpath : ∀ above owner, node.parent = some above → tree.node? above = some owner →
      (f node).path = qualify owner.path (f node).name)
    (hpending : ∀ below, tree.Includes id below → (tree.node? below).isSome → below ∈ pending) :
    (tree.modifyNode id f).Linked pending where
  built other found hfound := by
    obtain ⟨old, hold, hsame, _⟩ := node?_modifyNode_some hnode hhangs hfound
    rw [hsame.net]
    exact h.built other old hold
  placed := length_modifyNode tree id f ▸ h.placed
  root found hfound := by
    obtain ⟨old, hold, hsame, hcase⟩ := node?_modifyNode_some hnode hhangs hfound
    obtain ⟨hparent, hempty⟩ := h.root old hold
    refine ⟨hsame.parent.trans hparent, ?_⟩
    rcases hcase with ⟨heq, rfl⟩ | ⟨_, rfl⟩
    · rw [heq, hnode] at hold
      cases hold
      rw [hroot hparent, hempty]
    · exact hempty
  younger above below hbelow := by
    rw [length_modifyNode]
    exact h.younger above below (includes_of_modifyNode hnode hhangs hbelow)
  parents above below found hbelow hfound := by
    obtain ⟨old, hold, hsame, _⟩ := node?_modifyNode_some hnode hhangs hfound
    rw [hsame.parent]
    exact h.parents above below old (includes_of_modifyNode hnode hhangs hbelow) hold
  paths above below owner found hbelow howner hfound := by
    have hbelow' := includes_of_modifyNode hnode hhangs hbelow
    obtain ⟨old, hold, _, hcase⟩ := node?_modifyNode_some hnode hhangs hfound
    obtain ⟨oldOwner, holdOwner, _, hcaseOwner⟩ := node?_modifyNode_some hnode hhangs howner
    rcases hcaseOwner with ⟨rfl, rfl⟩ | ⟨_, rfl⟩
    -- a child of the node waits for its turn
    · exact Or.inl (hpending below hbelow' (by rw [hold]; rfl))
    · rcases hcase with ⟨rfl, rfl⟩ | ⟨hne, rfl⟩
      -- the node itself follows its parent now
      · rw [hnode] at hold
        cases hold
        exact Or.inr (hpath above _ (h.parents above _ _ hbelow' hnode) holdOwner)
      · refine (h.paths above below _ _ hbelow' holdOwner hold).imp_left fun hmem => ?_
        exact (List.mem_cons.1 hmem).resolve_left hne

/-- A node that is no child of any other has no path to be recomputed. -/
theorem settled {id : NodeId} (h : tree.Linked (id :: pending))
    (hno : ∀ above owner node, tree.node? id = some node → node.parent = some above →
      tree.node? above = some owner → False) : tree.Linked pending := by
  refine ⟨h.built, h.placed, h.root, h.younger, h.parents, ?_⟩
  intro above below owner node hbelow howner hnode
  refine (h.paths above below owner node hbelow howner hnode).imp_left fun hmem => ?_
  rcases List.mem_cons.1 hmem with rfl | hmem
  · exact (hno above owner node hnode (h.parents above _ node hbelow hnode) howner).elim
  · exact hmem

/-- Recomputing the names of a node passes the work on to its children. -/
theorem resolveNames {id : NodeId} (h : tree.Linked (id :: pending))
    (hpending : ∀ below, tree.Includes id below → (tree.node? below).isSome → below ∈ pending) :
    (tree.resolveNames id).Linked pending := by
  unfold IncludeTree.resolveNames
  split
  -- there is no such node
  · rename_i hnone
    refine h.settled fun above owner node hnode => ?_
    rw [hnone] at hnode
    cases hnode
  · rename_i node hnode
    split
    -- the root has its own names
    · rename_i hparent
      exact h.renamed hnode ⟨rfl, rfl, rfl⟩ (fun _ => rfl)
        (fun above owner habove => by rw [hparent] at habove; cases habove) hpending
    · rename_i parent hparent
      split
      -- a node whose parent is gone keeps its names
      · rename_i hnone
        refine h.settled fun above owner found hfound habove howner => ?_
        rw [hnode] at hfound
        cases hfound
        rw [hparent] at habove
        cases habove
        rw [hnone] at howner
        cases howner
      · rename_i above habove
        refine h.renamed hnode ⟨rfl, rfl, rfl⟩ (fun hnone => by rw [hparent] at hnone; cases hnone) ?_ hpending
        intro above' owner habove' howner
        rw [hparent] at habove'
        cases habove'
        rw [habove] at howner
        cases howner
        rfl

end Linked

theorem ParentsFirst.resolveNames {tree : IncludeTree} {ids : List NodeId} (h : tree.ParentsFirst ids)
    (id : NodeId) : (tree.resolveNames id).ParentsFirst ids := by
  -- names do not matter for which nodes there are and which of them are children of which
  have hshape := (relabels_resolveNames tree id).shape
  induction ids with
  | nil => trivial
  | cons first rest ih =>
    refine ⟨fun below hbelow hlive => ?_, ih h.2⟩
    rw [hshape.isSome] at hlive
    exact h.1 below (hshape.includes.1 hbelow) hlive

namespace Linked

variable {tree after : IncludeTree}

/-- Recomputing names from above leaves nothing to be recomputed. -/
theorem resolveAll {ids : List NodeId} (h : tree.Linked ids) (hfirst : tree.ParentsFirst ids) :
    (ids.foldl IncludeTree.resolveNames tree).Linked [] := by
  induction ids generalizing tree with
  | nil => exact h
  | cons id rest ih => exact ih (h.resolveNames hfirst.1) (hfirst.2.resolveNames id)

theorem resolveSubtree (h : tree.Linked []) (id : NodeId) : (tree.resolveSubtree id).Linked [] :=
  (h.mono fun _ hid => by cases hid).resolveAll (h.younger.parentsFirst_subtree id)

/-! ## Commands that change how nodes hang together -/

theorem called (h : tree.Linked []) (id : NodeId) (name : String) : (tree.called id name).Linked [] := by
  refine (Linked.resolveSubtree (h.refits (refits_modifyNode fun node _ => ?_)) id).touch
  exact ⟨rfl, rfl, rfl, fun _ hchild => hchild, fun hnet => hnet⟩

theorem rename (h : tree.Linked []) {id : NodeId} {name : String}
    (hcommand : tree.rename id name = .ok after) : after.Linked [] := by
  obtain ⟨node, _, _, ⟨_, rfl⟩ | ⟨parent, _, rfl⟩⟩ := rename_eq_ok hcommand
  · exact h.called id name
  -- the key of the node changes, and the children of its parent stay the same
  · refine (h.refits (refits_modifyNode fun above _ => ?_)).called id name
    refine ⟨rfl, rfl, rfl, fun child hchild => ?_, fun hnet => hnet⟩
    rwa [Table.values_rename] at hchild

theorem prune (h : tree.Linked []) (parent : NodeId) (name : String) (doomed : List NodeId) :
    (tree.prune parent name doomed).Linked [] := by
  have herased : tree.Refits (tree.modifyNode parent fun node =>
      { node with children := node.children.erase name }) := by
    refine refits_modifyNode fun node _ => ?_
    exact ⟨rfl, rfl, rfl, fun _ hchild => (Table.mem_values_filter hchild).1, fun hnet => hnet⟩
  refine (h.refits herased).refits ⟨rfl, ?_, ?_⟩
  · rw [IncludeTree.prune]
    simp only [Arena.length_foldl_remove, Arena.length_map]
  · intro id node' hnode'
    rw [node?, IncludeTree.prune, Arena.get?_foldl_remove] at hnode'
    split at hnode'
    · cases hnode'
    · rw [Arena.get?_map, Option.map_eq_some_iff] at hnode'
      obtain ⟨node, hnode, rfl⟩ := hnode'
      exact ⟨node, hnode, refit_interface node _⟩

theorem detach (h : tree.Linked []) (parent : NodeId) (name : String) :
    (tree.detach parent name).1.Linked [] := by
  rcases detach_cases tree parent name with ⟨_, heq⟩ | ⟨_, id, _, heq⟩
  · rw [heq]
    exact h
  · rw [heq]
    exact (h.prune parent name (tree.subtree id)).touch

end Linked

section Grow

variable {tree : IncludeTree} {parent : NodeId} {owner node : TreeNode} {name : String}

theorem length_grow (tree : IncludeTree) (parent : NodeId) (name : String) (node : TreeNode) :
    (tree.grow parent name node).nodes.slots.length = tree.nodes.slots.length + 1 := by
  rw [grow, modifyNode, Arena.length_modify]
  simp [Arena.alloc]

theorem ne_nextId {id : NodeId} {found : TreeNode} (h : tree.node? id = some found) :
    id ≠ tree.nodes.nextId := by
  rintro rfl
  exact absurd (Arena.lt_of_get? _ h) (Nat.lt_irrefl _)

/-- What an id stands for in the grown tree. -/
theorem node?_grow_eq (howner : tree.node? parent = some owner) (id : NodeId) :
    (tree.grow parent name node).node? id =
      if id = tree.nodes.nextId then some node
      else if id = parent then
        some { owner with children := owner.children.insert name tree.nodes.nextId }
      else tree.node? id := by
  have halloc : node? { tree with nodes := tree.nodes.alloc node } id =
      if id = tree.nodes.nextId then some node else tree.node? id := Arena.get?_alloc tree.nodes node id
  rw [grow, node?_modifyNode, halloc]
  by_cases hparent : id = parent
  -- the parent is an older node and not the new one
  · rw [if_pos hparent, hparent, if_neg (ne_nextId howner), if_neg (ne_nextId howner), if_pos rfl, howner]
    rfl
  · rw [if_neg hparent, if_neg hparent]

/-- A node of the grown tree is the new one, or one of before with one more child at most. -/
theorem node?_grow (howner : tree.node? parent = some owner) {id : NodeId} {found : TreeNode}
    (h : (tree.grow parent name node).node? id = some found) :
    (id = tree.nodes.nextId ∧ found = node) ∨ ∃ old, tree.node? id = some old ∧
      found.parent = old.parent ∧ found.path = old.path ∧ found.name = old.name ∧ found.net = old.net ∧
      ∀ child ∈ found.children.values,
        child ∈ old.children.values ∨ (id = parent ∧ child = tree.nodes.nextId) := by
  rw [node?_grow_eq howner] at h
  split at h
  · rename_i hnew
    exact Or.inl ⟨hnew, (Option.some.inj h).symm⟩
  · split at h
    · rename_i hparent
      cases h
      refine Or.inr ⟨owner, hparent ▸ howner, rfl, rfl, rfl, rfl, fun child hchild => ?_⟩
      exact (Table.mem_values_insert hchild).symm.imp_right fun heq => ⟨hparent, heq⟩
    · exact Or.inr ⟨found, h, rfl, rfl, rfl, rfl, fun child hchild => Or.inl hchild⟩

theorem includes_grow (howner : tree.node? parent = some owner)
    (hchildren : node.children = Table.empty) {above below : NodeId}
    (h : (tree.grow parent name node).Includes above below) :
    tree.Includes above below ∨ (above = parent ∧ below = tree.nodes.nextId) := by
  obtain ⟨found, hfound, hchild⟩ := h
  rcases node?_grow howner hfound with ⟨_, rfl⟩ | ⟨old, hold, _, _, _, _, hsame⟩
  · rw [hchildren] at hchild
    cases hchild
  · exact (hsame below hchild).imp_left fun hmem => ⟨old, hold, hmem⟩

/-- The new node is the youngest. -/
theorem Ordered.grow (h : tree.Ordered) (howner : tree.node? parent = some owner)
    (hchildren : node.children = Table.empty) : (tree.grow parent name node).Ordered := by
  intro above below hedge
  rw [length_grow]
  rcases includes_grow howner hchildren hedge with hedge | ⟨rfl, rfl⟩
  · obtain ⟨hlt, hbound⟩ := h above below hedge
    exact ⟨hlt, Nat.lt_succ_of_lt hbound⟩
  · exact ⟨Arena.lt_of_get? _ howner, Nat.lt_succ_self _⟩

namespace Linked

/-- The slot of a new node was no child of any node. -/
theorem ne_nextId_of_includes (h : tree.Linked []) {above below : NodeId}
    (hedge : tree.Includes above below) : below ≠ tree.nodes.nextId := by
  rintro rfl
  exact absurd (h.younger above _ hedge).2 (Nat.lt_irrefl _)

/-- The new node is the youngest, and its path is to be recomputed. -/
theorem grow (h : tree.Linked []) (howner : tree.node? parent = some owner)
    (hparent : node.parent = some parent) (hchildren : node.children = Table.empty)
    (hnet : node.net.Built) : (tree.grow parent name node).Linked [tree.nodes.nextId] where
  built id found hfound := by
    rcases node?_grow howner hfound with ⟨_, rfl⟩ | ⟨old, hold, _, _, _, hsame, _⟩
    · exact hnet
    · rw [hsame]
      exact h.built id old hold
  placed := by
    rw [length_grow]
    exact Nat.lt_succ_of_lt h.placed
  root found hfound := by
    rcases node?_grow howner hfound with ⟨hroot, _⟩ | ⟨old, hold, hsame, hpath, _⟩
    -- the root is not the new node
    · exact absurd h.placed (by rw [show tree.root = tree.nodes.nextId from hroot]; exact Nat.lt_irrefl _)
    · rw [hsame, hpath]
      exact h.root old hold
  younger := h.younger.grow howner hchildren
  parents above below found hedge hfound := by
    rcases includes_grow howner hchildren hedge with hedge | ⟨rfl, rfl⟩
    · rcases node?_grow howner hfound with ⟨hnew, _⟩ | ⟨old, hold, hsame, _⟩
      · exact absurd hnew (h.ne_nextId_of_includes hedge)
      · rw [hsame]
        exact h.parents above below old hedge hold
    · rcases node?_grow howner hfound with ⟨_, rfl⟩ | ⟨old, hold, _⟩
      · exact hparent
      · exact absurd rfl (ne_nextId hold)
  paths above below above' found hedge habove hfound := by
    rcases includes_grow howner hchildren hedge with hedge | ⟨_, rfl⟩
    -- an edge of before joins two nodes of before, and their names stay
    · obtain ⟨oldAbove, holdAbove, _⟩ := id hedge
      rcases node?_grow howner hfound with ⟨hnew, _⟩ | ⟨old, hold, _, hpath, hname, _⟩
      · exact absurd hnew (h.ne_nextId_of_includes hedge)
      · rcases node?_grow howner habove with ⟨hnew, _⟩ | ⟨oldAbove, holdAbove, _, hpathAbove, _⟩
        · exact absurd hnew (ne_nextId holdAbove)
        · rw [hpath, hname, hpathAbove]
          exact (h.paths above below oldAbove old hedge holdAbove hold).imp_left fun hmem => by cases hmem
    · exact Or.inl (List.mem_singleton.2 rfl)

end Linked

end Grow

namespace Linked

variable {tree after : IncludeTree}

theorem attach (h : tree.Linked []) {parent id : NodeId} {net : Net} {name : String} (hnet : net.Built)
    (hcommand : tree.attach parent net name = .ok (id, after)) : after.Linked [] := by
  obtain ⟨owner, howner, _, _, rfl, rfl⟩ := attach_eq_ok hcommand
  set node : TreeNode := ⟨name, "", "", "", some parent, Table.empty, net, Table.empty⟩
  have hgrown : (tree.grow parent name node).Linked [tree.nodes.nextId] := h.grow howner rfl rfl hnet
  refine (((hgrown.resolveNames fun below hbelow _ => ?_).refits (refits_seedAvailable _ _)).refits
    (refits_registerHomes _ _)).touch
  -- the new node has no children yet
  rcases includes_grow howner rfl hbelow with ⟨found, hfound, _⟩ | ⟨hparent, _⟩
  · exact absurd rfl (ne_nextId hfound)
  · exact absurd hparent.symm (ne_nextId howner)

theorem new {net : Net} (hnet : net.Built) (name : String) : (IncludeTree.new net name).Linked [] := by
  refine Linked.refits ?_ (refits_registerHomes _ _)
  set root : TreeNode := ⟨name, name, name, "", none, Table.empty, net, Table.empty⟩
  set single : IncludeTree := ⟨Arena.empty.alloc root, rootId, Scope.standard, 0⟩
  -- the tree before its home places are registered, with one node and no edge
  have hlookup : ∀ id found, single.node? id = some found → found = root := by
    intro id found hfound
    rw [node?, Arena.get?_alloc] at hfound
    split at hfound
    · exact (Option.some.inj hfound).symm
    · simp [Arena.empty, Arena.get?] at hfound
  have hincludes : ∀ above below, ¬ single.Includes above below := by
    rintro above below ⟨found, hfound, hchild⟩
    rw [hlookup above found hfound] at hchild
    cases hchild
  exact {
    built := fun id found hfound => by
      rw [hlookup id found hfound]
      exact hnet
    placed := Nat.zero_lt_one
    root := fun found hfound => by
      rw [hlookup _ found hfound]
      exact ⟨rfl, rfl⟩
    younger := fun above below hedge => absurd hedge (hincludes above below)
    parents := fun above below _ hedge => absurd hedge (hincludes above below)
    paths := fun above below _ _ hedge => absurd hedge (hincludes above below) }

/-- Whatever a command does, the nodes hang together after it. -/
theorem perform (h : tree.Linked []) {command : TreeCommand}
    (hnet : ∀ parent net name, command = .attach parent net name → net.Built) :
    (tree.perform command).1.Linked [] := by
  cases command with
  | attach parent net name =>
    exact settled_keeps h fun _ _ hcommand => h.attach (hnet parent net name rfl) hcommand
  | detach parent name => exact h.detach parent name
  | rename id name => exact settledDone_keeps h fun _ hcommand => h.rename hcommand
  | publish id place => exact h.publish id place
  | useInterface id away => exact settled_keeps h fun _ _ hcommand => h.useInterface hcommand
  | dropInterface id away => exact settledDone_keeps h fun _ hcommand => h.dropInterface hcommand
  | withdraw id away => exact h.withdraw id away
  | execute id scope command => exact h.execute id scope command

end Linked

/-- The nodes of every reachable tree hang together. -/
theorem Reachable.linked {tree : IncludeTree} (h : tree.Reachable) : tree.Linked [] := by
  induction h with
  | new name hnet => exact .new hnet name
  | withAccessScope scope _ ih => exact ⟨ih.built, ih.placed, ih.root, ih.younger, ih.parents, ih.paths⟩
  | setNet id _ hnet ih => exact ih.setNet id hnet
  | perform command _ hnet ih => exact ih.perform hnet

/-! ## Walking -/

theorem mem_walk {tree : IncludeTree} {id : NodeId} {node : TreeNode} :
    (id, node) ∈ tree.walk ↔ id ∈ tree.subtree tree.root ∧ tree.node? id = some node := by
  simp only [walk, List.mem_filterMap, Option.map_eq_some_iff, Prod.mk.injEq]
  constructor
  · rintro ⟨id', hid', node', hnode', rfl, rfl⟩
    exact ⟨hid', hnode'⟩
  · rintro ⟨hid, hnode⟩
    exact ⟨id, hid, node, hnode, rfl, rfl⟩

/-- A property of paths that passes from every node to its children passes down a subtree. -/
theorem Linked.paths_of_descend {tree : IncludeTree} (h : tree.Linked []) {P : String → Prop} {bound : Nat}
    {id : NodeId} (hid : ∀ node, tree.node? id = some node → P node.path)
    (hstep : ∀ path below node, below ∈ tree.descend bound id → tree.node? below = some node →
      node.parent.isSome → P path → P (qualify path node.name)) :
    ∀ below ∈ tree.descend bound id, ∀ node, tree.node? below = some node → P node.path := by
  induction bound generalizing id with
  | zero => exact fun below hbelow => by cases hbelow
  | succ bound ih =>
    intro below hbelow node hnode
    cases howner : tree.node? id with
    | none =>
      simp [descend, howner] at hbelow
    | some owner =>
      simp only [descend, howner] at hbelow hstep
      rcases List.mem_cons.1 hbelow with rfl | hbelow
      · exact hid node hnode
      · obtain ⟨child, hchild, hbelow⟩ := List.mem_flatMap.1 hbelow
        have hincludes : tree.Includes id child := ⟨owner, howner, hchild⟩
        have hmem : ∀ other ∈ tree.descend bound child,
            other ∈ id :: owner.children.values.flatMap (tree.descend bound) := fun other hother =>
          List.mem_cons_of_mem _ (List.mem_flatMap.2 ⟨child, hchild, hother⟩)
        refine ih (fun found hfound => ?_) (fun path other found hother =>
          hstep path other found (hmem other hother)) below hbelow node hnode
        have hparent := h.parents id child found hincludes hfound
        have hpath := (h.paths id child owner found hincludes howner hfound).resolve_left (by simp)
        -- the child stands first among the nodes below it
        have hself : child ∈ tree.descend bound child := mem_descend fun hnil => by
          rw [hnil] at hbelow
          cases hbelow
        rw [hpath]
        exact hstep owner.path child found (hmem child hself) hfound (by rw [hparent]; rfl) (hid owner howner)

/-- A property of paths that the root has and that passes from every node to its children. -/
theorem Linked.paths_of_walk {tree : IncludeTree} (h : tree.Linked []) {P : String → Prop} (hroot : P "")
    (hstep : ∀ path id node, (id, node) ∈ tree.walk → node.parent.isSome → P path →
      P (qualify path node.name)) :
    ∀ id node, (id, node) ∈ tree.walk → P node.path := by
  intro id node hmem
  obtain ⟨hid, hnode⟩ := mem_walk.1 hmem
  refine h.paths_of_descend (fun found hfound => ?_) (fun path below found hbelow hfound => ?_)
    id hid node hnode
  · rw [(h.root found hfound).2]
    exact hroot
  · exact hstep path below found (mem_walk.2 ⟨hbelow, hfound⟩)

end IncludeTree

end PetriTree
