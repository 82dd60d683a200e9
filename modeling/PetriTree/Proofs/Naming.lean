import PetriTree.Proofs.FreeName
import PetriTree.Proofs.Lifetime
import PetriTree.Proofs.Traversal

/-!
# PetriTree — names that identify nodes

A node gets a name that is free at the time: none of its ancestors has it, and no sibling. A new alias makes
the names of a whole subtree be looked for again, one node after the other, and meanwhile some nodes of it
have new names and others still the old ones. From above this does no harm. When it is a node's turn the names
above it are settled, and a sibling that comes later keeps clear of the name that was found.

Main results:
* `IncludeTree.Named` — names are free and paths follow them, but for the nodes that wait for their turn;
* `Named.resolveNames`, `Named.resolveSubtree` — a turn, and all of them;
* `Arises.named` — in a tree that comes about by commands no node waits;
* `Arises.names_identify` — a node is found under its qualified name, which is made of the names above it.
-/

namespace PetriTree

/-- The two nodes are called the same and have the same parent. -/
structure TreeNode.CalledAs (node node' : TreeNode) : Prop where
  parent : node'.parent = node.parent
  name : node'.name = node.name
  qualifiedName : node'.qualifiedName = node.qualifiedName
  path : node'.path = node.path

namespace IncludeTree

variable {tree after : IncludeTree} {id above other : NodeId} {node owner found : TreeNode}
  {pending pending' : List NodeId}

/-! ## Nodes that may not share a name -/

/-- The other node is an ancestor or a sibling of the node, which must not have its name. -/
def Near (tree : IncludeTree) (id other : NodeId) : Prop := other ∈ tree.ancestors id ∨ other ∈ tree.siblings id

namespace Hung

/-- The root has nobody near it. -/
theorem exists_parent_of_near (h : tree.Hung) (hnear : tree.Near id other) :
    ∃ above, tree.parent? id = some above := by
  cases hparent : tree.parent? id with
  | some above => exact ⟨above, rfl⟩
  | none =>
    rcases hnear with hmem | hmem
    · rw [h.ancestors_of_none hparent] at hmem
      cases hmem
    · rw [siblings_of_none hparent] at hmem
      cases hmem

theorem not_near_self (h : tree.Hung) : ¬ tree.Near id id := by
  intro hnear
  obtain ⟨above, hparent⟩ := h.exists_parent_of_near hnear
  rcases hnear with hmem | hmem
  · exact Nat.lt_irrefl _ (h.older hmem)
  · exact ((h.mem_siblings_iff hparent).1 hmem).2 rfl

/-- A new node is the youngest, so it stands above no other. -/
theorem nextId_notMem_ancestors {name : String} {below : NodeId} (h : (tree.grow above name node).Hung)
    (hlive : ((tree.grow above name node).node? below).isSome) :
    tree.nodes.nextId ∉ (tree.grow above name node).ancestors below := by
  intro hmem
  have hslot := h.older hmem
  obtain ⟨found, hfound⟩ := Option.isSome_iff_exists.1 hlive
  have hlt := Arena.lt_of_get? _ hfound
  rw [length_grow] at hlt
  exact absurd (Nat.lt_of_lt_of_le hslot (Nat.le_of_lt_succ hlt)) (Nat.lt_irrefl _)

theorem sibling_symm (h : tree.Hung) (hmem : other ∈ tree.siblings id) : id ∈ tree.siblings other := by
  obtain ⟨above, hparent⟩ := h.exists_parent_of_near (Or.inr hmem)
  obtain ⟨hother, hne⟩ := (h.mem_siblings_iff hparent).1 hmem
  exact (h.mem_siblings_iff hother).2 ⟨hparent, hne.symm⟩

end Hung

namespace Continues

/-- A node of before has its way up as before: what stands above it is no new node. -/
theorem ancestors_eq (h : Continues pending tree after) (hung : tree.Hung) (hung' : after.Hung) :
    ∀ id, (after.node? id).isSome → id ∉ pending → after.ancestors id = tree.ancestors id := by
  refine hung'.induction_down (fun _ => ?_) fun above below hparent ih hbelow => ?_
  · rw [hung'.ancestors_of_none hung'.parent?_root, h.root, hung.ancestors_of_none hung.parent?_root]
  · obtain ⟨_, hsame⟩ := (h.kept below (isSome_of_parent? hparent)).resolve_left hbelow
    have hparentBefore := hsame.symm.trans hparent
    rw [hung'.ancestors_eq_cons hparent, hung.ancestors_eq_cons hparentBefore, ih]
    exact h.notMem_of_isSome (hung.live_above hparentBefore)

theorem near (h : Continues pending tree after) (hung : tree.Hung) (hung' : after.Hung)
    (hlive : (after.node? id).isSome) (hother : (after.node? other).isSome) (hid : id ∉ pending)
    (hother' : other ∉ pending) (hnear : after.Near id other) : tree.Near id other := by
  refine hnear.imp (fun hmem => h.ancestors_eq hung hung' id hlive hid ▸ hmem) fun hmem => ?_
  obtain ⟨above, hparent⟩ := hung'.exists_parent_of_near (Or.inr hmem)
  obtain ⟨hsibling, hne⟩ := (hung'.mem_siblings_iff hparent).1 hmem
  obtain ⟨_, hsame⟩ := (h.kept id hlive).resolve_left hid
  obtain ⟨_, hsame'⟩ := (h.kept other hother).resolve_left hother'
  exact (hung.mem_siblings_iff (hsame.symm.trans hparent)).2 ⟨hsame'.symm.trans hsibling, hne⟩

end Continues

/-! ## Names in order -/

/-- No node has the name of an ancestor or a sibling, and its qualified name and its path continue those of
its parent. The nodes that wait for their turn are left out. -/
structure Named (pending : List NodeId) (tree : IncludeTree) : Prop where
  root : ∀ node, tree.node? tree.root = some node →
    node.path = "" ∧ (tree.root ∉ pending → node.qualifiedName = node.name)
  named : ∀ id node, tree.node? id = some node → id ≠ tree.root → id ∉ pending → isAlias node.name = true
  apart : ∀ id node other found, tree.node? id = some node → tree.node? other = some found →
    tree.Near id other → id ∉ pending → other ∉ pending → node.name ≠ found.name
  follows : ∀ id node above owner, tree.node? id = some node → node.parent = some above →
    tree.node? above = some owner → id ∉ pending →
      node.qualifiedName = owner.qualifiedName ++ "." ++ node.name ∧ node.path = qualify owner.path node.name

namespace Named

theorem mono (h : tree.Named pending) (hsub : ∀ id ∈ pending, id ∈ pending') : tree.Named pending' where
  root node hnode := (h.root node hnode).imp_right fun hname hroot => hname fun hmem => hroot (hsub _ hmem)
  named id node hnode hroot hid := h.named id node hnode hroot fun hmem => hid (hsub _ hmem)
  apart id node other found hnode hfound hnear hid hother :=
    h.apart id node other found hnode hfound hnear (fun hmem => hid (hsub _ hmem)) fun hmem => hother (hsub _ hmem)
  follows id node above owner hnode habove howner hid :=
    h.follows id node above owner hnode habove howner fun hmem => hid (hsub _ hmem)

/-- Names stay in order in a tree that has its nodes from before, under the same names, except for new ones that
are still to be named and have no node below them. -/
theorem carry (h : tree.Named []) (hung : tree.Hung) (hung' : after.Hung) (hcontinues : Continues pending tree after)
    (hnodes : ∀ id node', after.node? id = some node' → id ∉ pending →
      ∃ node, tree.node? id = some node ∧ node.CalledAs node')
    (hpending : ∀ id ∈ pending, ∀ below, after.parent? below ≠ some id) : after.Named pending where
  root node' hnode' := by
    rw [hcontinues.root] at hnode' ⊢
    obtain ⟨node, hnode, hcalled⟩ := hnodes _ node' hnode' (hcontinues.notMem_of_isSome hung.top)
    obtain ⟨hpath, hname⟩ := h.root node hnode
    rw [hcalled.path, hcalled.qualifiedName, hcalled.name]
    exact ⟨hpath, fun _ => hname (by simp)⟩
  named id node' hnode' hne hid := by
    obtain ⟨node, hnode, hcalled⟩ := hnodes id node' hnode' hid
    rw [hcalled.name]
    exact h.named id node hnode (hcontinues.root ▸ hne) (by simp)
  apart id node' other found' hnode' hfound' hnear hid hother := by
    obtain ⟨node, hnode, hcalled⟩ := hnodes id node' hnode' hid
    obtain ⟨found, hfound, hcalled'⟩ := hnodes other found' hfound' hother
    rw [hcalled.name, hcalled'.name]
    refine h.apart id node other found hnode hfound ?_ (by simp) (by simp)
    exact hcontinues.near hung hung' (by rw [hnode']; rfl) (by rw [hfound']; rfl) hid hother hnear
  follows id node' above owner' hnode' habove howner' hid := by
    have hparent : above ∉ pending := fun hmem => hpending _ hmem id ((parent?_eq hnode').trans habove)
    obtain ⟨node, hnode, hcalled⟩ := hnodes id node' hnode' hid
    obtain ⟨owner, howner, hcalled'⟩ := hnodes above owner' howner' hparent
    rw [hcalled.qualifiedName, hcalled.name, hcalled.path, hcalled'.qualifiedName, hcalled'.path]
    exact h.follows id node above owner hnode (hcalled.parent ▸ habove) howner (by simp)

/-! ## A turn -/

theorem mem_namesOf {ids : List NodeId} (hmem : other ∈ ids) (hfound : tree.node? other = some found) :
    found.name ∈ tree.namesOf ids :=
  List.mem_filterMap.2 ⟨other, hmem, by rw [hfound]; rfl⟩

/-- A node near the one whose turn it is has a name that counts as taken. -/
theorem mem_takenNames (h : tree.Named pending) (hung : tree.Hung) (hfound : tree.node? other = some found)
    (hother : other ∉ pending) (hnear : tree.Near id other) : found.name ∈ tree.takenNames id := by
  unfold takenNames
  rcases hnear with hmem | hmem
  · exact List.mem_append_left _ (mem_namesOf hmem hfound)
  · refine List.mem_append_right _ (List.mem_filter.2 ⟨mem_namesOf hmem hfound, ?_⟩)
    -- a sibling is not the root, so its name is not empty
    obtain ⟨above, hparent⟩ := hung.exists_parent_of_near (Or.inr (hung.sibling_symm hmem))
    have hne : other ≠ tree.root := fun heq => by
      rw [heq, hung.parent?_root] at hparent
      cases hparent
    have halias := h.named other found hfound hne hother
    rw [isAlias_iff] at halias
    simpa using halias.1

/-- What is found after a node was changed: the changed node, or another one as it was. -/
theorem node?_modifyNode_cases {f : TreeNode → TreeNode} (hnode : tree.node? id = some node)
    (h : (tree.modifyNode id f).node? other = some found) :
    (other = id ∧ found = f node) ∨ (other ≠ id ∧ tree.node? other = some found) := by
  rw [node?_modifyNode] at h
  split at h
  · rename_i heq
    rw [heq, hnode] at h
    exact Or.inl ⟨heq, (Option.some.inj h).symm⟩
  · exact Or.inr ⟨‹_›, h⟩

/-- A node gets names that were free for it. Those of the nodes below it are to be recomputed. -/
theorem relabeled (h : tree.Named (id :: pending)) (hung : tree.Hung) {f : TreeNode → TreeNode}
    (hnode : tree.node? id = some node) (hseat : ∀ node, (f node).seat = node.seat)
    (hroot : node.parent = none → (f node).path = node.path ∧ (f node).qualifiedName = (f node).name)
    (hup : ∀ above owner, node.parent = some above → tree.node? above = some owner →
      isAlias (f node).name = true ∧ (f node).name ∉ tree.takenNames id ∧
        (f node).qualifiedName = owner.qualifiedName ++ "." ++ (f node).name ∧
        (f node).path = qualify owner.path (f node).name)
    (hbelow : ∀ below, (tree.node? below).isSome → id ∈ tree.ancestors below → below ∈ pending) :
    (tree.modifyNode id f).Named pending := by
  have hview : tree.SameView TreeNode.seat (tree.modifyNode id f) := sameView_modifyNode tree id hseat
  have hself := parent?_eq hnode
  have hpending : ∀ n, n ≠ id → n ∉ pending → n ∉ id :: pending := fun n hne hn hmem =>
    (List.mem_cons.1 hmem).elim hne hn
  -- whatever is near the node has a name that was taken
  have hfresh : ∀ other found, tree.node? other = some found → other ≠ id → other ∉ pending →
      tree.Near id other → (f node).name ≠ found.name := by
    intro other found hfound hne hother hnear heq
    obtain ⟨above, habove⟩ := hung.exists_parent_of_near hnear
    obtain ⟨owner, howner⟩ := Option.isSome_iff_exists.1 (hung.live_above habove)
    refine (hup above owner (hself.symm.trans habove) howner).2.1 (heq ▸ ?_)
    exact h.mem_takenNames hung hfound (hpending other hne hother) hnear
  constructor
  case root =>
    intro node' hnode'
    rcases node?_modifyNode_cases hnode hnode' with ⟨heq, rfl⟩ | ⟨hne, hold⟩
    · obtain ⟨hpath, hname⟩ := hroot (hself.symm.trans (heq ▸ hung.parent?_root))
      exact ⟨hpath.trans (h.root node (heq ▸ hnode)).1, fun _ => hname⟩
    · exact (h.root node' hold).imp_right fun hname hmem => hname (hpending _ hne hmem)
  case named =>
    intro n node' hnode' hne hn
    rcases node?_modifyNode_cases hnode hnode' with ⟨rfl, rfl⟩ | ⟨hother, hold⟩
    · have hlive : (tree.node? n).isSome := by rw [hnode]; rfl
      obtain ⟨above, habove⟩ := hung.exists_parent hlive hne
      obtain ⟨owner, howner⟩ := Option.isSome_iff_exists.1 (hung.live_above habove)
      exact (hup above owner (hself.symm.trans habove) howner).1
    · exact h.named n node' hold hne (hpending n hother hn)
  case apart =>
    intro n node' other found' hnode' hfound' hnearAfter hn hother
    have hnear := hview.continues.near hung (hung.keeps hview) (by rw [hnode']; rfl) (by rw [hfound']; rfl)
      (by simp) (by simp) hnearAfter
    rcases node?_modifyNode_cases hnode hnode' with ⟨rfl, rfl⟩ | ⟨hne, hold⟩ <;>
      rcases node?_modifyNode_cases hnode hfound' with ⟨rfl, rfl⟩ | ⟨hne', hold'⟩
    · exact (hung.not_near_self hnear).elim
    · exact hfresh other found' hold' hne' hother hnear
    -- the node is a sibling of the other one, since nothing that is settled stands below it
    · rcases hnear with hmem | hmem
      · exact (hn (hbelow n (by rw [hold]; rfl) hmem)).elim
      · exact (hfresh n node' hold hne hn (Or.inr (hung.sibling_symm hmem))).symm
    · exact h.apart n node' other found' hold hold' hnear (hpending n hne hn) (hpending other hne' hother)
  case follows =>
    intro n node' above owner' hnode' habove howner' hn
    rcases node?_modifyNode_cases hnode hnode' with ⟨rfl, rfl⟩ | ⟨hne, hold⟩
    · have habove : node.parent = some above := (congrArg (fun seat => seat.2.1) (hseat node)).symm.trans habove
      have hyounger := (hung.younger_of_parent? (hself.trans habove)).1
      rcases node?_modifyNode_cases hnode howner' with ⟨rfl, _⟩ | ⟨_, holdOwner⟩
      · exact absurd hyounger (Nat.lt_irrefl _)
      · exact (hup above owner' habove holdOwner).2.2
    · rcases node?_modifyNode_cases hnode howner' with ⟨rfl, _⟩ | ⟨_, holdOwner⟩
      · refine (hn (hbelow n (by rw [hold]; rfl) ?_)).elim
        rw [hung.ancestors_eq_cons ((parent?_eq hold).trans habove)]
        exact List.mem_cons_self ..
      · exact h.follows n node' above owner' hold habove holdOwner (hpending n hne hn)

/-- Nobody waits for a node that is not there. -/
theorem discard (h : tree.Named (id :: pending)) (hnone : tree.node? id = none) : tree.Named pending := by
  have hpending : ∀ n node, tree.node? n = some node → n ∉ pending → n ∉ id :: pending := by
    rintro n node hnode hn hmem
    rcases List.mem_cons.1 hmem with rfl | hmem
    · rw [hnone] at hnode
      cases hnode
    · exact hn hmem
  constructor
  case root =>
    intro node hnode
    exact (h.root node hnode).imp_right fun hname hn => hname (hpending _ node hnode hn)
  case named =>
    intro n node hnode hroot hn
    exact h.named n node hnode hroot (hpending n node hnode hn)
  case apart =>
    intro n node other found hnode hfound hnear hn hother
    exact h.apart n node other found hnode hfound hnear (hpending n node hnode hn)
      (hpending other found hfound hother)
  case follows =>
    intro n node above owner hnode habove howner hn
    exact h.follows n node above owner hnode habove howner (hpending n node hnode hn)

/-- A node gets a free name, and the nodes below it wait for their turn. -/
theorem resolveNames (h : tree.Named (id :: pending)) (hung : tree.Hung)
    (hbelow : ∀ below, (tree.node? below).isSome → id ∈ tree.ancestors below → below ∈ pending) :
    (tree.resolveNames id).Named pending := by
  unfold IncludeTree.resolveNames
  split
  · rename_i hnone
    exact h.discard hnone
  · rename_i node hnode
    split
    · rename_i hparent
      exact h.relabeled hung hnode (fun _ => rfl) (fun _ => ⟨rfl, rfl⟩)
        (fun above owner habove => by rw [hparent] at habove; cases habove) hbelow
    · rename_i parent hparent
      have hup := (parent?_eq hnode).trans hparent
      split
      · rename_i hnone
        have hlive := hung.live_above hup
        rw [hnone] at hlive
        cases hlive
      · rename_i owner howner
        refine h.relabeled hung hnode (fun _ => rfl) (fun hnone => by rw [hparent] at hnone; cases hnone) ?_ hbelow
        intro above owner' habove howner'
        rw [hparent] at habove
        cases habove
        rw [howner] at howner'
        cases howner'
        refine ⟨isAlias_freeName (hung.aliased id parent _ hup (alias?_eq hnode)) _, freeName_notMem _ _, rfl, rfl⟩

/-! ## All turns -/

/-- In a list with parents first, whatever stands below the first node comes later. -/
theorem mem_of_parentsFirst (hung : tree.Hung) (hfirst : tree.ParentsFirst (id :: pending)) :
    ∀ below, (tree.node? below).isSome → id ∈ tree.ancestors below → below ∈ pending := by
  refine hung.induction_down (fun hmem => ?_) fun above below hparent ih hmem => ?_
  · rw [hung.ancestors_of_none hung.parent?_root] at hmem
    cases hmem
  · have hincludes := hung.includes_iff.2 hparent
    have hlive := isSome_of_parent? hparent
    rcases (hung.mem_ancestors_iff hparent).1 hmem with rfl | hmem
    · exact hfirst.1 below hincludes hlive
    · exact hfirst.2.mem (ih hmem) hincludes hlive

/-- When all have had their turn, parents first, no node waits. -/
theorem resolveAll {ids : List NodeId} (h : tree.Named ids) (hung : tree.Hung) (hfirst : tree.ParentsFirst ids) :
    (ids.foldl IncludeTree.resolveNames tree).Named [] := by
  induction ids generalizing tree with
  | nil => exact h
  | cons id rest ih =>
    exact ih (h.resolveNames hung (mem_of_parentsFirst hung hfirst)) (hung.keeps (seat_resolveNames tree id))
      (hfirst.2.resolveNames id)

theorem resolveSubtree (h : tree.Named []) (hung : tree.Hung) (id : NodeId) : (tree.resolveSubtree id).Named [] :=
  (h.mono fun _ hid => by cases hid).resolveAll hung (hung.younger.parentsFirst_subtree id)

/-! ## Commands -/

/-- Nets and maps have no say in names. -/
theorem sameView (h : tree.Named []) (hung : tree.Hung) (hview : tree.SameView TreeNode.frame after) :
    after.Named [] := by
  refine h.carry hung (hung.keeps hview.seat) hview.seat.continues (fun id node' hnode' _ => ?_)
    fun _ hmem => by cases hmem
  obtain ⟨node, hnode, hframe⟩ := hview.symm.exists_after hnode'
  exact ⟨node, hnode, (congrArg TreeNode.parent hframe.symm :), (congrArg TreeNode.name hframe.symm :),
    (congrArg TreeNode.qualifiedName hframe.symm :), (congrArg TreeNode.path hframe.symm :)⟩

/-- A new node waits for its names, and no other node has to. -/
theorem grow (h : tree.Named []) (hung : tree.Hung) {parent : NodeId} {name : String}
    (howner : tree.node? parent = some owner) (hgrown : (tree.grow parent name node).Hung)
    (hparent : node.parent = some parent) : (tree.grow parent name node).Named [tree.nodes.nextId] := by
  refine h.carry hung hgrown (continues_grow howner) (fun id found' hfound' hne => ?_) fun id hmem below hbelow => ?_
  · rw [node?_grow_eq howner, if_neg (by simpa using hne)] at hfound'
    split at hfound'
    · rename_i heq
      cases hfound'
      exact ⟨owner, heq ▸ howner, rfl, rfl, rfl, rfl⟩
    · exact ⟨found', hfound', rfl, rfl, rfl, rfl⟩
  · rw [List.mem_singleton.1 hmem, parent?_grow howner] at hbelow
    -- the new node has nobody below it
    split at hbelow
    · rw [hparent] at hbelow
      exact ne_nextId howner (Option.some.inj hbelow)
    · have habove := hung.live_above hbelow
      rw [node?_nextId] at habove
      cases habove

/-- The nodes that are left keep their names. -/
theorem prune (h : tree.Named []) (hung : tree.Hung) {parent : NodeId} {name : String} {doomed : List NodeId}
    (hpruned : (tree.prune parent name doomed).Hung) : (tree.prune parent name doomed).Named [] := by
  refine h.carry hung hpruned (continues_prune ..) (fun id found' hfound' _ => ?_) fun _ hmem => by cases hmem
  rw [node?_prune] at hfound'
  split at hfound'
  · cases hfound'
  · obtain ⟨found, hfound, rfl⟩ := Option.map_eq_some_iff.1 hfound'
    exact ⟨found, hfound, rfl, rfl, rfl, rfl⟩

/-- A new alias alone changes no name. -/
theorem realiased (h : tree.Named []) (hung : tree.Hung) {parent : Option NodeId} {old new : String}
    (hrealiased : (tree.realiased id parent old new).Hung) : (tree.realiased id parent old new).Named [] := by
  refine h.carry hung hrealiased (continues_realiased ..) (fun other found' hfound' _ => ?_)
    fun _ hmem => by cases hmem
  rw [node?_realiased] at hfound'
  obtain ⟨found, hfound, rfl⟩ := Option.map_eq_some_iff.1 hfound'
  exact ⟨found, hfound, rfl, rfl, rfl, rfl⟩

theorem attach (h : tree.Named []) (hung : tree.Hung) {parent : NodeId} {net : Net} {name : String}
    (hcommand : tree.attach parent net name = .ok (id, after)) : after.Named [] := by
  obtain ⟨owner, howner, halias, hfree, rfl, rfl⟩ := attach_eq_ok hcommand
  have hgrown := hung.grow_attached net howner halias hfree
  have hresolved := (h.grow hung howner hgrown rfl).resolveNames hgrown fun below hlive hmem =>
    (hgrown.nextId_notMem_ancestors hlive hmem).elim
  refine hresolved.sameView (hgrown.keeps (seat_resolveNames ..)) ?_
  exact ((remaps_seedAvailable ..).frame.trans (remaps_registerHomes ..).frame).trans (sameView_touch ..)

theorem detach (h : tree.Named []) (hung : tree.Hung) (parent : NodeId) (name : String) :
    (tree.detach parent name).1.Named [] := by
  rcases detach_cases tree parent name with ⟨_, heq⟩ | ⟨node, id, hdetaches, heq⟩
  · rw [heq]
    exact h
  · rw [heq]
    have hpruned := hung.prune ((child?_eq hdetaches.live name).trans hdetaches.child)
    exact (h.prune hung hpruned).sameView hpruned (sameView_touch ..)

theorem rename (h : tree.Named []) (hung : tree.Hung) {name : String}
    (hcommand : tree.rename id name = .ok after) : after.Named [] := by
  obtain ⟨node, hnode, halias, hfree, rfl⟩ := rename_eq_realiased hcommand
  have hrealiased := hung.realiased hnode halias hfree
  have hresolved := (h.realiased hung hrealiased).resolveSubtree hrealiased id
  exact hresolved.sameView (hrealiased.keeps (seat_resolveSubtree ..)) (sameView_touch ..)

theorem perform (h : tree.Named []) (hung : tree.Hung) (command : TreeCommand) :
    (tree.perform command).1.Named [] := by
  by_cases hreshapes : command.Reshapes
  · cases command with
    | attach parent net name => exact settled_keeps h fun _ _ hcommand => h.attach hung hcommand
    | detach parent name => exact h.detach hung parent name
    | rename id name => exact settledDone_keeps h fun _ hcommand => h.rename hung hcommand
    | _ => exact hreshapes.elim
  · exact h.sameView hung (frame_perform hreshapes)

theorem sprout (net : Net) (name : String) : (IncludeTree.sprout net name).Named [] := by
  have honly : ∀ id node, (IncludeTree.sprout net name).node? id = some node → id = rootId ∧
      node = ⟨name, name, name, "", none, Table.empty, net, Table.empty⟩ := by
    intro id node hnode
    rw [node?_sprout] at hnode
    split at hnode
    · exact ⟨‹_›, (Option.some.inj hnode).symm⟩
    · cases hnode
  refine ⟨fun node hnode => ?_, fun id node hnode hne _ => absurd (honly id node hnode).1 hne,
    fun id node other found hnode hfound hnear _ _ => ?_, fun id node above owner hnode habove _ _ => ?_⟩
  · rw [(honly _ node hnode).2]
    exact ⟨rfl, fun _ => rfl⟩
  · rw [(honly id node hnode).1, (honly other found hfound).1] at hnear
    exact ((Hung.sprout net name).not_near_self hnear).elim
  · rw [(honly id node hnode).2] at habove
    cases habove

end Named

/-- In a tree that comes about by commands no node waits for its names. -/
theorem Arises.named (h : tree.Arises) : tree.Named [] := by
  induction h with
  | new net name =>
    exact (Named.sprout net name).sameView (.sprout net name)
      (remaps_registerHomes (sprout net name) rootId).frame
  | withAccessScope scope hbefore ih => exact ih.sameView hbefore.hung ⟨rfl, rfl, fun _ => rfl⟩
  | setNet id net hbefore ih => exact ih.sameView hbefore.hung (frame_setNet _ id net)
  | perform command hbefore ih => exact ih.perform hbefore.hung command

/-! ## Names and nodes -/

/-- The names on the way from the root down to a node, without that of the root. -/
def trail (tree : IncludeTree) (id : NodeId) : List String :=
  (tree.namesOf (id :: tree.ancestors id).dropLast).reverse

theorem Hung.trail_root (h : tree.Hung) : tree.trail tree.root = [] := by
  rw [trail, h.ancestors_of_none h.parent?_root]
  rfl

theorem Hung.trail_below (h : tree.Hung) (hnode : tree.node? id = some node) (hparent : node.parent = some above) :
    tree.trail id = tree.trail above ++ [node.name] := by
  rw [trail, h.ancestors_eq_cons ((parent?_eq hnode).trans hparent), List.dropLast_cons_cons, namesOf,
    List.filterMap_cons, hnode]
  exact List.reverse_cons

namespace Named

/-- The names of a node below another one continue those of the other. -/
theorem below (h : tree.Named []) (hung : tree.Hung) (hnode : tree.node? id = some node)
    (hparent : tree.parent? id = some above) : ∃ owner, tree.node? above = some owner ∧
      isAlias node.name = true ∧ node.qualifiedName = owner.qualifiedName ++ "." ++ node.name ∧
      node.path = qualify owner.path node.name := by
  obtain ⟨owner, howner⟩ := Option.isSome_iff_exists.1 (hung.live_above hparent)
  have hne : id ≠ tree.root := fun heq => by
    rw [heq, hung.parent?_root] at hparent
    cases hparent
  refine ⟨owner, howner, h.named id node hnode hne (by simp), ?_⟩
  exact h.follows id node above owner hnode ((parent?_eq hnode).symm.trans hparent) howner (by simp)

/-- The root alone has an empty path. -/
theorem path_eq_empty_iff (h : tree.Named []) (hung : tree.Hung) (hnode : tree.node? id = some node) :
    node.path = "" ↔ id = tree.root := by
  constructor
  · intro hempty
    cases hparent : tree.parent? id with
    | none => exact (hung.parentless id (by rw [hnode]; rfl)).1 hparent
    | some above =>
      obtain ⟨owner, _, halias, _, hpath⟩ := h.below hung hnode hparent
      rw [hpath] at hempty
      exact absurd hempty (qualify_ne_empty (isAlias_iff.1 halias).1)
  · rintro rfl
    exact (h.root node hnode).1

/-- A path is made of the names below the root, and a qualified name has that of the root in front. -/
theorem path_eq_trail (h : tree.Named []) (hung : tree.Hung) {top : TreeNode}
    (htop : tree.node? tree.root = some top) : ∀ id, (tree.node? id).isSome → ∀ node, tree.node? id = some node →
      node.path = ".".intercalate (tree.trail id) ∧
        node.qualifiedName = ".".intercalate (top.name :: tree.trail id) := by
  refine hung.induction_down (fun node hnode => ?_) fun above id hparent ih node hnode => ?_
  · rw [htop] at hnode
    cases hnode
    obtain ⟨hpath, hname⟩ := h.root top htop
    rw [hung.trail_root, hpath, hname (by simp), String.intercalate_singleton, String.intercalate_nil]
    exact ⟨rfl, rfl⟩
  · obtain ⟨owner, howner, _, hqualified, hpath⟩ := h.below hung hnode hparent
    obtain ⟨ihPath, ihQualified⟩ := ih owner howner
    rw [hung.trail_below hnode ((parent?_eq hnode).symm.trans hparent)]
    refine ⟨?_, ?_⟩
    · by_cases hroot : above = tree.root
      -- below the root itself the path is the name
      · rw [hpath, (h.path_eq_empty_iff hung howner).2 hroot, hroot, hung.trail_root, List.nil_append,
          String.intercalate_singleton]
        rfl
      · have howned : owner.path ≠ "" := mt (h.path_eq_empty_iff hung howner).1 hroot
        have htrail : tree.trail above ≠ [] := fun hnil => howned (by rw [ihPath, hnil, String.intercalate_nil])
        rw [String.intercalate_append_of_ne_nil htrail (List.cons_ne_nil _ _), String.intercalate_singleton,
          ← ihPath, hpath, qualify, if_neg (by simpa using howned)]
    · rw [hqualified, ihQualified, ← List.cons_append,
        String.intercalate_append_of_ne_nil (List.cons_ne_nil _ _) (List.cons_ne_nil _ _),
        String.intercalate_singleton]

/-- Nodes with the same path are the same: a path tells the names on it, and siblings have different ones. -/
theorem path_injective (h : tree.Named []) (hung : tree.Hung) : ∀ id, (tree.node? id).isSome →
    ∀ node other found, tree.node? id = some node → tree.node? other = some found → node.path = found.path →
      other = id := by
  refine hung.induction_down (fun node other found hnode hfound heq => ?_)
    fun above id hparent ih node other found hnode hfound heq => ?_
  · exact (h.path_eq_empty_iff hung hfound).1 (heq.symm.trans ((h.path_eq_empty_iff hung hnode).2 rfl))
  · obtain ⟨owner, howner, halias, _, hpath⟩ := h.below hung hnode hparent
    cases hparent' : tree.parent? other with
    | none =>
      have hroot := (hung.parentless other (by rw [hfound]; rfl)).1 hparent'
      rw [(h.path_eq_empty_iff hung hfound).2 hroot, hpath] at heq
      exact absurd heq (qualify_ne_empty (isAlias_iff.1 halias).1)
    | some above' =>
      obtain ⟨owner', howner', halias', _, hpath'⟩ := h.below hung hfound hparent'
      rw [hpath, hpath'] at heq
      obtain ⟨hbefore, hname⟩ := qualify_inj (isAlias_iff.1 halias).2 (isAlias_iff.1 halias').2 heq
      have habove := ih owner above' owner' howner howner' hbefore
      by_contra hne
      have hsibling := (hung.mem_siblings_iff hparent).2 ⟨habove ▸ hparent', hne⟩
      exact h.apart id node other found hnode hfound (Or.inr hsibling) (by simp) (by simp) hname

/-- Nodes with the same qualified name are the same, since all qualified names begin with that of the root. -/
theorem qualifiedName_injective (h : tree.Named []) (hung : tree.Hung) (hnode : tree.node? id = some node)
    (hfound : tree.node? other = some found) (heq : node.qualifiedName = found.qualifiedName) : other = id := by
  obtain ⟨top, htop⟩ := Option.isSome_iff_exists.1 hung.top
  have hlive : (tree.node? id).isSome := by rw [hnode]; rfl
  have hparts : ∀ n node, tree.node? n = some node → node.qualifiedName.toList =
      top.name.toList ++ if node.path = "" then [] else '.' :: node.path.toList := by
    intro n node hnode
    obtain ⟨hpath, hqualified⟩ := h.path_eq_trail hung htop n (by rw [hnode]; rfl) node hnode
    by_cases hempty : node.path = ""
    · rw [(h.path_eq_empty_iff hung hnode).1 hempty, hung.trail_root, String.intercalate_singleton] at hqualified
      rw [hqualified, if_pos hempty, List.append_nil]
    · have htrail : tree.trail n ≠ [] := fun hnil => hempty (by rw [hpath, hnil, String.intercalate_nil])
      rw [String.intercalate_cons_of_ne_nil htrail, ← hpath] at hqualified
      rw [hqualified, if_neg hempty, String.toList_append, String.toList_append, List.append_assoc]
      rfl
  refine h.path_injective hung id hlive node other found hnode hfound ?_
  have hrest := congrArg String.toList heq
  rw [hparts id node hnode, hparts other found hfound, List.append_cancel_left_eq] at hrest
  by_cases hpath : node.path = "" <;> by_cases hpath' : found.path = ""
  · rw [hpath, hpath']
  · simp [hpath, hpath'] at hrest
  · simp [hpath, hpath'] at hrest
  · rw [if_neg hpath, if_neg hpath'] at hrest
    exact String.toList_inj.1 (List.cons.inj hrest).2

/-- A node is found under its qualified name. -/
theorem find_qualifiedName (h : tree.Named []) (hung : tree.Hung) (hnode : tree.node? id = some node) :
    tree.find node.qualifiedName = some id := by
  unfold find
  cases hfind : tree.walk.find? fun e => e.2.qualifiedName == node.qualifiedName with
  | none =>
    have hmiss := List.find?_eq_none.1 hfind (id, node) (hung.toRooted.mem_walk hnode)
    simp at hmiss
  | some e =>
    -- whatever is found first has the name, and one node only has it
    have hname := List.find?_some hfind
    rw [beq_iff_eq] at hname
    have hfound := (mem_walk.1 (List.mem_of_find?_eq_some hfind)).2
    exact congrArg some (h.qualifiedName_injective hung hnode hfound hname.symm)

end Named

/-- Names identify nodes. A node below the root has a name without a point, which is not empty and is that of
no ancestor and of no sibling. Its path joins the names below the root, and its qualified name puts the name of
the root in front. No two nodes have one path or one qualified name, and a node is found under its own. -/
theorem Arises.names_identify (h : tree.Arises) : ∃ top, tree.node? tree.root = some top ∧
    ∀ id node, tree.node? id = some node →
      (id ≠ tree.root → node.name ≠ "" ∧ '.' ∉ node.name.toList ∧
        ∀ other found, tree.node? other = some found → other ∈ tree.ancestors id ∨ other ∈ tree.siblings id →
          node.name ≠ found.name) ∧
      node.path = ".".intercalate (tree.trail id) ∧
      node.qualifiedName = ".".intercalate (top.name :: tree.trail id) ∧
      (∀ other found, tree.node? other = some found →
        node.path = found.path ∨ node.qualifiedName = found.qualifiedName → other = id) ∧
      tree.find node.qualifiedName = some id := by
  have hung := h.hung
  have hnamed := h.named
  obtain ⟨top, htop⟩ := Option.isSome_iff_exists.1 hung.top
  refine ⟨top, htop, fun id node hnode => ?_⟩
  have hlive : (tree.node? id).isSome := by rw [hnode]; rfl
  obtain ⟨hpath, hqualified⟩ := hnamed.path_eq_trail hung htop id hlive node hnode
  refine ⟨fun hne => ?_, hpath, hqualified, fun other found hfound hsame => ?_, hnamed.find_qualifiedName hung hnode⟩
  · obtain ⟨hempty, hpoint⟩ := isAlias_iff.1 (hnamed.named id node hnode hne (by simp))
    exact ⟨hempty, hpoint, fun other found hfound hnear =>
      hnamed.apart id node other found hnode hfound hnear (by simp) (by simp)⟩
  · rcases hsame with hsame | hsame
    · exact hnamed.path_injective hung id hlive node other found hnode hfound hsame
    · exact hnamed.qualifiedName_injective hung hnode hfound hsame

/-- Two nets included under one alias, one below the other, and a root that is given this alias too. -/
def nested : IncludeTree := (IncludeTree.new (Net.new "net") "root").performAll
  [.attach rootId (Net.new "outer") "a", .attach ⟨1⟩ (Net.new "inner") "a", .rename rootId "a"]

theorem names_identify_nested : nested.Arises ∧
    (nested.node? ⟨2⟩).map TreeNode.qualifiedName = some "a.a1.a2" ∧ nested.find "a.a1.a2" = some ⟨2⟩ := by
  have harises : nested.Arises := (Arises.new (Net.new "net") "root").performAll _
  have hname : (nested.node? ⟨2⟩).map TreeNode.qualifiedName = some "a.a1.a2" := by decide +kernel
  refine ⟨harises, hname, ?_⟩
  obtain ⟨_, _, hall⟩ := harises.names_identify
  obtain ⟨node, hnode, hqualified⟩ := Option.map_eq_some_iff.1 hname
  obtain ⟨_, _, _, _, hfind⟩ := hall ⟨2⟩ node hnode
  rwa [hqualified] at hfind

end IncludeTree

end PetriTree
