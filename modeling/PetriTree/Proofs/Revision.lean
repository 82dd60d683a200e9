import PetriTree.Live.Sync
import PetriTree.Proofs.Compile
import PetriTree.Proofs.MapEdit
import PetriTree.Proofs.Outline
import PetriTree.Proofs.Sample

/-!
# PetriTree — revisions

A live net remembers the revision of its tree and those of the nets in it, and takes itself to be up to date
as long as they are the same. That this is sound rests on two things. A revision never falls, so that it does
not come back once it has moved on. And whatever moves no revision moves nothing that joining looks at: a
command that changes the tree at all moves the revision of the tree, and an edit of a net moves that of the net
unless it sets tokens. What is left are tokens and interface maps, and the outline of a flat net depends on
neither.

Main results:
* `Net.Follows.perform` — an edit moves the revision of its net, or sets tokens only;
* `IncludeTree.signals_perform` — a command moves the revision of the tree, or changes nothing;
* `IncludeTree.Follows.changedAll` — what a tree keeps as long as its revision stays;
* `LiveNet.outline_eq_of_needsRefresh` — a live net that is up to date is what joining anew would make, but for
  tokens.
-/

namespace PetriTree

/-! ## Edits of nets -/

/-- The net after an edit; one that is refused leaves it as it is. -/
def Net.edited (net : Net) (edit : NetEdit) : Net :=
  match net.perform edit with
  | .ok (_, after) => after
  | .error _ => net

/-- The net came after another one: its revision is no smaller, and the same only if nothing but tokens has
changed. -/
structure Net.Follows (net after : Net) : Prop where
  grows : net.revision ≤ after.revision
  name : after.name = net.name
  outline : after.revision = net.revision → after.outline = net.outline

namespace Net.Follows

variable {net after : Net}

theorem refl (net : Net) : net.Follows net := ⟨Nat.le_refl _, rfl, fun _ => rfl⟩

theorem trans {a b c : Net} (h : a.Follows b) (h' : b.Follows c) : a.Follows c := by
  have hgrows := h.grows
  have hgrows' := h'.grows
  refine ⟨by omega, h'.name.trans h.name, fun hsame => ?_⟩
  -- a revision that is back where it was has never left
  rw [h'.outline (by omega), h.outline (by omega)]

theorem touch (hname : after.name = net.name) (hrevision : after.revision = net.revision) :
    net.Follows after.touch := by
  have hmoved : after.touch.revision = net.revision + 1 := congrArg (· + 1) hrevision
  exact ⟨by omega, hname, fun hsame => by omega⟩

theorem setTokens {place color : String} {n : Count} (hedit : net.setTokens place color n = .ok after) :
    net.Follows after := by
  obtain ⟨_, _, rfl⟩ := setTokens_eq_ok hedit
  refine ⟨Nat.le_refl _, rfl, fun _ => ?_⟩
  have hplaces := Table.map_modify net.places place (f := fun p => { p with tokens := p.tokens.insert color n })
    (g := Place.outline) fun _ => rfl
  simp only [Net.outline, hplaces]

theorem add {component : Component} (hedit : net.add component = .ok after) : net.Follows after := by
  cases component with
  | color value =>
    obtain ⟨_, rfl⟩ := addColor_eq_ok hedit
    exact touch rfl rfl
  | note value =>
    obtain ⟨_, rfl⟩ := addNote_eq_ok hedit
    exact touch rfl rfl
  | place value =>
    obtain ⟨_, rfl⟩ := addPlace_eq_ok hedit
    exact touch rfl rfl
  | rateParameter value =>
    obtain ⟨_, _, rfl⟩ := addParameter_eq_ok hedit
    exact touch rfl rfl
  | transition value =>
    obtain ⟨_, _, _, rfl⟩ := addTransition_eq_ok hedit
    exact touch rfl rfl
  | arc value =>
    obtain ⟨_, _, _, _, _, rfl⟩ := addArc_eq_ok hedit
    exact touch rfl rfl

/-- An edit moves the revision of its net, or sets tokens only. -/
theorem perform {edit : NetEdit} {removed : Option Component} (hedit : net.perform edit = .ok (removed, after)) :
    net.Follows after := by
  cases edit with
  | add component => exact add (changed_eq_ok hedit)
  | setTokens place color n => exact setTokens (changed_eq_ok hedit)
  | removePlace id =>
    obtain ⟨place, hedit⟩ := taken_eq_ok hedit
    obtain ⟨_, rfl⟩ := removePlace_eq_ok hedit
    exact touch rfl rfl
  | removeTransition id =>
    obtain ⟨transition, hedit⟩ := taken_eq_ok hedit
    obtain ⟨_, rfl⟩ := removeTransition_eq_ok hedit
    exact touch rfl rfl
  | removeArc id =>
    obtain ⟨arc, hedit⟩ := taken_eq_ok hedit
    obtain ⟨_, rfl⟩ := removeArc_eq_ok hedit
    exact touch rfl rfl
  | removeParameter id =>
    obtain ⟨parameter, hedit⟩ := taken_eq_ok hedit
    obtain ⟨_, _, rfl⟩ := removeParameter_eq_ok hedit
    exact touch rfl rfl
  | setCapacity place capacity =>
    obtain ⟨_, rfl⟩ := setCapacity_eq_ok (changed_eq_ok hedit)
    exact touch rfl rfl
  | setStatus place status =>
    obtain ⟨_, rfl⟩ := setStatus_eq_ok (changed_eq_ok hedit)
    exact touch rfl rfl
  | setWeight arc color text =>
    obtain ⟨_, _, _, rfl⟩ := setWeight_eq_ok (changed_eq_ok hedit)
    exact touch rfl rfl
  | setRate transition rate =>
    obtain ⟨_, _, rfl⟩ := setRate_eq_ok (changed_eq_ok hedit)
    exact touch rfl rfl
  | setDelay transition delay =>
    obtain ⟨_, rfl⟩ := setDelay_eq_ok (changed_eq_ok hedit)
    exact touch rfl rfl
  | renamePlace old new =>
    obtain ⟨_, _, rfl⟩ := renamePlace_eq_ok (changed_eq_ok hedit)
    exact touch rfl rfl

theorem edited (net : Net) (edit : NetEdit) : net.Follows (net.edited edit) := by
  unfold Net.edited
  split
  · rename_i hedit
    exact perform hedit
  · exact refl net

/-- Pushing sets tokens only, up to the first colour that is refused. -/
theorem pushColors (m : Marking) (flat place : String) (colors : List String) (net : Net) :
    net.Follows (LiveNet.pushColors m flat place colors net).1 := by
  induction colors generalizing net with
  | nil => exact refl net
  | cons color rest ih =>
    rw [LiveNet.pushColors]
    split
    · exact ih net
    · split
      · exact refl net
      · rename_i hset
        exact (setTokens hset).trans (ih _)

end Net.Follows

/-! ## Commands on trees -/

namespace IncludeTree

variable {tree after : IncludeTree}

theorem revision_resolveNames (tree : IncludeTree) (id : NodeId) :
    (tree.resolveNames id).revision = tree.revision := by
  unfold resolveNames
  split
  · rfl
  · split
    · rfl
    · split <;> rfl

theorem revision_resolveSubtree (tree : IncludeTree) (id : NodeId) :
    (tree.resolveSubtree id).revision = tree.revision := by
  unfold resolveSubtree
  generalize tree.subtree id = ids
  induction ids generalizing tree with
  | nil => rfl
  | cons first rest ih => rw [List.foldl_cons, ih, revision_resolveNames]

theorem revision_enter (tree : IncludeTree) (key : String) (entry : NodeId → InterfacePlace)
    (targets : List NodeId) : (tree.enter key entry targets).revision = tree.revision := by
  unfold enter
  induction targets generalizing tree with
  | nil => rfl
  | cons first rest ih => exact ih _

theorem revision_announced (tree : IncludeTree) (key : String) (home : HomeRef) :
    (tree.announced key home).revision = tree.revision + 1 :=
  congrArg (· + 1) (revision_enter ..)

/-- Every home that is registered moves the revision. -/
theorem revision_le_registerHomes (tree : IncludeTree) (id : NodeId) :
    tree.revision ≤ (tree.registerHomes id).revision := by
  refine registerHomes_induction (P := fun after => tree.revision ≤ after.revision) (Nat.le_refl _)
    fun _ _ place _ now hle => ?_
  rcases tryRegister_cases now id place with ⟨owner, _, _, heq⟩ | ⟨_, heq⟩ <;> rw [heq]
  · rw [revision_announced]
    exact Nat.le_succ_of_le hle
  · exact hle

theorem revision_applyAll (command : MapCommand) (ids : List NodeId) (tree : IncludeTree) :
    (applyAll command ids tree).1.revision = tree.revision := by
  induction ids generalizing tree with
  | nil => rfl
  | cons id rest ih =>
    rw [applyAll]
    split
    · exact ih tree
    · split
      · rfl
      · exact ih _

/-- Either nothing has changed, or the revision has moved on. -/
def Signals (tree after : IncludeTree) : Prop := after = tree ∨ tree.revision < after.revision

theorem signals_touch (h : after.revision = tree.revision) : tree.Signals after.touch :=
  Or.inr (Nat.lt_succ_of_le (Nat.le_of_eq h.symm))

theorem signals_attach {parent id : NodeId} {net : Net} {name : String}
    (h : tree.attach parent net name = .ok (id, after)) : tree.Signals after := by
  obtain ⟨_, _, _, _, _, rfl⟩ := attach_eq_ok h
  refine Or.inr (Nat.lt_succ_of_le (Nat.le_trans ?_ (revision_le_registerHomes _ id)))
  -- what comes before the homes does not move the revision
  exact Nat.le_of_eq (revision_resolveNames (tree.grow parent name _) id).symm

theorem signals_detach (tree : IncludeTree) (parent : NodeId) (name : String) :
    tree.Signals (tree.detach parent name).1 := by
  rcases detach_cases tree parent name with ⟨_, heq⟩ | ⟨_, _, _, heq⟩
  · exact Or.inl (congrArg Prod.fst heq)
  · rw [heq]
    exact signals_touch rfl

theorem signals_rename {id : NodeId} {name : String} (h : tree.rename id name = .ok after) :
    tree.Signals after := by
  obtain ⟨_, _, _, ⟨_, rfl⟩ | ⟨_, _, rfl⟩⟩ := rename_eq_ok h
  · exact signals_touch (revision_resolveSubtree (tree.modifyNode id _) id)
  · exact signals_touch (revision_resolveSubtree ((tree.modifyNode _ _).modifyNode id _) id)

theorem signals_publish (tree : IncludeTree) (id : NodeId) (place : String) :
    tree.Signals (tree.publish id place).1 := by
  rcases publish_cases tree id place with ⟨_, heq⟩ | ⟨_, _, _, _, heq⟩
  · exact Or.inl (congrArg Prod.fst heq)
  · rw [heq]
    exact Or.inr (Nat.lt_of_lt_of_eq (Nat.lt_succ_self _) (revision_announced ..).symm)

/-- Using a place that is in use already changes nothing. -/
theorem signals_useInterface {id : NodeId} {away answer : String}
    (h : tree.useInterface id away = .ok (answer, after)) : tree.Signals after := by
  rcases useInterface_eq_ok h with rfl | ⟨_, _, _, _, rfl⟩
  · exact Or.inl rfl
  · exact signals_touch rfl

theorem signals_dropInterface {id : NodeId} {away : String} (h : tree.dropInterface id away = .ok after) :
    tree.Signals after := by
  obtain ⟨_, _, _, ⟨_, _, _, _, rfl⟩ | ⟨_, rfl⟩⟩ := dropInterface_eq_ok h
  · exact signals_touch rfl
  · exact signals_touch rfl

theorem signals_withdraw (tree : IncludeTree) (id : NodeId) (away : String) :
    tree.Signals (tree.withdraw id away).1 := by
  rcases withdraw_cases tree id away with ⟨_, heq⟩ | ⟨_, entry, released, _, hrelease, heq⟩
  · exact Or.inl (congrArg Prod.fst heq)
  · rw [heq]
    rcases release_cases (tree.forget away entry.home) id away entry.home.place with h | ⟨_, _, _, _, _, _, h⟩
    · cases hrelease.symm.trans h
      exact signals_touch rfl
    · cases hrelease.symm.trans h
      exact signals_touch rfl

theorem signals_execute (tree : IncludeTree) (id : NodeId) (scope : Scope) (command : MapCommand) :
    tree.Signals (tree.execute id scope command).1 := by
  rcases execute_cases tree id scope command with ⟨_, heq⟩ | ⟨after, _, _, heq⟩
  · exact Or.inl (congrArg Prod.fst heq)
  · rw [heq]
    unfold execute at heq
    split at heq
    · cases heq
    · rename_i targets _
      have hrevision := revision_applyAll command targets tree
      split at heq
      · cases heq
      · rename_i edited happly
        rw [happly] at hrevision
        have htouched : edited.touch = after.touch := congrArg Prod.fst heq
        exact htouched ▸ signals_touch hrevision

/-- A command moves the revision of the tree, or changes nothing. -/
theorem signals_perform (tree : IncludeTree) (command : TreeCommand) : tree.Signals (tree.perform command).1 := by
  have hrefused : tree.Signals tree := Or.inl rfl
  cases command with
  | attach parent net name => exact settled_keeps hrefused fun _ _ h => signals_attach h
  | detach parent name => exact signals_detach tree parent name
  | rename node name => exact settledDone_keeps hrefused fun _ h => signals_rename h
  | publish node place => exact signals_publish tree node place
  | useInterface node away => exact settled_keeps hrefused fun _ _ h => signals_useInterface h
  | dropInterface node away => exact settledDone_keeps hrefused fun _ h => signals_dropInterface h
  | withdraw node away => exact signals_withdraw tree node away
  | execute node scope command => exact signals_execute tree node scope command

end IncludeTree

/-! ## What is kept while the revision stays -/

/-- The node came after another one with the same place and names, and so did its net. -/
structure TreeNode.Follows (node after : TreeNode) : Prop where
  frame : after.frame = node.frame
  net : node.net.Follows after.net

theorem TreeNode.Follows.refl (node : TreeNode) : node.Follows node := ⟨rfl, .refl node.net⟩

theorem TreeNode.Follows.trans {a b c : TreeNode} (h : a.Follows b) (h' : b.Follows c) : a.Follows c :=
  ⟨h'.frame.trans h.frame, h.net.trans h'.net⟩

theorem TreeNode.Follows.children {node after : TreeNode} (h : node.Follows after) :
    after.children = node.children :=
  (congrArg TreeNode.children h.frame :)

theorem TreeNode.Follows.path {node after : TreeNode} (h : node.Follows after) : after.path = node.path :=
  (congrArg TreeNode.path h.frame :)

/-- Nodes whose nets have the same revision have one outline. -/
theorem TreeNode.Follows.outline {node after : TreeNode} (h : node.Follows after)
    (hsame : after.net.revision = node.net.revision) : after.outline = node.outline := by
  show { after.frame with net := after.net.outline } = { node.frame with net := node.net.outline }
  rw [h.frame, h.net.outline hsame]

namespace IncludeTree

variable {tree after : IncludeTree}

/-- The same nodes, each following what it was before. -/
structure Keeps (tree after : IncludeTree) : Prop where
  root : after.root = tree.root
  length : after.nodes.slots.length = tree.nodes.slots.length
  missing : ∀ id, tree.node? id = none → after.node? id = none
  nodes : ∀ id node, tree.node? id = some node → ∃ node', after.node? id = some node' ∧ node.Follows node'

namespace Keeps

theorem refl (tree : IncludeTree) : tree.Keeps tree :=
  ⟨rfl, rfl, fun _ h => h, fun _ node h => ⟨node, h, .refl node⟩⟩

theorem trans {a b c : IncludeTree} (h : a.Keeps b) (h' : b.Keeps c) : a.Keeps c := by
  refine ⟨h'.root.trans h.root, h'.length.trans h.length, fun id hnone => h'.missing id (h.missing id hnone), ?_⟩
  intro id node hnode
  obtain ⟨node', hnode', hfollows⟩ := h.nodes id node hnode
  obtain ⟨node'', hnode'', hfollows'⟩ := h'.nodes id node' hnode'
  exact ⟨node'', hnode'', hfollows.trans hfollows'⟩

theorem modifyNode {id : NodeId} {f : TreeNode → TreeNode}
    (hf : ∀ node, tree.node? id = some node → node.Follows (f node)) : tree.Keeps (tree.modifyNode id f) := by
  refine ⟨rfl, length_modifyNode .., fun other hnone => ?_, fun other node hnode => ?_⟩
  · rw [node?_modifyNode, hnone]
    split <;> rfl
  · rw [node?_modifyNode, hnode]
    split
    · rename_i hid
      exact ⟨f node, rfl, hf node (hid ▸ hnode)⟩
    · exact ⟨node, rfl, .refl node⟩

/-- What a node has in common with those it follows is as before. -/
theorem map_eq {β : Type} (h : tree.Keeps after) {f : TreeNode → β}
    (hf : ∀ node node', node.Follows node' → f node' = f node) (id : NodeId) :
    (after.node? id).map f = (tree.node? id).map f := by
  cases hnode : tree.node? id with
  | none => rw [h.missing id hnode]
  | some node =>
    obtain ⟨node', hnode', hfollows⟩ := h.nodes id node hnode
    rw [hnode', Option.map_some, hf node node' hfollows, Option.map_some]

theorem shape (h : tree.Keeps after) : tree.SameShape after :=
  ⟨h.root, h.length, h.map_eq fun _ _ hfollows => congrArg Table.values hfollows.children⟩

end Keeps

/-- The tree came after another one: its revision is no smaller, and the same only if the nodes are the same,
each following what it was before. -/
structure Follows (tree after : IncludeTree) : Prop where
  grows : tree.revision ≤ after.revision
  keeps : after.revision = tree.revision → tree.Keeps after

namespace Follows

theorem refl (tree : IncludeTree) : tree.Follows tree := ⟨Nat.le_refl _, fun _ => .refl tree⟩

theorem trans {a b c : IncludeTree} (h : a.Follows b) (h' : b.Follows c) : a.Follows c := by
  have hgrows := h.grows
  have hgrows' := h'.grows
  refine ⟨by omega, fun hsame => ?_⟩
  exact (h.keeps (by omega)).trans (h'.keeps (by omega))

theorem modifyNode {id : NodeId} {f : TreeNode → TreeNode}
    (hf : ∀ node, tree.node? id = some node → node.Follows (f node)) : tree.Follows (tree.modifyNode id f) :=
  ⟨Nat.le_refl _, fun _ => .modifyNode hf⟩

/-- Whatever a command does to nodes and nets, it moves the revision. -/
theorem perform (tree : IncludeTree) (command : TreeCommand) : tree.Follows (tree.perform command).1 := by
  rcases signals_perform tree command with heq | hlt
  · rw [heq]
    exact refl tree
  · exact ⟨Nat.le_of_lt hlt, fun hsame => absurd hsame (Nat.ne_of_gt hlt)⟩

/-- Pushing sets tokens only, up to the first place that is refused. -/
theorem pushPairs (m : Marking) (colors : List String) (pairs : List (String × SourcePlace)) (tree : IncludeTree) :
    tree.Follows (LiveNet.pushPairs m colors pairs tree).1 := by
  induction pairs generalizing tree with
  | nil => exact refl tree
  | cons pair rest ih =>
    obtain ⟨flat, source⟩ := pair
    rw [LiveNet.pushPairs]
    split
    · exact refl tree
    · rename_i net hnet
      have hpush := Net.Follows.pushColors m flat source.place colors net
      obtain ⟨owner, howner, rfl⟩ := Option.map_eq_some_iff.1 hnet
      have hset : ∀ after, owner.net.Follows after → tree.Follows (tree.setNet source.node after) := by
        intro after hafter
        refine modifyNode fun node hnode => ?_
        -- the net is read and written under one id
        cases howner.symm.trans hnode
        exact ⟨rfl, hafter⟩
      split
      -- what was written before a refusal stays written
      · rename_i heq
        rw [heq] at hpush
        exact hset _ hpush
      · rename_i heq
        rw [heq] at hpush
        exact (hset _ hpush).trans (ih _)

end Follows

end IncludeTree

/-! ## Runs of changes -/

/-- A request to change a tree: a command, an edit of the net of a node, the tokens of a live net, or how far
interface places reach. -/
inductive TreeChange where
  | perform (command : TreeCommand)
  | edit (node : NodeId) (edit : NetEdit)
  | push (live : LiveNet)
  | reach (scope : Scope)

namespace IncludeTree

variable {tree after : IncludeTree}

/-- The tree after a change, whether it was refused or not. -/
def changed (tree : IncludeTree) : TreeChange → IncludeTree
  | .perform command => (tree.perform command).1
  | .edit id edit => tree.modifyNode id fun node => { node with net := node.net.edited edit }
  | .push live => (live.push tree).1
  | .reach scope => tree.withAccessScope scope

/-- The tree after several changes. -/
def changedAll (tree : IncludeTree) (changes : List TreeChange) : IncludeTree := changes.foldl changed tree

namespace Follows

theorem changed (tree : IncludeTree) (change : TreeChange) : tree.Follows (tree.changed change) := by
  cases change with
  | perform command => exact perform tree command
  | edit id edit => exact modifyNode fun node _ => ⟨rfl, .edited node.net edit⟩
  | push live => exact pushPairs live.marking live.net.colors.names _ tree
  | reach scope => exact ⟨Nat.le_refl _, fun _ => { Keeps.refl tree with }⟩

/-- What a tree keeps as long as its revision stays, whatever is done to it. -/
theorem changedAll (tree : IncludeTree) (changes : List TreeChange) : tree.Follows (tree.changedAll changes) := by
  unfold IncludeTree.changedAll
  -- the tree that the induction starts from changes with every step
  induction changes generalizing tree with
  | nil => exact refl tree
  | cons change rest ih => exact (changed tree change).trans (ih _)

end Follows

/-! ## Up to date -/

namespace Keeps

/-- The walk tells the revision of the net of every node in it, so that these nodes have their outlines. -/
theorem outline_node? (h : tree.Keeps after) (hnets : (Revisions.ofTree after).nets = (Revisions.ofTree tree).nets)
    {id : NodeId} (hid : id ∈ tree.subtree tree.root) : after.outline.node? id = tree.outline.node? id := by
  rw [node?_outline, node?_outline]
  cases hnode : tree.node? id with
  | none => rw [h.missing id hnode]
  | some node =>
    obtain ⟨node', hnode', hfollows⟩ := h.nodes id node hnode
    have hmem : (id, node.net.revision) ∈ (Revisions.ofTree tree).nets :=
      List.mem_map.2 ⟨(id, node), mem_walk.2 ⟨hid, hnode⟩, rfl⟩
    -- the later walk tells the same revision of the same node
    rw [← hnets] at hmem
    obtain ⟨⟨id', found⟩, hfound, heq⟩ := List.mem_map.1 hmem
    obtain ⟨rfl, hrevision⟩ := Prod.ext_iff.1 heq
    cases (node?_of_mem_walk hfound).symm.trans hnode'
    rw [hnode', Option.map_some, Option.map_some, hfollows.outline hrevision]

theorem walk_outline (h : tree.Keeps after)
    (hnets : (Revisions.ofTree after).nets = (Revisions.ofTree tree).nets) :
    after.outline.walk = tree.outline.walk := by
  have hafter : after.outline.subtree after.outline.root = tree.subtree tree.root := by
    rw [(sameShape_outline after).subtree, h.shape.subtree, (sameShape_outline after).root, h.root]
  have htree : tree.outline.subtree tree.outline.root = tree.subtree tree.root := by
    rw [(sameShape_outline tree).subtree, (sameShape_outline tree).root]
  rw [walk, walk, hafter, htree]
  refine List.filterMap_congr fun id hid => ?_
  rw [h.outline_node? hnets hid]

/-- Trees whose revisions are all the same agree in what joining looks at, up to tokens. -/
theorem agrees (h : tree.Keeps after) (hnets : (Revisions.ofTree after).nets = (Revisions.ofTree tree).nets) :
    tree.outline.Agrees after.outline where
  walk := h.walk_outline hnets
  paths id := by
    rw [node?_outline, node?_outline, Option.map_map, Option.map_map]
    exact h.map_eq (fun _ _ hfollows => hfollows.path) id
  name := by
    rw [net?, net?, node?_outline, node?_outline, (sameShape_outline after).root, (sameShape_outline tree).root,
      h.root]
    simp only [Option.map_map]
    exact h.map_eq (fun _ _ hfollows => hfollows.net.name) tree.root

end Keeps

end IncludeTree

namespace LiveNet

/-- A live net remembers the revisions of the tree it was made from. -/
theorem revisions_of_ofTree {registry : Registry} {instanceId : Nat} {tree : IncludeTree} {live : LiveNet}
    (h : (LiveNet.ofTree registry instanceId tree).2 = .ok live) : live.revisions = Revisions.ofTree tree := by
  unfold LiveNet.ofTree at h
  split at h
  · cases h
  · split at h
    · cases h
    · dsimp only at h
      split at h
      · cases h
      · rename_i started hstarted
        cases h
        rw [resetTiming, bind_eq_ok] at hstarted
        obtain ⟨timed, _, hlive⟩ := hstarted
        cases hlive
        rfl

theorem revisions_of_needsRefresh {live : LiveNet} {tree : IncludeTree} (h : live.needsRefresh tree = false) :
    live.revisions = Revisions.ofTree tree := by
  simp only [needsRefresh, Bool.or_eq_false_iff, bne_eq_false_iff_eq] at h
  exact h.2

/-- A live net that is up to date is what joining anew would make, but for tokens: it has the same components in
the same order, the same expressions and the same bindings. This holds whatever was done to the tree since it
was made, and whatever the live net has done, as long as it was not made anew. -/
theorem outline_eq_of_needsRefresh {registry registry' : Registry} {instanceId instanceId' : Nat}
    {tree : IncludeTree} {changes : List TreeChange} {built later fresh : LiveNet}
    (hbuilt : (LiveNet.ofTree registry instanceId tree).2 = .ok built) (hlater : later.revisions = built.revisions)
    (hcurrent : later.needsRefresh (tree.changedAll changes) = false)
    (hfresh : (LiveNet.ofTree registry' instanceId' (tree.changedAll changes)).2 = .ok fresh) :
    fresh.net.outline = built.net.outline := by
  have hrevisions : Revisions.ofTree (tree.changedAll changes) = Revisions.ofTree tree := by
    rw [← revisions_of_needsRefresh hcurrent, hlater, revisions_of_ofTree hbuilt]
  -- the tree has the revision of before, so its nodes are those of before
  have hkeeps := (IncludeTree.Follows.changedAll tree changes).keeps (congrArg Revisions.tree hrevisions)
  have hagrees := hkeeps.agrees (congrArg Revisions.nets hrevisions)
  exact FlatNet.outline_of_agrees hagrees (net_of_ofTree hbuilt) (net_of_ofTree hfresh)

/-- The only transition empties a place of the root, next to a node with a place of its own. -/
def emptying : IncludeTree :=
  Sample.pair [Sample.place "P" 1, Sample.transition "T" Rate.one, Sample.arc "in" "P" "T" .placeToTransition "1"]
    [Sample.place "Q" 0] "a"

/-- Tokens are set, a command and an edit are refused, and the marking of a live net is pushed. -/
def refillings (live : LiveNet) : List TreeChange :=
  [.edit IncludeTree.rootId (.setTokens "P" defaultColor (Count.ofNat 3)), .perform (.withdraw ⟨1⟩ "Q"),
    .edit ⟨1⟩ (.removeArc "in"), .push live]

/-- The live net has fired, and the tree has its tokens. Joining anew finds the place empty and all else as it
was. -/
theorem outline_eq_of_needsRefresh_emptying : ∃ built later fresh : LiveNet,
    (LiveNet.ofTree Registry.empty 0 emptying).2 = .ok built ∧ later.revisions = built.revisions ∧
      later.needsRefresh (emptying.changedAll (refillings later)) = false ∧
      (LiveNet.ofTree Registry.empty 1 (emptying.changedAll (refillings later))).2 = .ok fresh ∧
      built.marking.tokens "P" defaultColor = Count.ofNat 1 ∧
      fresh.marking.tokens "P" defaultColor = Count.zero ∧ fresh.net.outline = built.net.outline := by
  have hrun : (LiveNet.ofTree Registry.empty 0 emptying).2.map (fun built =>
      decide (built.marking.tokens "P" defaultColor = Count.ofNat 1) &&
        (built.net.fire built.marking "T").toOption.any fun m =>
          let later := { built with marking := m }
          decide (later.needsRefresh (emptying.changedAll (refillings later)) = false) &&
            (LiveNet.ofTree Registry.empty 1 (emptying.changedAll (refillings later))).2.toOption.any fun fresh =>
              decide (fresh.marking.tokens "P" defaultColor = Count.zero)) = .ok true := by
    decide +kernel
  obtain ⟨built, hbuilt, houtcome⟩ := map_eq_ok.1 hrun
  simp only [Bool.and_eq_true, decide_eq_true_eq, Option.any_eq_true, toOption_eq_some] at houtcome
  obtain ⟨hone, m, _, hcurrent, fresh, hfresh, hnone⟩ := houtcome
  exact ⟨built, { built with marking := m }, fresh, hbuilt, rfl, hcurrent, hfresh, hone, hnone,
    outline_eq_of_needsRefresh hbuilt rfl hcurrent hfresh⟩

end LiveNet

end PetriTree
