import PetriTree.Proofs.Newcomer

/-!
# PetriTree — how short names are

A node is called by the first candidate that none of its ancestors and siblings is called by, at the time the name is
looked for. It is looked for when the node is attached, and again when the node or one above it is given another alias.
In between a shorter name may become free near the node, which goes on with its own.

It is a sibling that lets a name go in this way: one that is detached, one that is given another alias, and one that
waits for its turn when the names of a subtree are recomputed. Such a sibling still has its old name when those before
it look for theirs, and they keep clear of a name that is free as soon as the turn has come to it. An ancestor is never
the reason. With its name all names below it are recomputed, and from above.

Main results:
* `IncludeTree.Short` — names are the first ones that are free, but for names that got lost near a node;
* `Short.resolveNames`, `Short.resolveSubtree` — a turn, and all of them;
* `Short.perform`, `Short.performAll` — what a command adds to the names that got lost, and what a run does;
* `names_shortest` — over a run, a shorter name that is free was let go by a sibling, since the last turn of the node;
* `stale_name` — a node that has just got its name, while a shorter one is free.
-/

namespace PetriTree.IncludeTree

variable {tree after : IncludeTree} {id other : NodeId} {node : TreeNode} {made pending : List NodeId}
  {lost lost' : NodeId → String → Prop} {name : String}

/-! ## Names near a node -/

def name? (tree : IncludeTree) (id : NodeId) : Option String := (tree.node? id).map TreeNode.name

theorem name?_eq (h : tree.node? id = some node) : tree.name? id = some node.name := by
  rw [name?, h, Option.map_some]

theorem isSome_of_name? (h : tree.name? id = some name) : (tree.node? id).isSome := by
  obtain ⟨node, hnode, _⟩ := Option.map_eq_some_iff.1 h
  rw [hnode]
  rfl

/-- An ancestor or a sibling of the node has the name. -/
def Taken (tree : IncludeTree) (id : NodeId) (name : String) : Prop :=
  ∃ other, tree.Near id other ∧ tree.name? other = some name

theorem taken_iff : tree.Taken id name ↔ name ∈ tree.namesOf (tree.ancestors id ++ tree.siblings id) := by
  simp only [Taken, Near, namesOf, List.mem_filterMap, List.mem_append]
  rfl

instance (tree : IncludeTree) (id : NodeId) (name : String) : Decidable (tree.Taken id name) :=
  decidable_of_iff _ taken_iff.symm

/-- Names that are looked at in a turn are those near the node. -/
theorem taken_of_mem_takenNames (h : name ∈ tree.takenNames id) : tree.Taken id name := by
  rw [taken_iff, namesOf, List.filterMap_append]
  refine List.mem_append.2 ((List.mem_append.1 h).imp_right fun hmem => ?_)
  exact (List.mem_filter.1 hmem).1

/-- From one tree to the other a sibling of the node has let go of a name, or is gone with it. -/
def LetGo (tree after : IncludeTree) (id : NodeId) (name : String) : Prop :=
  ∃ other ∈ tree.siblings id, tree.name? other = some name ∧ after.name? other ≠ some name

theorem not_letGo (h : ∀ other, (tree.node? other).isSome → after.name? other = tree.name? other) :
    ¬ LetGo tree after id name := by
  rintro ⟨other, _, hhad, hlet⟩
  rw [h other (isSome_of_name? hhad)] at hlet
  exact hlet hhad

namespace Continues

/-- Nodes that are still there are as near as they were. -/
theorem near_after (h : Continues made tree after) (hung : tree.Hung) (hung' : after.Hung)
    (hlive : (after.node? id).isSome) (hother : (after.node? other).isSome) (hid : id ∉ made)
    (hnear : tree.Near id other) : after.Near id other := by
  refine hnear.imp (fun hmem => (h.ancestors_eq hung hung' id hlive hid).symm ▸ hmem) fun hmem => ?_
  obtain ⟨above, hparent⟩ := hung.exists_parent_of_near (Or.inr hmem)
  obtain ⟨hsibling, hne⟩ := (hung.mem_siblings_iff hparent).1 hmem
  obtain ⟨_, hsame⟩ := (h.kept id hlive).resolve_left hid
  obtain ⟨_, hsame'⟩ := (h.kept other hother).resolve_left (h.notMem_of_isSome (isSome_of_parent? hsibling))
  exact (hung'.mem_siblings_iff (hsame.trans hparent)).2 ⟨hsame'.trans hsibling, hne⟩

end Continues

/-- Who has the same parents has the same siblings. -/
theorem Hung.mem_siblings_congr (h : tree.Hung) (h' : after.Hung)
    (hparent : ∀ n, after.parent? n = tree.parent? n) : other ∈ after.siblings id ↔ other ∈ tree.siblings id := by
  cases habove : tree.parent? id with
  | none => rw [siblings_of_none habove, siblings_of_none ((hparent id).trans habove)]
  | some above =>
    rw [h.mem_siblings_iff habove, h'.mem_siblings_iff ((hparent id).trans habove), hparent]

/-! ## Short names -/

/-- A node is called by the first candidate that is not taken near it, where names that got lost near it count as taken.
The root is called by its alias, and the nodes that wait for their turn are left out. -/
def Short (lost : NodeId → String → Prop) (pending : List NodeId) (tree : IncludeTree) : Prop :=
  ∀ id node, tree.node? id = some node → id ≠ tree.root → id ∉ pending → ∃ k, node.name = numbered node.localName k ∧
    ∀ j < k, tree.Taken id (numbered node.localName j) ∨ lost id (numbered node.localName j)

namespace Short

/-- Only names that a node can have matter. -/
theorem mono (h : tree.Short lost pending) (hung : tree.Hung)
    (hsub : ∀ id name, id ∉ pending → name ≠ "" → lost id name → lost' id name) : tree.Short lost' pending := by
  intro id node hnode hroot hid
  obtain ⟨above, hparent⟩ := hung.exists_parent (Option.isSome_of_eq_some hnode) hroot
  have halias := hung.aliased id above _ hparent (alias?_eq hnode)
  obtain ⟨k, hk, hpassed⟩ := h id node hnode hroot hid
  refine ⟨k, hk, fun j hj => (hpassed j hj).imp_right fun hlost => ?_⟩
  exact hsub id _ hid (isAlias_iff.1 (isAlias_numbered halias j)).1 hlost

/-- Names stay short where nodes keep names and aliases, but for the names that siblings let go. -/
theorem carry (h : tree.Short lost []) (hung : tree.Hung) (hung' : after.Hung) (hcontinues : Continues made tree after)
    (hmade : ∀ id ∈ made, id ∈ pending)
    (hnames : ∀ id, id ∉ made → (after.node? id).isSome → after.name? id = tree.name? id)
    (haliases : ∀ id, id ∉ pending → (after.node? id).isSome → after.alias? id = tree.alias? id) :
    after.Short (fun id name => lost id name ∨ LetGo tree after id name) pending := by
  intro id node' hnode' hroot hid
  have hlive := Option.isSome_of_eq_some hnode'
  have hold : id ∉ made := fun hmem => hid (hmade id hmem)
  obtain ⟨hbefore, _⟩ := (hcontinues.kept id hlive).resolve_left hold
  obtain ⟨node, hnode⟩ := Option.isSome_iff_exists.1 hbefore
  have hname : node'.name = node.name := by
    have hsame := hnames id hold hlive
    rw [name?_eq hnode', name?_eq hnode] at hsame
    exact Option.some.inj hsame
  have halias : node'.localName = node.localName := by
    have hsame := haliases id hid hlive
    rw [alias?_eq hnode', alias?_eq hnode] at hsame
    exact Option.some.inj hsame
  obtain ⟨k, hk, hpassed⟩ := h id node hnode (hcontinues.root ▸ hroot) List.not_mem_nil
  rw [hname, halias]
  refine ⟨k, hk, fun j hj => ?_⟩
  rcases hpassed j hj with ⟨other, hnear, hother⟩ | hlost
  · by_cases hstill : after.name? other = some (numbered node.localName j)
    · exact Or.inl ⟨other, hcontinues.near_after hung hung' hlive (isSome_of_name? hstill) hold hnear, hstill⟩
    · refine Or.inr (Or.inr ⟨other, hnear.resolve_left fun hmem => hstill ?_, hother, hstill⟩)
      -- an ancestor is still there, under the name it had
      have hmem' := (hcontinues.ancestors_eq hung hung' id hlive hold).symm ▸ hmem
      have hthere := (hung'.ascends id).live hung' hmem'
      exact (hnames other (hcontinues.notMem_of_isSome (isSome_of_name? hother)) hthere).trans hother
  · exact Or.inr (Or.inl hlost)

/-! ## A turn -/

/-- A node whose turn it is gets the first candidate that is not taken near it. -/
theorem first_of_resolveNames (hung : tree.Hung) (hroot : id ≠ tree.root)
    (hnode : (tree.resolveNames id).node? id = some node) : ∃ k, node.name = numbered node.localName k ∧
      ∀ j < k, tree.Taken id (numbered node.localName j) := by
  obtain ⟨old, hold, _⟩ := (seat_resolveNames tree id).symm.exists_after hnode
  obtain ⟨above, habove⟩ := hung.exists_parent (Option.isSome_of_eq_some hold) hroot
  obtain ⟨owner, howner⟩ := Option.isSome_iff_exists.1 (hung.live_above habove)
  rw [parent?_eq hold] at habove
  simp only [IncludeTree.resolveNames, hold, habove, howner] at hnode
  rw [node?_modifyNode, if_pos rfl, hold] at hnode
  cases hnode
  obtain ⟨k, hk, hfirst⟩ := exists_freeName_first old.localName (tree.takenNames id)
  exact ⟨k, hk, fun j hj => taken_of_mem_takenNames (hfirst j hj)⟩

theorem name?_resolveNames (hne : other ≠ id) : (tree.resolveNames id).name? other = tree.name? other := by
  rw [name?, node?_resolveNames hne, name?]

/-- After its turn a node has a short name. That of a node before it may be longer than it need be now, if the turn was
that of a sibling. -/
theorem resolveNames (h : tree.Short lost (id :: pending)) (hung : tree.Hung)
    (hbelow : ∀ below, (tree.node? below).isSome → id ∈ tree.ancestors below → below ∈ pending) :
    (tree.resolveNames id).Short (fun n name => lost n name ∨
      (id ∈ tree.siblings n ∧ tree.name? id = some name ∧ (tree.resolveNames id).name? id ≠ some name)) pending := by
  have hview := seat_resolveNames tree id
  have hung' := hung.keeps hview
  have hnearAfter : ∀ n other name, ((tree.resolveNames id).node? n).isSome → tree.Near n other →
      (tree.resolveNames id).name? other = some name → (tree.resolveNames id).Taken n name :=
    fun n other name hlive hnear hname => ⟨other, hview.continues.near_after hung hung' hlive (isSome_of_name? hname)
      List.not_mem_nil hnear, hname⟩
  intro n node hnode hroot hn
  have hlive := Option.isSome_of_eq_some hnode
  by_cases hself : n = id
  · subst hself
    obtain ⟨k, hk, hfirst⟩ := first_of_resolveNames hung (hview.root ▸ hroot) hnode
    refine ⟨k, hk, fun j hj => Or.inl ?_⟩
    obtain ⟨other, hnear, hother⟩ := hfirst j hj
    have hne : other ≠ n := by
      rintro rfl
      exact hung.not_near_self hnear
    exact hnearAfter n other _ hlive hnear ((name?_resolveNames hne).trans hother)
  · have hold : tree.node? n = some node := (node?_resolveNames hself).symm.trans hnode
    obtain ⟨k, hk, hpassed⟩ := h n node hold (hview.root ▸ hroot) fun hmem => (List.mem_cons.1 hmem).elim hself hn
    refine ⟨k, hk, fun j hj => ?_⟩
    rcases hpassed j hj with ⟨other, hnear, hother⟩ | hlost
    · by_cases hturn : other = id
      · subst hturn
        by_cases hstill : (tree.resolveNames other).name? other = some (numbered node.localName j)
        · exact Or.inl (hnearAfter n other _ hlive hnear hstill)
        -- nothing that is settled stands below the node, so it was a sibling
        · have hsibling := hnear.resolve_left fun hmem => hn (hbelow n (Option.isSome_of_eq_some hold) hmem)
          exact Or.inr (Or.inr ⟨hsibling, hother, hstill⟩)
      · exact Or.inl (hnearAfter n other _ hlive hnear ((name?_resolveNames hturn).trans hother))
    · exact Or.inr (Or.inl hlost)

/-! ## All turns -/

theorem name?_foldl_resolveNames {ids : List NodeId} (hid : id ∉ ids) :
    (ids.foldl IncludeTree.resolveNames tree).name? id = tree.name? id := by
  induction ids generalizing tree with
  | nil => rfl
  | cons first rest ih =>
    rw [List.mem_cons, not_or] at hid
    exact (ih hid.2).trans (name?_resolveNames hid.1)

/-- When all have had their turn, each of them once and parents first, a name is longer than it need be only if a sibling
let a shorter one go over the turns. -/
theorem resolveAll {ids : List NodeId} (h : tree.Short lost ids) (hung : tree.Hung) (hfirst : tree.ParentsFirst ids)
    (hnodup : ids.Nodup) : (ids.foldl IncludeTree.resolveNames tree).Short
      (fun n name => lost n name ∨ LetGo tree (ids.foldl IncludeTree.resolveNames tree) n name) [] := by
  induction ids generalizing tree lost with
  | nil => exact h.mono hung fun _ _ _ _ hlost => Or.inl hlost
  | cons id rest ih =>
    obtain ⟨hid, hrest⟩ := List.nodup_cons.1 hnodup
    have hview := seat_resolveNames tree id
    have hung' := hung.keeps hview
    have hturn := h.resolveNames hung (Named.mem_of_parentsFirst hung hfirst)
    have hturns := ih hturn hung' (hfirst.2.resolveNames id) hrest
    have hlast : (rest.foldl IncludeTree.resolveNames (tree.resolveNames id)).name? id =
        (tree.resolveNames id).name? id := name?_foldl_resolveNames hid
    refine hturns.mono (hung'.keeps (seat_foldl_resolveNames ..)) ?_
    rintro n name - - ((hlost | ⟨hmem, hhad, hlet⟩) | ⟨other, hmem, hhad, hlet⟩)
    · exact Or.inl hlost
    · exact Or.inr ⟨id, hmem, hhad, hlast ▸ hlet⟩
    -- the node has its name for good, so it was another one that let go
    · have hne : other ≠ id := by
        rintro rfl
        exact hlet (hlast.trans hhad)
      rw [name?_resolveNames hne] at hhad
      exact Or.inr ⟨other, (hung.mem_siblings_congr hung' hview.parent?_eq).1 hmem, hhad, hlet⟩

/-! ## Commands -/

/-- Nets and maps have no say in names. -/
theorem sameView (h : tree.Short lost []) (hung : tree.Hung) (hview : tree.SameView TreeNode.frame after) :
    after.Short lost [] := by
  have hung' := hung.keeps hview.seat
  have hnames : ∀ id, after.name? id = tree.name? id := (hview.map TreeNode.name).nodes
  have hcarried := h.carry hung hung' hview.seat.continues (fun _ hmem => hmem) (fun id _ _ => hnames id)
    fun id _ _ => hview.seat.alias?_eq id
  exact hcarried.mono hung' fun _ _ _ _ hcase => hcase.resolve_right (not_letGo fun other _ => hnames other)

/-- A new node gets a name that is short, and everybody else keeps theirs. -/
theorem attach (h : tree.Short lost []) (hung : tree.Hung) {parent : NodeId} {net : Net}
    (hcommand : tree.attach parent net name = .ok (id, after)) : after.Short lost [] := by
  obtain ⟨owner, howner, halias, hfree, rfl, rfl⟩ := attach_eq_ok hcommand
  have hgrown := hung.grow_attached net howner halias hfree
  generalize hnew : (⟨name, "", "", "", some parent, Table.empty, net, Table.empty⟩ : TreeNode) = new at hgrown ⊢
  have hkept : ∀ other, other ≠ tree.nodes.nextId →
      (tree.grow parent name new).name? other = tree.name? other ∧
        (tree.grow parent name new).alias? other = tree.alias? other := by
    intro other hne
    rw [alias?_grow howner, if_neg hne, name?, node?_grow_eq howner, if_neg hne, name?]
    refine ⟨?_, rfl⟩
    split
    · rename_i heq
      rw [heq, howner]
      rfl
    · rfl
  have hcarried := h.carry hung hgrown (continues_grow howner) (fun _ hmem => hmem)
    (fun other hother _ => (hkept other (by simpa using hother)).1)
    fun other hother _ => (hkept other (by simpa using hother)).2
  have hturn := hcarried.resolveNames hgrown fun below hlive hmem =>
    (hgrown.nextId_notMem_ancestors hlive hmem).elim
  have hung' := hgrown.keeps (seat_resolveNames (tree.grow parent name new) tree.nodes.nextId)
  have hshort : ((tree.grow parent name new).resolveNames tree.nodes.nextId).Short lost [] := by
    refine hturn.mono hung' ?_
    rintro n c - hc ((hlost | hlet) | ⟨_, hhad, _⟩)
    · exact hlost
    · refine (not_letGo (fun other hother => (hkept other ?_).1) hlet).elim
      rintro rfl
      rw [node?_nextId] at hother
      cases hother
    -- before its turn the new node was not called anything
    · rw [name?, node?_grow_eq howner, if_pos rfl, ← hnew] at hhad
      exact absurd (Option.some.inj hhad).symm hc
  refine hshort.sameView hung' ?_
  exact ((remaps_seedAvailable ..).frame.trans (remaps_registerHomes ..).frame).trans (sameView_touch ..)

/-- Names that go with a subtree are let go by the node at its top. -/
theorem detach (h : tree.Short lost []) (hung : tree.Hung) (parent : NodeId) (name : String) :
    (tree.detach parent name).1.Short
      (fun n c => lost n c ∨ LetGo tree (tree.detach parent name).1 n c) [] := by
  rcases detach_cases tree parent name with ⟨_, heq⟩ | ⟨node, id, hdetaches, heq⟩
  · rw [heq]
    exact h.mono hung fun _ _ _ _ hlost => Or.inl hlost
  · rw [heq]
    have hpruned := hung.prune ((child?_eq hdetaches.live name).trans hdetaches.child)
    have hkept : ∀ other, ((tree.prune parent name (tree.subtree id)).node? other).isSome →
        (tree.prune parent name (tree.subtree id)).name? other = tree.name? other ∧
          (tree.prune parent name (tree.subtree id)).alias? other = tree.alias? other := by
      intro other hlive
      rw [node?_prune] at hlive
      rw [name?, alias?, node?_prune, name?, alias?]
      split at hlive
      · cases hlive
      · rename_i hstays
        rw [if_neg hstays, Option.map_map, Option.map_map]
        exact ⟨rfl, rfl⟩
    have hcarried := h.carry hung hpruned (continues_prune ..) (fun _ hmem => hmem)
      (fun other _ hlive => (hkept other hlive).1) fun other _ hlive => (hkept other hlive).2
    exact hcarried.sameView hpruned (sameView_touch ..)

/-- The names of a subtree are looked for again, and outside of it nothing happens but that a sibling of the node at its
top may see a name let go. -/
theorem rename (h : tree.Short lost []) (hung : tree.Hung) (hcommand : tree.rename id name = .ok after) :
    after.Short (fun n c => (lost n c ∧ n ∉ tree.subtree id) ∨ LetGo tree after n c) [] := by
  obtain ⟨node, hnode, halias, hfree, rfl⟩ := rename_eq_realiased hcommand
  have hrealiased := hung.realiased hnode halias hfree
  have hnames : ∀ other, (tree.realiased id node.parent node.localName name).name? other = tree.name? other := by
    intro other
    rw [name?, node?_realiased, Option.map_map]
    rfl
  have haliases : ∀ other, other ∉ tree.subtree id →
      (tree.realiased id node.parent node.localName name).alias? other = tree.alias? other := by
    intro other hother
    rw [alias?_realiased hnode, if_neg]
    rintro rfl
    exact hother (mem_subtree_self (Option.isSome_of_eq_some hnode))
  -- the names are as before at first, but those of the subtree are not counted on
  have hcarried := h.carry hung hrealiased (continues_realiased ..) (fun _ hmem => (by cases hmem))
    (fun other _ _ => hnames other) fun other hother _ => haliases other hother
  have hstart : (tree.realiased id node.parent node.localName name).Short
      (fun n c => lost n c ∧ n ∉ tree.subtree id) (tree.subtree id) :=
    hcarried.mono hrealiased fun n c hn _ hcase =>
      ⟨hcase.resolve_right (not_letGo fun other _ => hnames other), hn⟩
  have hsubtree := (sameShape_realiased tree id node.parent node.localName name).subtree id
  rw [← hsubtree] at hstart
  have hturns := hstart.resolveAll hrealiased (hrealiased.younger.parentsFirst_subtree id) (hrealiased.nodup_subtree id)
  have hafter := hrealiased.keeps (seat_resolveSubtree (tree.realiased id node.parent node.localName name) id)
  refine (hturns.sameView hafter (sameView_touch ..)).mono (hafter.keeps (sameView_touch ..)) ?_
  rintro n c - - (hlost | ⟨other, hmem, hhad, hlet⟩)
  · exact Or.inl (hsubtree ▸ hlost)
  · have hsibling := (hung.mem_siblings_congr hrealiased (parent?_realiased tree id _ _ _)).1 hmem
    exact Or.inr ⟨other, hsibling, (hnames other).symm.trans hhad, hlet⟩

end Short

/-! ## Runs -/

/-- The command makes the names of the node be looked for again: it is accepted, and gives the node or one above it
another alias. -/
def Renews (tree : IncludeTree) (command : TreeCommand) (id : NodeId) : Prop :=
  ∃ top name after, command = .rename top name ∧ tree.rename top name = .ok after ∧ id ∈ tree.subtree top

theorem not_renews {command : TreeCommand} (h : ∀ top name, command ≠ .rename top name) : ¬ tree.Renews command id := by
  rintro ⟨top, name, _, heq, _⟩
  exact h top name heq

/-- None of the commands makes the names of the node be looked for again. -/
def Rests (tree : IncludeTree) (id : NodeId) : List TreeCommand → Prop
  | [] => True
  | command :: rest => ¬ tree.Renews command id ∧ (tree.perform command).1.Rests id rest

/-- Over the commands a sibling of the node lets go of the name, and that node's names are not looked for again after
this. -/
inductive GivenUp (id : NodeId) (name : String) : IncludeTree → List TreeCommand → Prop
  | now {tree : IncludeTree} {command : TreeCommand} {rest : List TreeCommand} :
      LetGo tree (tree.perform command).1 id name → (tree.perform command).1.Rests id rest →
        GivenUp id name tree (command :: rest)
  | later {tree : IncludeTree} {command : TreeCommand} {rest : List TreeCommand} :
      GivenUp id name (tree.perform command).1 rest → GivenUp id name tree (command :: rest)

namespace Short

/-- A command that does not let the names of any node be looked for again takes nothing back. -/
theorem unrenewed (h : after.Short lost []) (hung' : after.Hung) {command : TreeCommand}
    (hnone : ∀ n, ¬ tree.Renews command n) :
    after.Short (fun n c => (lost n c ∧ ¬ tree.Renews command n) ∨ LetGo tree after n c) [] :=
  h.mono hung' fun n _ _ _ hlost => Or.inl ⟨hlost, hnone n⟩

theorem perform (h : tree.Short lost []) (hung : tree.Hung) (command : TreeCommand) :
    (tree.perform command).1.Short
      (fun n c => (lost n c ∧ ¬ tree.Renews command n) ∨ LetGo tree (tree.perform command).1 n c) [] := by
  have hung' := hung.perform command
  by_cases hreshapes : command.Reshapes
  · cases command with
    | attach parent net name =>
      have hattached : (tree.perform (.attach parent net name)).1.Short lost [] :=
        settled_keeps h fun _ _ hcommand => h.attach hung hcommand
      exact hattached.unrenewed hung' fun n => not_renews nofun
    | detach parent name =>
      refine (h.detach hung parent name).mono hung' ?_
      rintro n c - - (hlost | hlet)
      · exact Or.inl ⟨hlost, not_renews nofun⟩
      · exact Or.inr hlet
    | rename id name =>
      cases hcommand : tree.rename id name with
      | error report =>
        have hsame : (tree.perform (.rename id name)).1 = tree := by
          show (tree.settledDone (tree.rename id name)).1 = tree
          rw [hcommand]
          rfl
        rw [hsame]
        refine h.unrenewed hung fun n => ?_
        rintro ⟨_, _, _, heq, hrename, _⟩
        cases heq
        rw [hcommand] at hrename
        cases hrename
      | ok after =>
        have hsame : (tree.perform (.rename id name)).1 = after := by
          show (tree.settledDone (tree.rename id name)).1 = after
          rw [hcommand]
          rfl
        rw [hsame] at hung' ⊢
        refine (h.rename hung hcommand).mono hung' ?_
        rintro n c - - (⟨hlost, hout⟩ | hlet)
        · refine Or.inl ⟨hlost, ?_⟩
          rintro ⟨_, _, _, heq, _, hmem⟩
          cases heq
          exact hout hmem
        · exact Or.inr hlet
    | _ => exact hreshapes.elim
  · refine (h.sameView hung (frame_perform hreshapes)).unrenewed hung' fun n => not_renews ?_
    rintro top name rfl
    exact hreshapes trivial

/-- Over a run, what was lost before stays lost as long as a node rests. -/
theorem performAll (h : tree.Short lost []) (hung : tree.Hung) (commands : List TreeCommand) :
    (tree.performAll commands).Short
      (fun n c => (lost n c ∧ tree.Rests n commands) ∨ GivenUp n c tree commands) [] := by
  induction commands generalizing tree lost with
  | nil => exact h.mono hung fun _ _ _ _ hlost => Or.inl ⟨hlost, trivial⟩
  | cons command rest ih =>
    have hrun := ih (h.perform hung command) (hung.perform command)
    refine hrun.mono ((hung.perform command).performAll rest) ?_
    rintro n c - - (⟨⟨hlost, hkeeps⟩ | hlet, hrests⟩ | hgiven)
    · exact Or.inl ⟨hlost, hkeeps, hrests⟩
    · exact Or.inr (.now hlet hrests)
    · exact Or.inr (.later hgiven)

end Short

/-- A node below the root has a name that no ancestor and no sibling has, made from its alias. Each candidate before it
is the name of an ancestor or a sibling, unless a sibling has let go of it since the last time the names of the node
were looked for. -/
theorem names_shortest (net : Net) (name : String) (scope : Scope) (commands : List TreeCommand) :
    let start := (IncludeTree.new net name).withAccessScope scope
    let tree := start.performAll commands
    ∀ id node, tree.node? id = some node → id ≠ tree.root → ∃ k, node.name = numbered node.localName k ∧
      ¬ tree.Taken id node.name ∧
      ∀ j < k, tree.Taken id (numbered node.localName j) ∨ GivenUp id (numbered node.localName j) start commands := by
  intro start tree id node hnode hne
  have harises : start.Arises := (Arises.new net name).withAccessScope scope
  -- the tree of a single net has no node below the root
  have hshort : start.Short (fun _ _ => False) [] := by
    intro id node hnode hne _
    have honly : id = rootId := eq_root_of_new (Option.isSome_of_eq_some hnode)
    exact (hne (honly.trans (root_new net name).symm)).elim
  obtain ⟨k, hk, hpassed⟩ := hshort.performAll harises.hung commands id node hnode hne List.not_mem_nil
  refine ⟨k, hk, ?_, fun j hj => (hpassed j hj).imp_right fun hcase => hcase.resolve_left fun hlost => hlost.1⟩
  rintro ⟨other, hnear, hother⟩
  obtain ⟨found, hfound, hname⟩ := Option.map_eq_some_iff.1 hother
  have hnamed := (harises.performAll commands).named
  exact hnamed.apart id node other found hnode hfound hnear List.not_mem_nil List.not_mem_nil hname.symm

/-! ## A name that stays long -/

/-- The name of the root makes one node take a number, and this makes another one take a second number, before the root
is given another alias. -/
def renamings : List TreeCommand :=
  [.attach rootId (Net.new "first") "z", .attach rootId (Net.new "second") "b", .rename ⟨1⟩ "b1", .rename rootId "r"]

/-- The tree after this. -/
def stale : IncludeTree := ((IncludeTree.new (Net.new "net") "b").withAccessScope Scope.standard).performAll renamings

theorem named_stale : ∃ node, stale.node? ⟨1⟩ = some node ∧ node.localName = "b1" ∧ node.name = "b11" ∧
    ¬ stale.Taken ⟨1⟩ "b1" := by
  have hrun : (stale.node? ⟨1⟩).map (fun node => (node.localName, node.name)) = some ("b1", "b11") ∧
      ¬ stale.Taken ⟨1⟩ "b1" := by decide +kernel
  obtain ⟨node, hnode, hnames⟩ := Option.map_eq_some_iff.1 hrun.1
  obtain ⟨halias, hname⟩ := Prod.mk.inj hnames
  exact ⟨node, hnode, halias, hname, hrun.2⟩

/-- The alias that one node is not called by was let go by its sibling, when the names of both were looked for. -/
theorem names_shortest_stale :
    GivenUp ⟨1⟩ "b1" ((IncludeTree.new (Net.new "net") "b").withAccessScope Scope.standard) renamings := by
  obtain ⟨node, hnode, halias, hname, hfree⟩ := named_stale
  obtain ⟨k, hk, _, hpassed⟩ := names_shortest (Net.new "net") "b" Scope.standard renamings ⟨1⟩ node hnode
    (by decide +kernel)
  rw [halias] at hk hpassed
  have hpos : 0 < k := by
    refine Nat.pos_of_ne_zero ?_
    rintro rfl
    rw [hname] at hk
    exact absurd hk (by decide)
  exact (hpassed 0 hpos).resolve_left hfree

/-- A node whose names have just been looked for is called by its alias with a number, although nobody near it is called
by the alias. -/
theorem stale_name : stale.Arises ∧ ∃ node, stale.node? ⟨1⟩ = some node ∧ node.localName = "b1" ∧ node.name = "b11" ∧
    ¬ stale.Taken ⟨1⟩ "b1" :=
  ⟨((Arises.new (Net.new "net") "b").withAccessScope Scope.standard).performAll renamings, named_stale⟩

end PetriTree.IncludeTree
