import PetriTree.Proofs.Lifecycle
import PetriTree.Proofs.MapEdit

/-!
# PetriTree — trees whose nodes hang together

A node names its children by their ids, and an id may stand for nothing. In a tree that was made by
commands no child is missing: a node is a child of one node only and of that one once, so that a subtree
that is taken out leaves no alias of its nodes behind.

All commands but two leave every node its children, whatever they do to maps, nets and names. What is known
of how nodes hang together passes through them by `SameShape` alone. The nets do not matter, so that they
may be exchanged for any others.

Main results:
* `sameShape_publish` … `sameShape_execute` — commands that leave every node its children;
* `Knit.attach`, `Knit.detach` — the other two;
* `IncludeTree.Arises` — the trees that come about by commands and exchanges of nets, `Arises.knit`.
-/

namespace PetriTree

namespace IncludeTree

variable {tree after : IncludeTree}

/-! ## Commands that leave every node its children -/

theorem remaps_registerHomes (tree : IncludeTree) (id : NodeId) : tree.Remaps (tree.registerHomes id) := by
  cases hnode : tree.node? id with
  | none =>
    rw [registerHomes, hnode]
    exact .refl tree
  | some node => exact (posts_registerHomes hnode).remaps

theorem sameShape_touch (tree : IncludeTree) : tree.SameShape tree.touch := (relabels_touch tree).shape

theorem sameShape_publish (tree : IncludeTree) (id : NodeId) (place : String) :
    tree.SameShape (tree.publish id place).1 := by
  rcases publish_cases tree id place with ⟨_, heq⟩ | ⟨owner, found, net, _, heq⟩
  · rw [heq]
    exact .refl tree
  · rw [heq]
    exact (remaps_announced ..).shape.trans (sameShape_setNet ..)

theorem sameShape_useInterface {id : NodeId} {away answer : String}
    (h : tree.useInterface id away = .ok (answer, after)) : tree.SameShape after := by
  rcases useInterface_eq_ok h with rfl | ⟨consumer, entry, net, _, rfl⟩
  · exact .refl _
  · refine SameShape.trans ?_ (sameShape_touch _)
    exact sameShape_modifyNode tree id fun _ => rfl

theorem sameShape_dropInterface {id : NodeId} {away : String} (h : tree.dropInterface id away = .ok after) :
    tree.SameShape after := by
  obtain ⟨owner, entry, _, ⟨_, _, _, _, rfl⟩ | ⟨_, rfl⟩⟩ := dropInterface_eq_ok h
  · refine SameShape.trans ?_ (sameShape_touch _)
    exact sameShape_modifyNode tree id fun _ => rfl
  · refine SameShape.trans ?_ (sameShape_touch _)
    exact sameShape_modifyNode tree id fun _ => rfl

theorem sameShape_withdraw (tree : IncludeTree) (id : NodeId) (away : String) :
    tree.SameShape (tree.withdraw id away).1 := by
  rcases withdraw_cases tree id away with ⟨_, heq⟩ | ⟨node, entry, released, hwithdraws, hrelease, heq⟩
  · rw [heq]
    exact .refl tree
  · rw [heq]
    exact (ledger_release hwithdraws.live hrelease).1.trans (sameShape_touch _)

theorem sameShape_execute (tree : IncludeTree) (id : NodeId) (scope : Scope) (command : MapCommand) :
    tree.SameShape (tree.execute id scope command).1 := by
  rcases execute_cases tree id scope command with ⟨_, heq⟩ | ⟨edited, _, hedits, heq⟩
  · rw [heq]
    exact .refl tree
  · rw [heq]
    exact hedits.shape.trans (sameShape_touch _)

/-! ## One parent, one alias -/

/-- A rooted tree in which every child is there, and is the child of one node, once. -/
structure Knit (tree : IncludeTree) : Prop extends Rooted tree where
  live : ∀ above below, tree.Includes above below → (tree.node? below).isSome
  once : ∀ above above' below, tree.Includes above below → tree.Includes above' below → above = above'
  distinct : ∀ id children, tree.children? id = some children → children.Nodup

theorem SameShape.knit (h : tree.SameShape after) (hknit : tree.Knit) : after.Knit where
  toRooted := h.rooted hknit.toRooted
  live above below hincludes := by
    rw [h.isSome]
    exact hknit.live above below (h.includes.1 hincludes)
  once above above' below hincludes hincludes' :=
    hknit.once above above' below (h.includes.1 hincludes) (h.includes.1 hincludes')
  distinct id children hchildren := by
    rw [h.children] at hchildren
    exact hknit.distinct id children hchildren

/-- Below a node stand, besides the node, only children of nodes that stand there. -/
theorem mem_descend_cases {bound : Nat} {id below : NodeId} (h : below ∈ tree.descend bound id) :
    below = id ∨ ∃ above ∈ tree.descend bound id, tree.Includes above below := by
  induction bound generalizing id with
  | zero => cases h
  | succ bound ih =>
    cases hnode : tree.node? id with
    | none => simp [descend, hnode] at h
    | some node =>
      simp only [descend, hnode] at h ⊢
      rcases List.mem_cons.1 h with rfl | h
      · exact Or.inl rfl
      · obtain ⟨child, hchild, hbelow⟩ := List.mem_flatMap.1 h
        refine Or.inr ?_
        rcases ih hbelow with rfl | ⟨above, habove, hincludes⟩
        · exact ⟨id, List.mem_cons_self .., node, hnode, hchild⟩
        · have hmem := List.mem_flatMap.2 ⟨child, hchild, habove⟩
          exact ⟨above, List.mem_cons_of_mem _ hmem, hincludes⟩

namespace Knit

variable {parent : NodeId} {owner node : TreeNode} {name : String}

/-- The new node is a child of its parent only. -/
theorem grow (h : tree.Knit) (howner : tree.node? parent = some owner)
    (hchildren : node.children = Table.empty) (hfree : owner.children.contains name = false) :
    (tree.grow parent name node).Knit where
  toRooted := h.toRooted.grow howner hchildren hfree
  live above below hincludes := by
    rw [node?_grow_eq howner]
    by_cases hnew : below = tree.nodes.nextId
    · rw [if_pos hnew]
      rfl
    · have hbefore := (includes_grow howner hchildren hincludes).resolve_right fun hedge => hnew hedge.2
      rw [if_neg hnew]
      split
      · rfl
      · exact h.live above below hbefore
  once above above' below hincludes hincludes' := by
    -- the new id was the child of no node
    have hold : ∀ n, tree.Includes n below → below ≠ tree.nodes.nextId := by
      rintro n hedge rfl
      exact absurd (h.younger n _ hedge).2 (Nat.lt_irrefl _)
    rcases includes_grow howner hchildren hincludes with hedge | ⟨rfl, hnew⟩ <;>
      rcases includes_grow howner hchildren hincludes' with hedge' | ⟨rfl, hnew'⟩
    · exact h.once above above' below hedge hedge'
    · exact absurd hnew' (hold above hedge)
    · exact absurd hnew (hold above' hedge')
    · rfl
  distinct id children hlist := by
    obtain ⟨found, hfound, rfl⟩ := Option.map_eq_some_iff.1 hlist
    rw [node?_grow_eq howner] at hfound
    split at hfound
    · cases hfound
      rw [hchildren]
      exact List.nodup_nil
    · split at hfound
      · rename_i hparent
        cases hfound
        have hlisted : tree.children? parent = some owner.children.values := by rw [children?, howner]; rfl
        have hfresh : tree.nodes.nextId ∉ owner.children.values := fun hmem =>
          absurd (h.younger parent _ ⟨owner, howner, hmem⟩).2 (Nat.lt_irrefl _)
        rw [Table.values, Table.entries_insert _ hfree, List.map_append]
        refine List.nodup_append.2 ⟨h.distinct parent _ hlisted, by simp, ?_⟩
        rintro child hchild _ hlast rfl
        rw [List.mem_singleton.1 hlast] at hchild
        exact hfresh hchild
      · exact h.distinct id _ (by rw [children?, hfound]; rfl)

/-- A node that stays does not miss a child: no node of the subtree hung elsewhere too. -/
theorem prune (h : tree.Knit) {id : NodeId} (hparent : tree.node? parent = some owner)
    (hchild : owner.children.get? name = some id) : (tree.prune parent name (tree.subtree id)).Knit := by
  -- an edge of after is one of before, and not the one that was cut
  have hedge : ∀ above below, (tree.prune parent name (tree.subtree id)).Includes above below →
      above ∉ tree.subtree id ∧ tree.Includes above below ∧ (above = parent → below ≠ id) := by
    rintro above below ⟨found, hfound, hmem⟩
    rw [node?_prune] at hfound
    split at hfound
    · cases hfound
    · rename_i hkept
      obtain ⟨old, hold, rfl⟩ := Option.map_eq_some_iff.1 hfound
      dsimp only at hmem
      split at hmem
      · rename_i heq
        subst heq
        rw [hparent] at hold
        cases hold
        refine ⟨hkept, ⟨owner, hparent, (Table.mem_values_filter hmem).1⟩, fun _ => ?_⟩
        rintro rfl
        -- the alias that went was the only one
        obtain ⟨key, hkey⟩ := Table.mem_values_iff.1 hmem
        rw [Table.get?_erase] at hkey
        split at hkey
        · cases hkey
        · rename_i hne
          have hnodup : owner.children.values.Nodup :=
            h.distinct above _ (by rw [children?, hparent]; rfl)
          have hname := Table.get?_eq_some_iff.1 hchild
          have hother := Table.get?_eq_some_iff.1 hkey
          exact hne (congrArg Prod.fst (List.inj_on_of_nodup_map hnodup hname hother rfl))
      · rename_i hne
        exact ⟨hkept, ⟨old, hold, hmem⟩, fun heq => absurd heq hne⟩
  have hincludes : tree.Includes parent id := ⟨owner, hparent, Table.mem_values_iff.2 ⟨name, hchild⟩⟩
  refine ⟨h.toRooted.prune hparent hchild, fun above below hbelow => ?_,
    fun above above' below hbelow hbelow' => ?_, fun other children hlist => ?_⟩
  · obtain ⟨hkept, hbefore, hcut⟩ := hedge above below hbelow
    have hstays : below ∉ tree.subtree id := by
      intro hmem
      rcases mem_descend_cases hmem with rfl | ⟨above', habove', hbelow'⟩
      · exact hcut (h.once above parent _ hbefore hincludes) rfl
      · exact hkept (h.once above above' below hbefore hbelow' ▸ habove')
    rw [node?_prune, if_neg hstays, Option.isSome_map]
    exact h.live above below hbefore
  · exact h.once above above' below (hedge above below hbelow).2.1 (hedge above' below hbelow').2.1
  · obtain ⟨found, hfound, rfl⟩ := Option.map_eq_some_iff.1 hlist
    rw [node?_prune] at hfound
    split at hfound
    · cases hfound
    · obtain ⟨old, hold, rfl⟩ := Option.map_eq_some_iff.1 hfound
      have hnodup : old.children.values.Nodup := h.distinct other _ (by rw [children?, hold]; rfl)
      dsimp only
      split
      · exact hnodup.sublist (List.filter_sublist.map Prod.snd)
      · exact hnodup

/-! ## All commands -/

theorem attach (h : tree.Knit) {id : NodeId} {net : Net}
    (hcommand : tree.attach parent net name = .ok (id, after)) : after.Knit := by
  obtain ⟨owner, howner, _, hfree, rfl, rfl⟩ := attach_eq_ok hcommand
  refine SameShape.knit (sameShape_touch _) ?_
  refine SameShape.knit (remaps_registerHomes ..).shape (SameShape.knit (remaps_seedAvailable ..).shape ?_)
  exact SameShape.knit (relabels_resolveNames ..).shape (h.grow howner rfl hfree)

theorem detach (h : tree.Knit) (parent : NodeId) (name : String) : (tree.detach parent name).1.Knit := by
  rcases detach_cases tree parent name with ⟨_, heq⟩ | ⟨node, id, hdetaches, heq⟩
  · rw [heq]
    exact h
  · rw [heq]
    exact SameShape.knit (sameShape_touch _) (h.prune hdetaches.live hdetaches.child)

theorem perform (h : tree.Knit) (command : TreeCommand) : (tree.perform command).1.Knit := by
  cases command with
  | attach parent net name => exact settled_keeps h fun _ _ hcommand => h.attach hcommand
  | detach parent name => exact h.detach parent name
  | rename id name => exact settledDone_keeps h fun _ hcommand => (relabels_rename hcommand).shape.knit h
  | publish id place => exact (sameShape_publish tree id place).knit h
  | useInterface id away => exact settled_keeps h fun _ _ hcommand => (sameShape_useInterface hcommand).knit h
  | dropInterface id away =>
    exact settledDone_keeps h fun _ hcommand => (sameShape_dropInterface hcommand).knit h
  | withdraw id away => exact (sameShape_withdraw tree id away).knit h
  | execute id scope command => exact (sameShape_execute tree id scope command).knit h

theorem sprout (net : Net) (name : String) : (IncludeTree.sprout net name).Knit := by
  have hnone : ∀ above below, ¬(IncludeTree.sprout net name).Includes above below := by
    rintro above below ⟨node, hnode, hchild⟩
    rw [node?_sprout] at hnode
    split at hnode
    · cases hnode
      cases hchild
    · cases hnode
  refine ⟨rooted_sprout net name, ?_, ?_, ?_⟩
  · exact fun above below hincludes => absurd hincludes (hnone above below)
  · exact fun above _ below hincludes => absurd hincludes (hnone above below)
  · intro id children hlist
    obtain ⟨node, hnode, rfl⟩ := Option.map_eq_some_iff.1 hlist
    rw [node?_sprout] at hnode
    split at hnode
    · cases hnode
      exact List.nodup_nil
    · cases hnode

theorem new (net : Net) (name : String) : (IncludeTree.new net name).Knit :=
  (remaps_registerHomes (IncludeTree.sprout net name) rootId).shape.knit (.sprout net name)

end Knit

/-- The trees that come about by commands, refused or not, and by exchanging the net of a node for any other
net, edited or not. -/
inductive Arises : IncludeTree → Prop
  | new (net : Net) (name : String) : Arises (IncludeTree.new net name)
  | withAccessScope {tree : IncludeTree} (scope : Scope) : Arises tree → Arises (tree.withAccessScope scope)
  | setNet {tree : IncludeTree} (id : NodeId) (net : Net) : Arises tree → Arises (tree.setNet id net)
  | perform {tree : IncludeTree} (command : TreeCommand) : Arises tree → Arises (tree.perform command).1

theorem Arises.knit (h : tree.Arises) : tree.Knit := by
  induction h with
  | new net name => exact .new net name
  | @withAccessScope before scope _ ih =>
    have hshape : before.SameShape (before.withAccessScope scope) := ⟨rfl, rfl, fun _ => rfl⟩
    exact hshape.knit ih
  | setNet id net _ ih => exact (sameShape_setNet _ id net).knit ih
  | perform command _ ih => exact ih.perform command

end IncludeTree

end PetriTree
