import PetriTree.Proofs.Frame

/-!
# PetriTree — how nodes hang

A node knows the node above it and its own alias, and the node above files it under an alias. The two sides
are written by different steps: a new node is made first and filed then, an alias is changed in the table of
the parent first and in the node then, and a subtree is cut off before its nodes go. After every command they
say the same.

Main results:
* `IncludeTree.Hung` — a node is filed once, under its alias, by the live node it takes for its parent;
* `Hung.grow`, `Hung.prune`, `Hung.realiased` — a node more, a subtree less, another alias;
* `Arises.hung` — so do the nodes hang in every tree that comes about by commands.
-/

namespace PetriTree

namespace Table

variable {t : Table α} {old new name : String}

/-- A name that is there can be changed into itself as well. -/
theorem get?_rename_of_free (hold : t.contains old = true) (hnew : new = old ∨ t.contains new = false)
    (key : String) : (t.rename old new).get? key =
      if key = new then t.get? old else if key = old then none else t.get? key := by
  rcases hnew with rfl | hnew
  · rw [rename, dif_pos (mem_names_iff.2 hold)]
    split
    · rename_i hkey
      rw [hkey]
    · rfl
  · exact get?_rename key hnew

end Table

namespace IncludeTree

variable {tree after : IncludeTree} {β : Type}

/-! ## Filed where they belong -/

/-- The node that a node takes for its parent. -/
def parent? (tree : IncludeTree) (id : NodeId) : Option NodeId := (tree.node? id).bind TreeNode.parent

def alias? (tree : IncludeTree) (id : NodeId) : Option String := (tree.node? id).map TreeNode.localName

/-- The node that a node files under an alias. -/
def child? (tree : IncludeTree) (above : NodeId) (name : String) : Option NodeId :=
  (tree.node? above).bind fun node => node.children.get? name

section Lookup

variable {id : NodeId} {node : TreeNode}

theorem parent?_eq (h : tree.node? id = some node) : tree.parent? id = node.parent := by
  rw [parent?, h, Option.bind_some]

theorem alias?_eq (h : tree.node? id = some node) : tree.alias? id = some node.localName := by
  rw [alias?, h, Option.map_some]

theorem child?_eq (h : tree.node? id = some node) (name : String) :
    tree.child? id name = node.children.get? name := by
  rw [child?, h, Option.bind_some]

theorem isSome_of_parent? {above : NodeId} (h : tree.parent? id = some above) : (tree.node? id).isSome := by
  obtain ⟨node, hnode, _⟩ := Option.bind_eq_some_iff.1 h
  rw [hnode]
  rfl

theorem includes_iff_child? {above below : NodeId} :
    tree.Includes above below ↔ ∃ name, tree.child? above name = some below := by
  constructor
  · rintro ⟨node, hnode, hmem⟩
    obtain ⟨name, hname⟩ := Table.mem_values_iff.1 hmem
    exact ⟨name, (child?_eq hnode name).trans hname⟩
  · rintro ⟨name, h⟩
    obtain ⟨node, hnode, hname⟩ := Option.bind_eq_some_iff.1 h
    exact ⟨node, hnode, Table.mem_values_iff.2 ⟨name, hname⟩⟩

end Lookup

/-- What a node files under an alias is the node that has this alias and takes it for its parent. Only the
root has no parent. -/
structure Hung (tree : IncludeTree) : Prop extends Knit tree where
  filed : ∀ above name below, tree.child? above name = some below ↔
    tree.parent? below = some above ∧ tree.alias? below = some name
  top : (tree.node? tree.root).isSome
  parentless : ∀ id, (tree.node? id).isSome → (tree.parent? id = none ↔ id = tree.root)
  aliased : ∀ id above name, tree.parent? id = some above → tree.alias? id = some name → isAlias name = true

namespace SameView

theorem isSome {view : TreeNode → β} (h : tree.SameView view after) (id : NodeId) :
    (after.node? id).isSome = (tree.node? id).isSome := by
  have hsome := congrArg Option.isSome (h.nodes id)
  rwa [Option.isSome_map, Option.isSome_map] at hsome

variable (h : tree.SameView TreeNode.seat after)

include h

theorem parent?_eq (id : NodeId) : after.parent? id = tree.parent? id := h.bind_eq (fun seat => seat.2.1) id

theorem alias?_eq (id : NodeId) : after.alias? id = tree.alias? id := (h.map Prod.fst).nodes id

theorem child?_eq (above : NodeId) (name : String) : after.child? above name = tree.child? above name :=
  h.bind_eq (fun seat => seat.2.2.get? name) above

theorem shape : tree.SameShape after := ⟨h.root, h.length, (h.map fun seat => seat.2.2.values).nodes⟩

end SameView

namespace Hung

theorem keeps (h : tree.Hung) (hview : tree.SameView TreeNode.seat after) : after.Hung where
  toKnit := hview.shape.knit h.toKnit
  filed above name below := by
    rw [hview.child?_eq, hview.parent?_eq, hview.alias?_eq]
    exact h.filed above name below
  top := by
    rw [hview.root, hview.isSome]
    exact h.top
  parentless id := by
    rw [hview.root, hview.isSome, hview.parent?_eq]
    exact h.parentless id
  aliased id above name := by
    rw [hview.parent?_eq, hview.alias?_eq]
    exact h.aliased id above name

/-- The children of a node are those that take it for their parent. -/
theorem includes_iff (h : tree.Hung) {above below : NodeId} :
    tree.Includes above below ↔ tree.parent? below = some above := by
  rw [includes_iff_child?]
  constructor
  · rintro ⟨name, hname⟩
    exact ((h.filed above name below).1 hname).1
  · intro hparent
    obtain ⟨node, hnode⟩ := Option.isSome_iff_exists.1 (isSome_of_parent? hparent)
    exact ⟨node.localName, (h.filed above _ below).2 ⟨hparent, alias?_eq hnode⟩⟩

/-- The root is nobody's child. -/
theorem parent?_root (h : tree.Hung) : tree.parent? tree.root = none := (h.parentless _ h.top).2 rfl

/-- Every other node has a parent. -/
theorem exists_parent (h : tree.Hung) {id : NodeId} (hlive : (tree.node? id).isSome) (hne : id ≠ tree.root) :
    ∃ above, tree.parent? id = some above :=
  Option.ne_none_iff_exists'.1 (mt (h.parentless id hlive).1 hne)

theorem live_above (h : tree.Hung) {above below : NodeId} (hparent : tree.parent? below = some above) :
    (tree.node? above).isSome :=
  (h.includes_iff.2 hparent).isSome

/-- Below the node at its top, a subtree has every node together with its parent or neither. -/
theorem mem_subtree_iff_parent (h : tree.Hung) {above below top : NodeId}
    (hparent : tree.parent? below = some above) (hne : below ≠ top) :
    below ∈ tree.subtree top ↔ above ∈ tree.subtree top := by
  constructor
  · intro hmem
    obtain ⟨above', habove', hincludes⟩ := (mem_descend_cases hmem).resolve_left hne
    rw [h.includes_iff, hparent] at hincludes
    exact Option.some.inj hincludes ▸ habove'
  · intro hmem
    exact (h.younger.parentsFirst_subtree top).mem hmem (h.includes_iff.2 hparent) (isSome_of_parent? hparent)

end Hung

/-! ## A node more -/

section Grow

variable {parent : NodeId} {owner node : TreeNode} {name : String}

theorem node?_nextId (tree : IncludeTree) : tree.node? tree.nodes.nextId = none := by
  cases hnode : tree.node? tree.nodes.nextId with
  | none => rfl
  | some found => exact absurd rfl (ne_nextId hnode)

theorem parent?_grow (howner : tree.node? parent = some owner) (id : NodeId) :
    (tree.grow parent name node).parent? id =
      if id = tree.nodes.nextId then node.parent else tree.parent? id := by
  rw [parent?, node?_grow_eq howner, parent?]
  split
  · rfl
  · split
    · rename_i heq
      rw [heq, howner]
      rfl
    · rfl

theorem alias?_grow (howner : tree.node? parent = some owner) (id : NodeId) :
    (tree.grow parent name node).alias? id =
      if id = tree.nodes.nextId then some node.localName else tree.alias? id := by
  rw [alias?, node?_grow_eq howner, alias?]
  split
  · rfl
  · split
    · rename_i heq
      rw [heq, howner]
      rfl
    · rfl

theorem child?_grow (howner : tree.node? parent = some owner) (hchildren : node.children = Table.empty)
    (above : NodeId) (key : String) : (tree.grow parent name node).child? above key =
      if above = parent ∧ key = name then some tree.nodes.nextId else tree.child? above key := by
  rw [child?, node?_grow_eq howner]
  by_cases hnew : above = tree.nodes.nextId
  · have hne : above ≠ parent := fun heq => ne_nextId howner (heq.symm.trans hnew)
    rw [if_pos hnew, if_neg fun hedge => hne hedge.1, Option.bind_some, hchildren, child?, hnew, node?_nextId]
    rfl
  · rw [if_neg hnew]
    by_cases heq : above = parent
    · subst heq
      rw [if_pos rfl, Option.bind_some, Table.get?_insert, child?_eq howner]
      simp only [true_and, eq_comm]
    · rw [if_neg heq, if_neg fun hedge => heq hedge.1]
      rfl

/-- What is found in the grown tree was there before, the new node apart. -/
theorem isSome_of_grow (howner : tree.node? parent = some owner) {id : NodeId} (hne : id ≠ tree.nodes.nextId)
    (hlive : ((tree.grow parent name node).node? id).isSome) : (tree.node? id).isSome := by
  obtain ⟨found, hfound⟩ := Option.isSome_iff_exists.1 hlive
  obtain ⟨old, hold, _⟩ := (node?_grow howner hfound).resolve_left fun hcase => hne hcase.1
  rw [hold]
  rfl

theorem Hung.root_ne_nextId (h : tree.Hung) : tree.root ≠ tree.nodes.nextId := by
  obtain ⟨top, htop⟩ := Option.isSome_iff_exists.1 h.top
  exact ne_nextId htop

/-- A new node hangs below its parent, under an alias that was free there. -/
theorem Hung.grow (h : tree.Hung) (howner : tree.node? parent = some owner) (halias : isAlias name = true)
    (hfree : owner.children.contains name = false) (hparent : node.parent = some parent)
    (hlocal : node.localName = name) (hchildren : node.children = Table.empty) :
    (tree.grow parent name node).Hung where
  toKnit := h.toKnit.grow howner hchildren hfree
  filed above key below := by
    have hnone : tree.child? parent name = none := by
      rw [child?_eq howner]
      exact Table.get?_eq_none_of_contains hfree
    rw [child?_grow howner hchildren, parent?_grow howner, alias?_grow howner, hparent, hlocal]
    by_cases hnew : below = tree.nodes.nextId
    · -- nobody had the new node as a child before
      have hno : tree.child? above key ≠ some below := fun hchild => by
        have hlive := isSome_of_parent? ((h.filed above key below).1 hchild).1
        rw [hnew, node?_nextId] at hlive
        cases hlive
      simp only [hnew, if_true, Option.some.injEq]
      rw [hnew] at hno
      split
      · rename_i hedge
        simp [hedge]
      · rename_i hedge
        exact ⟨fun hchild => absurd hchild hno, fun ⟨hparent, hname⟩ => absurd ⟨hparent.symm, hname.symm⟩ hedge⟩
    · rw [if_neg hnew, if_neg hnew, ← h.filed]
      split
      · rename_i hedge
        rw [hedge.1, hedge.2, hnone]
        exact ⟨fun hid => absurd (Option.some.inj hid).symm hnew, fun hid => by cases hid⟩
      · rfl
  top := by
    show ((tree.grow parent name node).node? tree.root).isSome
    rw [node?_grow_eq howner, if_neg h.root_ne_nextId]
    split
    · rfl
    · exact h.top
  parentless id hlive := by
    show (tree.grow parent name node).parent? id = none ↔ id = tree.root
    rw [parent?_grow howner]
    by_cases hnew : id = tree.nodes.nextId
    · rw [if_pos hnew, hparent, hnew]
      exact iff_of_false (fun hnone => by cases hnone) fun heq => h.root_ne_nextId heq.symm
    · rw [if_neg hnew]
      exact h.parentless id (isSome_of_grow howner hnew hlive)
  aliased id above key := by
    rw [parent?_grow howner, alias?_grow howner, hlocal]
    split
    · rintro _ hname
      cases hname
      exact halias
    · exact h.aliased id above key

theorem Hung.grow_attached (h : tree.Hung) (net : Net) (howner : tree.node? parent = some owner)
    (halias : isAlias name = true) (hfree : owner.children.contains name = false) :
    (tree.grow parent name ⟨name, "", "", "", some parent, Table.empty, net, Table.empty⟩).Hung :=
  h.grow howner halias hfree rfl rfl rfl

end Grow

/-! ## A subtree less -/

section Prune

variable (tree : IncludeTree) (parent : NodeId) (name : String) (doomed : List NodeId)

theorem parent?_prune (id : NodeId) : (tree.prune parent name doomed).parent? id =
    if id ∈ doomed then none else tree.parent? id := by
  rw [parent?, node?_prune, parent?]
  split
  · rfl
  · cases tree.node? id <;> rfl

theorem alias?_prune (id : NodeId) : (tree.prune parent name doomed).alias? id =
    if id ∈ doomed then none else tree.alias? id := by
  rw [alias?, node?_prune, alias?]
  split
  · rfl
  · cases tree.node? id <;> rfl

theorem child?_prune (above : NodeId) (key : String) : (tree.prune parent name doomed).child? above key =
    if above ∈ doomed ∨ above = parent ∧ key = name then none else tree.child? above key := by
  rw [child?, node?_prune, child?]
  by_cases hdoomed : above ∈ doomed
  · simp [hdoomed]
  · cases tree.node? above with
    | none => simp
    | some found =>
      simp only [hdoomed, if_false, false_or, Option.map_some, Option.bind_some]
      by_cases heq : above = parent
      · simp only [heq, if_true, true_and, Table.get?_erase, eq_comm]
      · simp only [heq, if_false, false_and]

end Prune

/-- What is left hangs as before: a subtree goes as a whole, and with it the alias of the node at its top. -/
theorem Hung.prune (h : tree.Hung) {parent id : NodeId} {name : String}
    (hchild : tree.child? parent name = some id) : (tree.prune parent name (tree.subtree id)).Hung := by
  have hcut := (h.filed parent name id).1 hchild
  have hself : id ∈ tree.subtree id := mem_subtree_self (isSome_of_parent? hcut.1)
  have hroot : tree.root ∉ tree.subtree id := by
    intro hmem
    rcases mem_descend_cases hmem with heq | ⟨above, _, hincludes⟩
    · rw [← heq, h.parent?_root] at hcut
      cases hcut.1
    · rw [h.includes_iff, h.parent?_root] at hincludes
      cases hincludes
  have hlive : ∀ other, ((tree.prune parent name (tree.subtree id)).node? other).isSome ↔
      other ∉ tree.subtree id ∧ (tree.node? other).isSome := by
    intro other
    rw [node?_prune]
    split
    · simp [*]
    · simp [*]
  refine ⟨?_, fun above key below => ?_, (hlive _).2 ⟨hroot, h.top⟩, fun other hother => ?_,
    fun other above key => ?_⟩
  · obtain ⟨owner, howner, hname⟩ := Option.bind_eq_some_iff.1 hchild
    exact h.toKnit.prune howner hname
  · rw [child?_prune, parent?_prune, alias?_prune]
    constructor
    · intro hedge
      split at hedge
      · cases hedge
      · rename_i hstays
        obtain ⟨hparent, halias⟩ := (h.filed above key below).1 hedge
        have hne : below ≠ id := by
          rintro rfl
          rw [hcut.1] at hparent
          rw [hcut.2] at halias
          exact hstays (Or.inr ⟨(Option.some.inj hparent).symm, (Option.some.inj halias).symm⟩)
        have hbelow := mt (h.mem_subtree_iff_parent hparent hne).1 fun hmem => hstays (Or.inl hmem)
        rw [if_neg hbelow, if_neg hbelow]
        exact ⟨hparent, halias⟩
    · intro hedge
      by_cases hbelow : below ∈ tree.subtree id
      · rw [if_pos hbelow] at hedge
        cases hedge.1
      · rw [if_neg hbelow, if_neg hbelow] at hedge
        have hne : below ≠ id := fun heq => hbelow (heq ▸ hself)
        have hbefore := (h.filed above key below).2 hedge
        rw [if_neg, hbefore]
        rintro (hmem | ⟨rfl, rfl⟩)
        · exact hbelow ((h.mem_subtree_iff_parent hedge.1 hne).2 hmem)
        · exact hne (Option.some.inj (hbefore.symm.trans hchild))
  · obtain ⟨hstays, hbefore⟩ := (hlive other).1 hother
    rw [parent?_prune, if_neg hstays]
    exact h.parentless other hbefore
  · rw [parent?_prune, alias?_prune]
    split
    · rintro ⟨⟩
    · exact h.aliased other above key

/-! ## Another alias -/

/-- The tree with a node under another alias, which its parent files it under too. -/
def realiased (tree : IncludeTree) (id : NodeId) (parent : Option NodeId) (old new : String) : IncludeTree :=
  (match parent with
    | none => tree
    | some above => tree.modifyNode above fun node => { node with children := node.children.rename old new }
    ).modifyNode id fun node => { node with localName := new }

section Realiased

variable (tree : IncludeTree) (id : NodeId) (parent : Option NodeId) (old new : String)

theorem node?_realiased (other : NodeId) :
    (tree.realiased id parent old new).node? other = (tree.node? other).map fun node =>
      { node with
        localName := if other = id then new else node.localName
        children := if parent = some other then node.children.rename old new else node.children } := by
  have hself : ∀ (t : IncludeTree) (node : TreeNode), t.node? other = some node →
      (t.modifyNode id fun node => { node with localName := new }).node? other =
        some { node with localName := if other = id then new else node.localName } := fun t node hnode => by
    rw [node?_modifyNode, hnode]
    by_cases hid : other = id <;> simp [hid]
  cases hnode : tree.node? other with
  | none => cases parent <;> simp [realiased, node?_modifyNode, hnode]
  | some node =>
    rw [realiased.eq_def]
    cases parent with
    | none => exact (hself tree node hnode).trans (by simp)
    | some above =>
      by_cases habove : above = other
      · refine (hself _ { node with children := node.children.rename old new } ?_).trans (by simp [habove])
        rw [habove, node?_modifyNode, if_pos rfl, hnode, Option.map_some]
      · refine (hself _ node ?_).trans (by simp [habove])
        rw [node?_modifyNode, if_neg (Ne.symm habove), hnode]

theorem sameShape_realiased : tree.SameShape (tree.realiased id parent old new) := by
  refine SameShape.trans ?_ (sameShape_modifyNode _ id fun _ => rfl)
  cases parent with
  | none => exact .refl tree
  | some above => exact sameShape_modifyNode tree above fun _ => Table.values_rename ..

end Realiased

/-- A node gets another alias, one that is free at its parent, and then the names below it are recomputed. -/
theorem rename_eq_realiased {id : NodeId} {name : String} (h : tree.rename id name = .ok after) :
    ∃ node, tree.node? id = some node ∧ isAlias name = true ∧
      (∀ above owner, node.parent = some above → tree.node? above = some owner →
        name = node.localName ∨ owner.children.contains name = false) ∧
      after = ((tree.realiased id node.parent node.localName name).resolveSubtree id).touch := by
  simp only [rename, Conflict.only, guard_eq_ok, bind_eq_ok, requireNode_eq_ok] at h
  obtain ⟨node, hnode, halias, h⟩ := h
  refine ⟨node, hnode, by simpa using halias, ?_⟩
  unfold realiased
  split at h
  · rename_i hroot
    cases h
    rw [hroot]
    exact ⟨fun _ _ habove => (by cases habove), rfl⟩
  · rename_i parent hparent
    rw [guard_eq_ok] at h
    obtain ⟨hfree, h⟩ := h
    cases h
    rw [hparent]
    refine ⟨fun above owner habove howner => ?_, rfl⟩
    cases habove
    rw [howner] at hfree
    by_cases hsame : name = node.localName
    · exact Or.inl hsame
    · exact Or.inr (by simpa [hsame] using hfree)

section Realiased

variable {id : NodeId} {node : TreeNode} {name : String}

theorem parent?_realiased (tree : IncludeTree) (id : NodeId) (parent : Option NodeId) (old new : String)
    (other : NodeId) : (tree.realiased id parent old new).parent? other = tree.parent? other := by
  rw [parent?, node?_realiased, parent?]
  cases tree.node? other <;> rfl

theorem alias?_realiased (hnode : tree.node? id = some node) (parent : Option NodeId) (old new : String)
    (other : NodeId) : (tree.realiased id parent old new).alias? other =
      if other = id then some new else tree.alias? other := by
  rw [alias?, node?_realiased, alias?]
  split
  · rename_i heq
    rw [heq, hnode]
    simp
  · rename_i hne
    cases tree.node? other with
    | none => rfl
    | some found => simp

/-- At the parent the entry of the node has the new alias, and no other entry changes. -/
theorem Hung.child?_realiased (h : tree.Hung) (hnode : tree.node? id = some node)
    (hfree : ∀ above owner, node.parent = some above → tree.node? above = some owner →
      name = node.localName ∨ owner.children.contains name = false) (above : NodeId) (key : String) :
    (tree.realiased id node.parent node.localName name).child? above key =
      if node.parent = some above then
        if key = name then some id else if key = node.localName then none else tree.child? above key
      else tree.child? above key := by
  rw [child?, node?_realiased]
  by_cases hparent : node.parent = some above
  · have hfiled := (h.filed above _ id).2 ⟨(parent?_eq hnode).trans hparent, alias?_eq hnode⟩
    obtain ⟨owner, howner, hname⟩ := Option.bind_eq_some_iff.1 hfiled
    have hold : owner.children.contains node.localName = true := by rw [Table.contains, hname]; rfl
    rw [howner, if_pos hparent, child?_eq howner]
    simp only [Option.map_some, Option.bind_some, hparent, if_true]
    rw [Table.get?_rename_of_free hold (hfree above owner hparent howner), hname]
  · rw [if_neg hparent, child?]
    cases tree.node? above with
    | none => rfl
    | some owner => simp [hparent]

/-- The node is filed under its new alias, by its parent only. -/
theorem Hung.child?_realiased_self (h : tree.Hung) (hnode : tree.node? id = some node)
    (hfree : ∀ above owner, node.parent = some above → tree.node? above = some owner →
      name = node.localName ∨ owner.children.contains name = false) (above : NodeId) (key : String) :
    (tree.realiased id node.parent node.localName name).child? above key = some id ↔
      node.parent = some above ∧ key = name := by
  have hbefore := h.filed above key id
  rw [parent?_eq hnode, alias?_eq hnode, Option.some.injEq] at hbefore
  rw [h.child?_realiased hnode hfree]
  by_cases hparent : node.parent = some above
  · rw [if_pos hparent]
    by_cases hname : key = name
    · simp [hname, hparent]
    · rw [if_neg hname]
      refine iff_of_false (fun hchild => ?_) fun hedge => hname hedge.2
      -- of the other aliases only the old one was that of the node
      split at hchild
      · cases hchild
      · rename_i hold
        exact hold (hbefore.1 hchild).2.symm
  · rw [if_neg hparent]
    exact iff_of_false (fun hchild => hparent (hbefore.1 hchild).1) fun hedge => hparent hedge.1

/-- Other nodes are filed as before: none of them had the old alias or has the new one. -/
theorem Hung.child?_realiased_other (h : tree.Hung) (hnode : tree.node? id = some node)
    (hfree : ∀ above owner, node.parent = some above → tree.node? above = some owner →
      name = node.localName ∨ owner.children.contains name = false) (above : NodeId) (key : String)
    {below : NodeId} (hother : below ≠ id) :
    (tree.realiased id node.parent node.localName name).child? above key = some below ↔
      tree.child? above key = some below := by
  rw [h.child?_realiased hnode hfree]
  split
  · rename_i hparent
    have hfiled := (h.filed above _ id).2 ⟨(parent?_eq hnode).trans hparent, alias?_eq hnode⟩
    obtain ⟨owner, howner, _⟩ := Option.bind_eq_some_iff.1 hfiled
    have hold : tree.child? above node.localName ≠ some below := fun hchild =>
      hother (Option.some.inj (hchild.symm.trans hfiled))
    have hnew : tree.child? above name ≠ some below := fun hchild => by
      rcases hfree above owner hparent howner with rfl | hnone
      · exact hold hchild
      · rw [child?_eq howner, Table.get?_eq_none_of_contains hnone] at hchild
        cases hchild
    split
    · rename_i hkey
      rw [hkey]
      exact iff_of_false (fun heq => hother (Option.some.inj heq).symm) hnew
    · split
      · rename_i hkey
        rw [hkey]
        exact iff_of_false (fun hnone => by cases hnone) hold
      · rfl
  · rfl

/-- Under another alias a node hangs where it hung. -/
theorem Hung.realiased (h : tree.Hung) (hnode : tree.node? id = some node) (halias : isAlias name = true)
    (hfree : ∀ above owner, node.parent = some above → tree.node? above = some owner →
      name = node.localName ∨ owner.children.contains name = false) :
    (tree.realiased id node.parent node.localName name).Hung where
  toKnit := (sameShape_realiased tree id node.parent node.localName name).knit h.toKnit
  filed above key below := by
    rw [parent?_realiased, alias?_realiased hnode]
    by_cases hother : below = id
    · rw [hother, if_pos rfl, parent?_eq hnode, h.child?_realiased_self hnode hfree, Option.some.injEq]
      exact and_congr_right fun _ => eq_comm
    · rw [if_neg hother, h.child?_realiased_other hnode hfree above key hother]
      exact h.filed above key below
  top := by
    rw [(sameShape_realiased ..).root, (sameShape_realiased ..).isSome]
    exact h.top
  parentless other := by
    rw [(sameShape_realiased ..).root, (sameShape_realiased ..).isSome, parent?_realiased]
    exact h.parentless other
  aliased other above key := by
    rw [parent?_realiased, alias?_realiased hnode]
    split
    · rintro _ hname
      cases hname
      exact halias
    · exact h.aliased other above key

end Realiased

/-! ## All commands -/

namespace Hung

variable {parent id : NodeId} {name : String}

theorem attach (h : tree.Hung) {net : Net} (hcommand : tree.attach parent net name = .ok (id, after)) :
    after.Hung := by
  obtain ⟨owner, howner, halias, hfree, rfl, rfl⟩ := attach_eq_ok hcommand
  exact (h.grow_attached net howner halias hfree).keeps (seat_equipped _ tree.nodes.nextId)

theorem detach (h : tree.Hung) (parent : NodeId) (name : String) : (tree.detach parent name).1.Hung := by
  rcases detach_cases tree parent name with ⟨_, heq⟩ | ⟨node, id, hdetaches, heq⟩
  · rw [heq]
    exact h
  · rw [heq]
    exact (h.prune ((child?_eq hdetaches.live name).trans hdetaches.child)).keeps (sameView_touch ..)

theorem rename (h : tree.Hung) (hcommand : tree.rename id name = .ok after) : after.Hung := by
  obtain ⟨node, hnode, halias, hfree, rfl⟩ := rename_eq_realiased hcommand
  exact (h.realiased hnode halias hfree).keeps ((seat_resolveSubtree ..).trans (sameView_touch ..))

theorem perform (h : tree.Hung) (command : TreeCommand) : (tree.perform command).1.Hung := by
  by_cases hreshapes : command.Reshapes
  · cases command with
    | attach parent net name => exact settled_keeps h fun _ _ hcommand => h.attach hcommand
    | detach parent name => exact h.detach parent name
    | rename id name => exact settledDone_keeps h fun _ hcommand => h.rename hcommand
    | _ => exact hreshapes.elim
  · exact h.keeps (frame_perform hreshapes).seat

theorem performAll (h : tree.Hung) (commands : List TreeCommand) : (tree.performAll commands).Hung := by
  induction commands generalizing tree with
  | nil => exact h
  | cons command rest ih => exact ih (h.perform command)

theorem sprout (net : Net) (name : String) : (IncludeTree.sprout net name).Hung := by
  have hnode := node?_sprout net name
  have hroot : (IncludeTree.sprout net name).root = rootId := rfl
  refine ⟨.sprout net name, fun above key below => ?_, ?_, fun id => ?_, fun id above key => ?_⟩ <;>
    simp only [child?, parent?, hnode, hroot]
  · split <;> split <;> simp [Table.empty, Table.get?, Table.lookup]
  · simp
  · split <;> simp [*]
  · split <;> simp

theorem new (net : Net) (name : String) : (IncludeTree.new net name).Hung :=
  (sprout net name).keeps (remaps_registerHomes (IncludeTree.sprout net name) rootId).frame.seat

end Hung

theorem Arises.hung (h : tree.Arises) : tree.Hung := by
  induction h with
  | new net name => exact .new net name
  | withAccessScope scope _ ih => exact ih.keeps ⟨rfl, rfl, fun _ => rfl⟩
  | setNet id net _ ih => exact ih.keeps (frame_setNet _ id net).seat
  | perform command _ ih => exact ih.perform command

theorem Arises.performAll (h : tree.Arises) (commands : List TreeCommand) : (tree.performAll commands).Arises := by
  induction commands generalizing tree with
  | nil => exact h
  | cons command rest ih => exact ih (h.perform command)

end IncludeTree

end PetriTree
