import Mathlib.Data.List.Nodup
import PetriTree.Proofs.Hanging

/-!
# PetriTree — going through a tree

Two loops go through a tree: one climbs from a node to its parent, the other takes nodes from a stack and puts
their children there instead. Neither has a bound of its own. They end because a parent is older than its
children, and what they visit is told by the parents alone.

Main results:
* `IncludeTree.Ascends`, `IncludeTree.Traverses` — the loops, as far as they end;
* `Hung.ascends`, `Hung.getLast?_ancestors` — climbing ends, and it ends at the root;
* `Ordered.traverses_subtree`, `Hung.mem_subtree_iff` — the stack runs empty, and a subtree is the node with
  all that have it above them;
* `Hung.nodup_subtree`, `Hung.nodup_scopeNodes`, `Hung.live_of_mem_scopeNodes` — no node is met twice, and none
  that is not there;
* `Hung.treelike` — what one may rely on when going through a tree.
-/

namespace PetriTree.IncludeTree

variable {tree : IncludeTree} {id above below other : NodeId} {ids : List NodeId}

/-! ## Climbing -/

/-- Going from a node to its parent until there is none meets these nodes. -/
inductive Ascends (tree : IncludeTree) : NodeId → List NodeId → Prop
  | top {id : NodeId} : tree.parent? id = none → Ascends tree id []
  | up {id above : NodeId} {ids : List NodeId} : tree.parent? id = some above → Ascends tree above ids →
      Ascends tree id (above :: ids)

theorem Ascends.unique {ids' : List NodeId} (h : tree.Ascends id ids) (h' : tree.Ascends id ids') :
    ids = ids' := by
  induction h generalizing ids' with
  | top hnone =>
    cases h' with
    | top => rfl
    | up hparent => rw [hnone] at hparent; cases hparent
  | up hparent _ ih =>
    cases h' with
    | top hnone => rw [hnone] at hparent; cases hparent
    | up hparent' hrest =>
      rw [hparent] at hparent'
      cases hparent'
      rw [ih hrest]

theorem climb_succ (tree : IncludeTree) (bound : Nat) (id : NodeId) : tree.climb (bound + 1) id =
    match tree.parent? id with
    | none => []
    | some above => above :: tree.climb bound above := rfl

theorem climb_of_parent?_eq_none (h : tree.parent? id = none) (bound : Nat) : tree.climb bound id = [] := by
  cases bound with
  | zero => rfl
  | succ bound => rw [climb_succ, h]

namespace Hung

theorem younger_of_parent? (h : tree.Hung) (hparent : tree.parent? below = some above) :
    above.index < below.index ∧ below.index < tree.nodes.slots.length :=
  h.younger above below (h.includes_iff.2 hparent)

/-- Parents are older than their children, so that the bound is not used up. -/
theorem ascends_climb (h : tree.Hung) {bound : Nat} (hbound : id.index ≤ bound) :
    tree.Ascends id (tree.climb bound id) := by
  induction bound generalizing id with
  | zero =>
    refine .top ?_
    cases hparent : tree.parent? id with
    | none => rfl
    | some above =>
      have hyounger := h.younger_of_parent? hparent
      omega
  | succ bound ih =>
    rw [climb_succ]
    cases hparent : tree.parent? id with
    | none => exact .top hparent
    | some above =>
      have hyounger := h.younger_of_parent? hparent
      exact .up hparent (ih (by omega))

/-- Climbing from a node ends. -/
theorem ascends (h : tree.Hung) (id : NodeId) : tree.Ascends id (tree.ancestors id) := by
  cases hparent : tree.parent? id with
  | none =>
    rw [ancestors, climb_of_parent?_eq_none hparent]
    exact .top hparent
  | some above =>
    have hyounger := h.younger_of_parent? hparent
    exact h.ascends_climb (by omega)

theorem ancestors_of_none (h : tree.Hung) (hnone : tree.parent? id = none) : tree.ancestors id = [] :=
  (h.ascends id).unique (.top hnone)

theorem ancestors_eq_cons (h : tree.Hung) (hparent : tree.parent? id = some above) :
    tree.ancestors id = above :: tree.ancestors above :=
  (h.ascends id).unique (.up hparent (h.ascends above))

theorem mem_ancestors_iff (h : tree.Hung) (hparent : tree.parent? id = some above) :
    other ∈ tree.ancestors id ↔ other = above ∨ other ∈ tree.ancestors above := by
  rw [h.ancestors_eq_cons hparent, List.mem_cons]

/-- What holds of the root and passes from a parent to its children holds of every node. -/
theorem induction_down (h : tree.Hung) {P : NodeId → Prop} (root : P tree.root)
    (step : ∀ above below, tree.parent? below = some above → P above → P below) :
    ∀ id, (tree.node? id).isSome → P id := by
  intro id
  induction hindex : id.index using Nat.strongRecOn generalizing id with
  | ind index ih =>
    subst hindex
    intro hlive
    cases hparent : tree.parent? id with
    | none =>
      rw [(h.parentless id hlive).1 hparent]
      exact root
    | some above =>
      exact step above id hparent (ih _ (h.younger_of_parent? hparent).1 above rfl (h.live_above hparent))

/-- The way up ends at the root. -/
theorem getLast?_ancestors (h : tree.Hung) (hlive : (tree.node? id).isSome) :
    (id :: tree.ancestors id).getLast? = some tree.root := by
  refine h.induction_down (P := fun id => (id :: tree.ancestors id).getLast? = some tree.root) ?_ ?_ id hlive
  · rw [h.ancestors_of_none h.parent?_root]
    rfl
  · intro above below hparent ih
    rw [h.ancestors_eq_cons hparent, List.getLast?_cons_cons]
    exact ih

end Hung

theorem Ascends.live (h : tree.Hung) (hascends : tree.Ascends id ids) (hmem : other ∈ ids) :
    (tree.node? other).isSome := by
  induction hascends with
  | top => cases hmem
  | up hparent _ ih =>
    rcases List.mem_cons.1 hmem with rfl | hmem
    · exact h.live_above hparent
    · exact ih hmem

/-- Each node on the way is older than the one before it. -/
theorem Ascends.older (h : tree.Hung) (hascends : tree.Ascends id ids) :
    (id :: ids).Pairwise fun below above => above.index < below.index := by
  induction hascends with
  | top => exact List.pairwise_singleton _ _
  | up hparent _ ih =>
    refine List.pairwise_cons.2 ⟨fun other hother => ?_, ih⟩
    have hyounger := (h.younger_of_parent? hparent).1
    rcases List.mem_cons.1 hother with rfl | hother
    · exact hyounger
    · exact Nat.lt_trans ((List.pairwise_cons.1 ih).1 other hother) hyounger

/-- On one way up there is one child of a node at most. -/
theorem Ascends.child_unique (h : tree.Hung) (hascends : tree.Ascends id ids) {a b : NodeId}
    (ha : a ∈ id :: ids) (hb : b ∈ id :: ids) (habove : tree.parent? a = some above)
    (habove' : tree.parent? b = some above) : a = b := by
  induction hascends with
  | top => rw [List.mem_singleton.1 ha, List.mem_singleton.1 hb]
  | @up id parent ids hparent hrest ih =>
    -- what stands further up than a parent is older than its children
    have hno : ∀ c, c ∈ parent :: ids → tree.parent? c = tree.parent? id → False := fun c hc hsame => by
      have hyounger := (h.younger_of_parent? (hsame.trans hparent)).1
      rcases List.mem_cons.1 hc with rfl | hc
      · exact Nat.lt_irrefl _ hyounger
      · exact Nat.lt_asymm hyounger ((List.pairwise_cons.1 (hrest.older h)).1 c hc)
    rcases List.mem_cons.1 ha with heq | ha <;> rcases List.mem_cons.1 hb with heq' | hb
    · exact heq.trans heq'.symm
    · exact (hno b hb (habove'.trans (heq ▸ habove.symm))).elim
    · exact (hno a ha (habove.trans (heq' ▸ habove'.symm))).elim
    · exact ih ha hb

theorem Hung.older (h : tree.Hung) (hmem : other ∈ tree.ancestors id) : other.index < id.index :=
  (List.pairwise_cons.1 ((h.ascends id).older h)).1 other hmem

/-! ## Descending -/

/-- Taking a node from the stack, and putting its children there if it is live, until the stack is empty
visits these nodes. The first child goes on top. -/
inductive Traverses (tree : IncludeTree) : List NodeId → List NodeId → Prop
  | done : Traverses tree [] []
  | absent {id : NodeId} {stack visited : List NodeId} : tree.node? id = none →
      Traverses tree stack visited → Traverses tree (id :: stack) visited
  | visit {id : NodeId} {node : TreeNode} {stack visited : List NodeId} : tree.node? id = some node →
      Traverses tree (node.children.values ++ stack) visited → Traverses tree (id :: stack) (id :: visited)

namespace Traverses

variable {stack visited visited' : List NodeId}

theorem unique (h : tree.Traverses stack visited) (h' : tree.Traverses stack visited') :
    visited = visited' := by
  induction h generalizing visited' with
  | done =>
    cases h'
    rfl
  | absent hnone _ ih =>
    cases h' with
    | absent _ hrest => exact ih hrest
    | visit hnode => rw [hnone] at hnode; cases hnode
  | visit hnode _ ih =>
    cases h' with
    | absent hnone => rw [hnone] at hnode; cases hnode
    | visit hnode' hrest =>
      rw [hnode] at hnode'
      cases hnode'
      rw [ih hrest]

theorem live (h : tree.Traverses stack visited) : ∀ id ∈ visited, (tree.node? id).isSome := by
  induction h with
  | done => exact fun id hid => by cases hid
  | absent _ _ ih => exact ih
  | visit hnode _ ih =>
    intro id hid
    rcases List.mem_cons.1 hid with rfl | hid
    · rw [hnode]
      rfl
    · exact ih id hid

end Traverses

/-- What is on the stack below a node waits until its subtree is done. -/
theorem Ordered.traverses_descend (h : tree.Ordered) {bound : Nat} {stack visited : List NodeId}
    (hbound : tree.nodes.slots.length ≤ bound + id.index) (hrest : tree.Traverses stack visited) :
    tree.Traverses (id :: stack) (tree.descend bound id ++ visited) := by
  induction bound generalizing id stack visited with
  | zero =>
    refine .absent ?_ hrest
    cases hnode : tree.node? id with
    | none => rfl
    | some node =>
      have hslot := Arena.lt_of_get? _ hnode
      omega
  | succ bound ih =>
    unfold descend
    cases hnode : tree.node? id with
    | none => exact .absent hnode hrest
    | some node =>
      have hbelow : ∀ children : List NodeId, (∀ child ∈ children, id.index < child.index) →
          tree.Traverses (children ++ stack) (children.flatMap (tree.descend bound) ++ visited) := by
        intro children hyounger
        induction children with
        | nil => exact hrest
        | cons child children ihChildren =>
          have hfirst := hyounger child (List.mem_cons_self ..)
          rw [List.flatMap_cons, List.append_assoc]
          refine ih (by omega) (ihChildren fun other hother => ?_)
          exact hyounger other (List.mem_cons_of_mem _ hother)
      exact .visit hnode (hbelow _ fun child hchild => (h id child ⟨node, hnode, hchild⟩).1)

/-- The stack runs empty, and what was visited are the subtrees of the nodes that were on it. -/
theorem Ordered.traverses_flatMap (h : tree.Ordered) (ids : List NodeId) :
    tree.Traverses ids (ids.flatMap tree.subtree) := by
  induction ids with
  | nil => exact .done
  | cons id rest ih => exact h.traverses_descend (Nat.le_add_right ..) ih

theorem Ordered.traverses_subtree (h : tree.Ordered) (id : NodeId) :
    tree.Traverses [id] (tree.subtree id) := by
  have hsingle := h.traverses_flatMap [id]
  rwa [List.flatMap_singleton] at hsingle

/-- A subtree is its node, followed by the subtrees of the children. -/
theorem Ordered.subtree_eq_cons (h : tree.Ordered) {node : TreeNode} (hnode : tree.node? id = some node) :
    tree.subtree id = id :: node.children.values.flatMap tree.subtree := by
  refine (h.traverses_subtree id).unique (.visit hnode ?_)
  rw [List.append_nil]
  exact h.traverses_flatMap _

namespace Hung

/-- A subtree is the node with all live nodes that have it above them. -/
theorem mem_subtree_iff (h : tree.Hung) : other ∈ tree.subtree id ↔
    (tree.node? other).isSome ∧ (other = id ∨ id ∈ tree.ancestors other) := by
  constructor
  · intro hmem
    refine ⟨(h.younger.traverses_subtree id).live other hmem, ?_⟩
    induction hindex : other.index using Nat.strongRecOn generalizing other with
    | ind index ih =>
      subst hindex
      refine (mem_descend_cases hmem).imp_right fun ⟨above, habove, hincludes⟩ => ?_
      have hparent := h.includes_iff.1 hincludes
      rw [h.mem_ancestors_iff hparent]
      exact (ih _ (h.younger_of_parent? hparent).1 habove rfl).imp_left Eq.symm
  · rintro ⟨hlive, hcase⟩
    induction hindex : other.index using Nat.strongRecOn generalizing other with
    | ind index ih =>
      subst hindex
      rcases hcase with rfl | hmem
      · exact mem_subtree_self hlive
      · cases hparent : tree.parent? other with
        | none =>
          rw [h.ancestors_of_none hparent] at hmem
          cases hmem
        | some above =>
          rw [h.mem_ancestors_iff hparent] at hmem
          have habove := ih _ (h.younger_of_parent? hparent).1 (h.live_above hparent) (hmem.imp_left Eq.symm) rfl
          exact (h.younger.parentsFirst_subtree id).mem habove (h.includes_iff.2 hparent) hlive

/-- No node is met twice: the subtrees of two children have nothing in common. -/
theorem nodup_subtree (h : tree.Hung) (id : NodeId) : (tree.subtree id).Nodup := by
  -- children are younger than their parents and the number of slots bounds them
  induction hbound : tree.nodes.slots.length - id.index using Nat.strongRecOn generalizing id with
  | ind bound ih =>
    subst hbound
    cases hnode : tree.node? id with
    | none =>
      have hempty : tree.subtree id = [] := by
        refine (h.younger.traverses_subtree id).unique (.absent hnode .done)
      rw [hempty]
      exact List.nodup_nil
    | some node =>
      have hparent : ∀ child ∈ node.children.values, tree.parent? child = some id := fun child hchild =>
        h.includes_iff.1 ⟨node, hnode, hchild⟩
      have hdistinct := h.distinct id node.children.values (by rw [children?, hnode]; rfl)
      rw [h.younger.subtree_eq_cons hnode]
      refine List.nodup_cons.2 ⟨fun hmem => ?_, List.nodup_flatMap.2 ⟨fun child hchild => ?_, ?_⟩⟩
      · obtain ⟨child, hchild, hbelow⟩ := List.mem_flatMap.1 hmem
        have hyounger := (h.younger_of_parent? (hparent child hchild)).1
        rcases (h.mem_subtree_iff.1 hbelow).2 with rfl | habove
        · exact Nat.lt_irrefl _ hyounger
        · exact Nat.lt_asymm hyounger (h.older habove)
      · have hyounger := h.younger_of_parent? (hparent child hchild)
        exact ih _ (by omega) child rfl
      · refine hdistinct.imp_of_mem fun {a b} ha hb hne other hother hother' => hne ?_
        have hmem : ∀ c, other ∈ tree.subtree c → c ∈ other :: tree.ancestors other := fun c hc =>
          List.mem_cons.2 ((h.mem_subtree_iff.1 hc).2.imp_left Eq.symm)
        exact (h.ascends other).child_unique h (hmem a hother) (hmem b hother') (hparent a ha) (hparent b hb)

/-! ## Walks and scopes -/

theorem walk_map_fst (h : tree.Hung) : tree.walk.map Prod.fst = tree.subtree tree.root := by
  have hlive := (h.younger.traverses_subtree tree.root).live
  rw [walk, List.map_filterMap]
  refine List.filterMap_eq_map_iff_forall_eq_some.2 ?_ |>.trans (List.map_id _)
  intro id hid
  obtain ⟨node, hnode⟩ := Option.isSome_iff_exists.1 (hlive id hid)
  rw [hnode]
  rfl

/-- Every live node is below the root. -/
theorem mem_subtree_root_iff (h : tree.Hung) : id ∈ tree.subtree tree.root ↔ (tree.node? id).isSome :=
  ⟨(h.younger.traverses_subtree tree.root).live id, h.toRooted.mem_subtree⟩

theorem mem_siblings_iff (h : tree.Hung) (hparent : tree.parent? id = some above) :
    other ∈ tree.siblings id ↔ tree.parent? other = some above ∧ other ≠ id := by
  obtain ⟨owner, howner⟩ := Option.isSome_iff_exists.1 (h.live_above hparent)
  have hsiblings : tree.siblings id = owner.children.values.filter (· != id) := by
    rw [siblings, ← parent?, hparent, Option.bind_some, howner]
  rw [hsiblings, List.mem_filter, bne_iff_ne, ← h.includes_iff]
  refine and_congr_left fun _ => ⟨fun hmem => ⟨owner, howner, hmem⟩, ?_⟩
  rintro ⟨node, hnode, hmem⟩
  rw [howner] at hnode
  cases hnode
  exact hmem

theorem siblings_of_none (hnone : tree.parent? id = none) : tree.siblings id = [] := by
  rw [siblings, ← parent?, hnone, Option.bind_none]

/-- A scope selects no node twice. -/
theorem nodup_scopeNodes (h : tree.Hung) (id : NodeId) (scope : Scope) : (tree.scopeNodes id scope).Nodup := by
  cases hnode : tree.node? id with
  | none =>
    rw [scopeNodes, hnode]
    exact List.nodup_nil
  | some node =>
    have hup : (id :: tree.ancestors id).Nodup := ((h.ascends id).older h).imp fun hlt heq => by
      rw [heq] at hlt
      exact Nat.lt_irrefl _ hlt
    rw [scopeNodes, hnode]
    cases scope with
    | node => exact List.nodup_singleton id
    | parent =>
      show (id :: node.parent.toList).Nodup
      cases hparent : node.parent with
      | none => exact List.nodup_singleton id
      | some above =>
        have hyounger := (h.younger_of_parent? ((parent?_eq hnode).trans hparent)).1
        refine List.nodup_cons.2 ⟨fun hmem => ?_, List.nodup_singleton above⟩
        rw [List.mem_singleton.1 hmem] at hyounger
        exact Nat.lt_irrefl _ hyounger
    | ancestors => exact hup
    | ancestorsAndSiblings =>
      cases hparent : tree.parent? id with
      | none =>
        rw [siblings_of_none hparent, List.append_nil]
        exact hup
      | some above =>
        have hsiblings : (tree.siblings id).Nodup := by
          unfold siblings
          split
          · exact List.nodup_nil
          · rename_i owner howner
            obtain ⟨above', _, howner⟩ := Option.bind_eq_some_iff.1 howner
            exact (h.distinct above' _ (by rw [children?, howner]; rfl)).filter _
        show ((id :: tree.ancestors id) ++ tree.siblings id).Nodup
        refine List.nodup_append.2 ⟨hup, hsiblings, fun a ha b hb heq => ?_⟩
        obtain ⟨hsame, hne⟩ := (h.mem_siblings_iff hparent).1 hb
        subst heq
        exact hne ((h.ascends id).child_unique h ha (List.mem_cons_self ..) hsame hparent)
    | all =>
      refine List.nodup_cons.2 ⟨fun hmem => ?_, (h.nodup_subtree _).filter _⟩
      simpa using (List.mem_filter.1 hmem).2

/-- A scope selects no node that is not there. -/
theorem live_of_mem_scopeNodes (h : tree.Hung) {scope : Scope} (hmem : other ∈ tree.scopeNodes id scope) :
    (tree.node? other).isSome := by
  cases hnode : tree.node? id with
  | none =>
    rw [scopeNodes, hnode] at hmem
    cases hmem
  | some node =>
    rw [scopeNodes, hnode] at hmem
    rcases List.mem_cons.1 hmem with rfl | hmem
    · rw [hnode]
      rfl
    · have hup : other ∈ tree.ancestors id → (tree.node? other).isSome := (h.ascends id).live h
      cases scope with
      | node => cases hmem
      | parent =>
        have hparent := Option.mem_toList.1 hmem
        exact h.live_above ((parent?_eq hnode).trans hparent)
      | ancestors => exact hup hmem
      | ancestorsAndSiblings =>
        rcases List.mem_append.1 hmem with hmem | hmem
        · exact hup hmem
        · cases hparent : tree.parent? id with
          | none =>
            rw [siblings_of_none hparent] at hmem
            cases hmem
          | some above => exact isSome_of_parent? ((h.mem_siblings_iff hparent).1 hmem).1
      | all => exact h.mem_subtree_root_iff.1 (List.mem_filter.1 hmem).1

end Hung

/-! ## Parents before children -/

theorem ParentsFirst.of_append {ids' : List NodeId} (h : tree.ParentsFirst (ids ++ ids')) :
    tree.ParentsFirst ids' := by
  induction ids with
  | nil => exact h
  | cons id rest ih => exact ih h.2

/-- In a list that has no node twice, a parent that is listed does not come after its children. -/
theorem Hung.mem_before (h : tree.Hung) {before rest : List NodeId}
    (hfirst : tree.ParentsFirst (before ++ id :: rest)) (hnodup : (before ++ id :: rest).Nodup)
    (hparent : tree.parent? id = some above) (hmem : above ∈ before ++ id :: rest) : above ∈ before := by
  rcases List.mem_append.1 hmem with hbefore | hmem
  · exact hbefore
  · exfalso
    rcases List.mem_cons.1 hmem with rfl | hrest
    · exact Nat.lt_irrefl _ (h.younger_of_parent? hparent).1
    · -- the node would be listed a second time, after its parent
      obtain ⟨early, late, rfl⟩ := List.append_of_mem hrest
      have hlate : tree.ParentsFirst (above :: late) := (ParentsFirst.of_append hfirst).2.of_append
      have hagain := hlate.1 id (h.includes_iff.2 hparent) (isSome_of_parent? hparent)
      have honce := (List.nodup_cons.1 (List.nodup_append.1 hnodup).2.1).1
      exact honce (List.mem_append_right _ (List.mem_cons_of_mem _ hagain))

/-! ## A tree -/

/-- What one may rely on when going through a tree. -/
structure Treelike (tree : IncludeTree) : Prop where
  top : ∃ node, tree.node? tree.root = some node ∧ node.parent = none
  filed : ∀ id node, tree.node? id = some node → id ≠ tree.root →
    ∃ above owner, node.parent = some above ∧ tree.node? above = some owner ∧
      ∀ key, owner.children.get? key = some id ↔ key = node.localName
  /-- Climbing ends, and it ends at the root. -/
  climbs : ∀ id, tree.Ascends id (tree.ancestors id)
  rootwards : ∀ id, (tree.node? id).isSome → (id :: tree.ancestors id).getLast? = some tree.root
  /-- The walk ends and meets every live node once, after its parent. -/
  walks : tree.Traverses [tree.root] (tree.walk.map Prod.fst)
  once : (tree.walk.map Prod.fst).Nodup
  everywhere : ∀ id, id ∈ tree.walk.map Prod.fst ↔ (tree.node? id).isSome
  downwards : ∀ before id rest, tree.walk.map Prod.fst = before ++ id :: rest →
    ∀ above, tree.parent? id = some above → above ∈ before
  /-- A subtree is the node with all that have it above them. -/
  descends : ∀ id, tree.Traverses [id] (tree.subtree id)
  below : ∀ id other, other ∈ tree.subtree id ↔
    (tree.node? other).isSome ∧ (other = id ∨ id ∈ tree.ancestors other)
  scopes : ∀ id scope, (tree.scopeNodes id scope).Nodup

theorem Hung.treelike (h : tree.Hung) : tree.Treelike where
  top := by
    obtain ⟨node, hnode⟩ := Option.isSome_iff_exists.1 h.top
    exact ⟨node, hnode, (parent?_eq hnode).symm.trans h.parent?_root⟩
  filed id node hnode hne := by
    have hlive : (tree.node? id).isSome := by rw [hnode]; rfl
    obtain ⟨above, habove⟩ := h.exists_parent hlive hne
    obtain ⟨owner, howner⟩ := Option.isSome_iff_exists.1 (h.live_above habove)
    refine ⟨above, owner, (parent?_eq hnode).symm.trans habove, howner, fun key => ?_⟩
    rw [← child?_eq howner, h.filed, alias?_eq hnode, Option.some.injEq]
    exact ⟨fun hedge => hedge.2.symm, fun hkey => ⟨habove, hkey.symm⟩⟩
  climbs := h.ascends
  rootwards _ := h.getLast?_ancestors
  walks := by
    rw [h.walk_map_fst]
    exact h.younger.traverses_subtree tree.root
  once := by
    rw [h.walk_map_fst]
    exact h.nodup_subtree tree.root
  everywhere id := by rw [h.walk_map_fst, h.mem_subtree_root_iff]
  downwards before id rest hwalk above hparent := by
    rw [h.walk_map_fst] at hwalk
    have hfirst := h.younger.parentsFirst_subtree tree.root
    have hnodup := h.nodup_subtree tree.root
    have hmem := h.mem_subtree_root_iff.2 (h.live_above hparent)
    rw [hwalk] at hfirst hnodup hmem
    exact h.mem_before hfirst hnodup hparent hmem
  descends := h.younger.traverses_subtree
  below _ _ := h.mem_subtree_iff
  scopes := h.nodup_scopeNodes

end PetriTree.IncludeTree
