import PetriTree.Proofs.Traversal

/-!
# PetriTree — aliases on the way down

A node can be told by the aliases on the way from the root down to it. Unlike its id, this does not depend on
when the node came into the tree, and unlike its name not on who was there before it. How far a scope reaches
can be read off the aliases as well.

Main results:
* `IncludeTree.route`, `Hung.route_injective` — the aliases on the way to a node, and that they tell it;
* `Hung.prefix_route_iff` — the nodes above one are those that its route passes;
* `Hung.mem_scopeNodes_iff` — a scope selects nodes by their routes;
* `route_kept` — nodes that hang as before have their routes from before.
-/

namespace PetriTree

/-- Does the scope select, from the node at the end of one route, the node at the end of another? -/
def Scope.Covers : Scope → List String → List String → Prop
  | node, home, route => route = home
  | parent, home, route => route = home ∨ ∃ name, home = route ++ [name]
  | ancestors, home, route => route <+: home
  | ancestorsAndSiblings, home, route =>
    route <+: home ∨ ∃ above name other, home = above ++ [name] ∧ route = above ++ [other]
  | all, _, _ => True

namespace Scope

/-- A scope that selects a node selects the node above it as well, if it did not have to come down to it. -/
theorem Covers.above {scope : Scope} {home above : List String} {name : String}
    (h : scope.Covers home (above ++ [name])) (haside : ¬above ++ [name] <+: home) : scope.Covers home above := by
  cases scope with
  | node => exact absurd (h ▸ List.prefix_rfl) haside
  | parent =>
    rcases h with heq | ⟨last, hlast⟩
    · exact absurd (heq ▸ List.prefix_rfl) haside
    · exact absurd ⟨_, hlast.symm⟩ haside
  | ancestors => exact absurd h haside
  | ancestorsAndSiblings =>
    rcases h with hprefix | ⟨parent, last, other, rfl, hother⟩
    · exact absurd hprefix haside
    · rw [(List.append_inj' hother rfl).1]
      exact Or.inl (List.prefix_append ..)
  | all => trivial

end Scope

namespace IncludeTree

variable {tree after : IncludeTree} {id above other : NodeId} {name : String}

/-- The aliases on the way from the root down to a node, without that of the root. -/
def route (tree : IncludeTree) (id : NodeId) : List String :=
  ((id :: tree.ancestors id).dropLast.filterMap tree.alias?).reverse

theorem exists_alias_of_parent? (hparent : tree.parent? id = some above) : ∃ name, tree.alias? id = some name := by
  obtain ⟨node, hnode⟩ := Option.isSome_iff_exists.1 (isSome_of_parent? hparent)
  exact ⟨node.localName, alias?_eq hnode⟩

theorem isSome_of_alias? (halias : tree.alias? id = some name) : (tree.node? id).isSome := by
  obtain ⟨node, hnode, _⟩ := Option.map_eq_some_iff.1 halias
  exact Option.isSome_of_eq_some hnode

namespace Hung

theorem route_root (h : tree.Hung) : tree.route tree.root = [] := by
  rw [route, h.ancestors_of_none h.parent?_root]
  rfl

theorem route_below (h : tree.Hung) (hparent : tree.parent? id = some above) (halias : tree.alias? id = some name) :
    tree.route id = tree.route above ++ [name] := by
  rw [route, h.ancestors_eq_cons hparent, List.dropLast_cons_cons, List.filterMap_cons, halias]
  exact List.reverse_cons

theorem route_eq_nil_iff (h : tree.Hung) (hlive : (tree.node? id).isSome) : tree.route id = [] ↔ id = tree.root := by
  constructor
  · intro hnil
    cases hparent : tree.parent? id with
    | none => exact (h.parentless id hlive).1 hparent
    | some above =>
      obtain ⟨name, halias⟩ := exists_alias_of_parent? hparent
      rw [h.route_below hparent halias] at hnil
      exact absurd hnil (List.append_ne_nil_of_right_ne_nil _ (List.cons_ne_nil _ _))
  · rintro rfl
    exact h.route_root

/-- A route that goes on has a node at its end that hangs below the one before. -/
theorem exists_above_of_route (h : tree.Hung) (hlive : (tree.node? id).isSome) {rest : List String}
    (hroute : tree.route id = rest ++ [name]) :
    ∃ above, tree.parent? id = some above ∧ tree.route above = rest ∧ tree.alias? id = some name := by
  cases hparent : tree.parent? id with
  | none =>
    rw [(h.parentless id hlive).1 hparent, h.route_root] at hroute
    exact absurd hroute.symm (List.append_ne_nil_of_right_ne_nil _ (List.cons_ne_nil _ _))
  | some above =>
    obtain ⟨name', halias⟩ := exists_alias_of_parent? hparent
    rw [h.route_below hparent halias] at hroute
    obtain ⟨hrest, hname⟩ := List.append_inj' hroute rfl
    exact ⟨above, rfl, hrest, List.singleton_inj.1 hname ▸ halias⟩

/-- A route leads to one node only: below a node there is one for each alias. -/
theorem route_injective (h : tree.Hung) : ∀ id, (tree.node? id).isSome → ∀ other, (tree.node? other).isSome →
    tree.route other = tree.route id → other = id := by
  refine h.induction_down (fun other hother hroute => ?_) fun above id hparent ih other hother hroute => ?_
  · exact (h.route_eq_nil_iff hother).1 (hroute.trans h.route_root)
  · obtain ⟨name, halias⟩ := exists_alias_of_parent? hparent
    rw [h.route_below hparent halias] at hroute
    obtain ⟨above', hparent', hsame, halias'⟩ := h.exists_above_of_route hother hroute
    -- both hang below the same node, which has one child under the alias
    rw [ih above' (h.live_above hparent') hsame] at hparent'
    have hfiled := (h.filed above name id).2 ⟨hparent, halias⟩
    rw [(h.filed above name other).2 ⟨hparent', halias'⟩] at hfiled
    exact Option.some.inj hfiled

theorem route_inj (h : tree.Hung) (hlive : (tree.node? id).isSome) (hother : (tree.node? other).isSome) :
    tree.route other = tree.route id ↔ other = id :=
  ⟨h.route_injective id hlive other hother, fun heq => heq ▸ rfl⟩

/-- The route of a node passes those above it. -/
theorem prefix_route_iff (h : tree.Hung) (hother : (tree.node? other).isSome) : ∀ id, (tree.node? id).isSome →
    (tree.route other <+: tree.route id ↔ other = id ∨ other ∈ tree.ancestors id) := by
  refine h.induction_down ?_ fun above id hparent ih => ?_
  · rw [h.route_root, List.prefix_nil, h.route_eq_nil_iff hother, h.ancestors_of_none h.parent?_root]
    simp
  · obtain ⟨name, halias⟩ := exists_alias_of_parent? hparent
    have hself := h.route_inj (isSome_of_parent? hparent) hother
    rw [h.route_below hparent halias] at hself ⊢
    rw [List.prefix_concat_iff, ih, hself, h.mem_ancestors_iff hparent]

/-- Where a route passes there is a node. -/
theorem exists_of_prefix_route (h : tree.Hung) : ∀ id, (tree.node? id).isSome → ∀ route, route <+: tree.route id →
    ∃ other, (tree.node? other).isSome ∧ tree.route other = route := by
  refine h.induction_down (fun route hprefix => ?_) fun above id hparent ih route hprefix => ?_
  · rw [h.route_root, List.prefix_nil] at hprefix
    exact ⟨tree.root, h.top, h.route_root.trans hprefix.symm⟩
  · obtain ⟨name, halias⟩ := exists_alias_of_parent? hparent
    rw [h.route_below hparent halias, List.prefix_concat_iff, ← h.route_below hparent halias] at hprefix
    rcases hprefix with rfl | hprefix
    · exact ⟨id, isSome_of_parent? hparent, rfl⟩
    · exact ih route hprefix

/-- A scope selects nodes by their routes. -/
theorem mem_scopeNodes_iff (h : tree.Hung) (hlive : (tree.node? id).isSome) (hother : (tree.node? other).isSome)
    (scope : Scope) : other ∈ tree.scopeNodes id scope ↔ scope.Covers (tree.route id) (tree.route other) := by
  obtain ⟨node, hnode⟩ := Option.isSome_iff_exists.1 hlive
  have hself := h.route_inj hlive hother
  have hup := h.prefix_route_iff hother id hlive
  rw [scopeNodes, hnode, List.mem_cons]
  cases scope with
  | node =>
    rw [Scope.Covers, hself]
    simp
  | parent =>
    rw [Scope.Covers, hself, Option.mem_toList, ← parent?_eq hnode]
    refine or_congr_right ⟨fun hparent => ?_, ?_⟩
    · obtain ⟨name, halias⟩ := exists_alias_of_parent? hparent
      exact ⟨name, h.route_below hparent halias⟩
    · rintro ⟨name, hroute⟩
      obtain ⟨above, hparent, hsame, _⟩ := h.exists_above_of_route hlive hroute
      exact (h.route_inj hother (h.live_above hparent)).1 hsame ▸ hparent
  | ancestors => rw [Scope.Covers, hup]
  | ancestorsAndSiblings =>
    rw [Scope.Covers, hup, List.mem_append, ← or_assoc]
    -- siblings are told by routes that differ in the last alias
    constructor
    · refine Or.imp_right fun hsibling => ?_
      cases hparent : tree.parent? id with
      | none =>
        rw [siblings_of_none hparent] at hsibling
        cases hsibling
      | some above =>
        have hparent' := ((h.mem_siblings_iff hparent).1 hsibling).1
        obtain ⟨name, halias⟩ := exists_alias_of_parent? hparent
        obtain ⟨name', halias'⟩ := exists_alias_of_parent? hparent'
        exact ⟨_, name, name', h.route_below hparent halias, h.route_below hparent' halias'⟩
    · rintro (hmem | ⟨rest, name, name', hroute, hroute'⟩)
      · exact Or.inl hmem
      · obtain ⟨above, hparent, hsame, _⟩ := h.exists_above_of_route hlive hroute
        obtain ⟨above', hparent', hsame', _⟩ := h.exists_above_of_route hother hroute'
        have heq := h.route_injective above (h.live_above hparent) above' (h.live_above hparent')
          (hsame'.trans hsame.symm)
        by_cases hid : other = id
        · exact Or.inl (Or.inl hid)
        · exact Or.inr ((h.mem_siblings_iff hparent).2 ⟨heq ▸ hparent', hid⟩)
  | all =>
    refine iff_of_true ?_ trivial
    by_cases hid : other = id
    · exact Or.inl hid
    · exact Or.inr (List.mem_filter.2 ⟨h.mem_subtree_root_iff.2 hother, by simpa using hid⟩)

end Hung

/-- Nodes that hang as before, under their aliases from before, have the same routes. -/
theorem route_kept (h : tree.Hung) (h' : after.Hung) (hroot : after.root = tree.root)
    (hparent : ∀ id, (tree.node? id).isSome → after.parent? id = tree.parent? id)
    (halias : ∀ id, (tree.node? id).isSome → after.alias? id = tree.alias? id) :
    ∀ id, (tree.node? id).isSome → after.route id = tree.route id := by
  refine h.induction_down ?_ fun above id hup ih => ?_
  · rw [h.route_root, ← hroot, h'.route_root]
  · have hlive := isSome_of_parent? hup
    obtain ⟨name, hname⟩ := exists_alias_of_parent? hup
    rw [h.route_below hup hname, h'.route_below ((hparent id hlive).trans hup) ((halias id hlive).trans hname), ih]

end IncludeTree

end PetriTree
