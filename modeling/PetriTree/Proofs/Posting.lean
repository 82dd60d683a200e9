import PetriTree.Proofs.InterfaceCommands

/-!
# PetriTree — homes that a net brings along

A net may come into a tree with places that are marked as home already. They are registered one after the
other, and one whose key is taken anywhere in its scope is passed over. Registering one place could get in the
way of the next, but no two places of a node have the same key: what becomes of each is settled by the maps as
they were before the first.

Main results:
* `Remaps.scopeNodes`, `Remaps.awayId_eq` — scopes and keys do not depend on maps;
* `IncludeTree.Posts` — which places were registered and which were passed over, `Posts.register`,
  `Posts.registerAll` — one more, and a list of them;
* `posts_registerHomes` — what is registered for a node.
-/

namespace PetriTree.IncludeTree

variable {tree after start : IncludeTree} {id : NodeId} {owner : TreeNode} {done : List String}

theorem awayId_injective (node : TreeNode) : Function.Injective (awayId node) := by
  intro place place' h
  have hlist := congrArg String.toList h
  simp only [awayId, String.toList_append] at hlist
  exact String.toList_inj.1 (List.append_cancel_left hlist)

/-! ## What does not depend on maps -/

namespace Remaps

theorem exists_before (h : tree.Remaps after) {node : TreeNode} (hnode : after.node? id = some node) :
    ∃ old, tree.node? id = some old ∧ old.bare = node.bare := by
  have hnodes := h.nodes id
  rw [hnode, Option.map_some] at hnodes
  exact Option.map_eq_some_iff.1 hnodes.symm

theorem parent (h : tree.Remaps after) (id : NodeId) :
    (after.node? id).bind TreeNode.parent = (tree.node? id).bind TreeNode.parent := by
  have hparent := congrArg (Option.bind · fun above => above) (h.map_eq TreeNode.parent (fun _ => rfl) id)
  simpa only [Option.bind_map, Function.comp_def] using hparent

theorem climb (h : tree.Remaps after) (bound : Nat) (id : NodeId) :
    after.climb bound id = tree.climb bound id := by
  induction bound generalizing id with
  | zero => rfl
  | succ bound ih =>
    rw [IncludeTree.climb, h.parent, IncludeTree.climb]
    split
    · rfl
    · rw [ih]

theorem siblings (h : tree.Remaps after) (id : NodeId) : after.siblings id = tree.siblings id := by
  unfold IncludeTree.siblings
  rw [h.parent]
  cases (tree.node? id).bind TreeNode.parent with
  | none => rfl
  | some above =>
    have hchildren := h.map_eq (fun node => node.children.values) (fun _ => rfl) above
    simp only [Option.bind_some]
    cases hbefore : tree.node? above with
    | none =>
      rw [hbefore] at hchildren
      rw [Option.map_eq_none_iff.1 hchildren]
    | some node =>
      rw [hbefore] at hchildren
      obtain ⟨node', hnode', hsame⟩ := Option.map_eq_some_iff.1 hchildren
      rw [hnode']
      exact congrArg (List.filter (· != id)) hsame

/-- A scope selects the same nodes. -/
theorem scopeNodes (h : tree.Remaps after) (id : NodeId) (scope : Scope) :
    after.scopeNodes id scope = tree.scopeNodes id scope := by
  have hparent := h.parent id
  unfold IncludeTree.scopeNodes
  cases hafter : after.node? id with
  | none =>
    have hbefore := h.shape.isSome id
    rw [hafter] at hbefore
    have hnone : tree.node? id = none := Option.not_isSome_iff_eq_none.1 (by rw [← hbefore]; decide)
    rw [hnone]
  | some node =>
    obtain ⟨old, hold, hbare⟩ := h.exists_before hafter
    rw [hafter, hold] at hparent
    rw [hold]
    have hsame : node.parent = old.parent := hparent
    simp only [IncludeTree.ancestors, h.length, h.climb, h.siblings, h.shape.subtree, h.root, hsame]

end Remaps

theorem Remaps.awayId_eq (h : tree.Remaps after) {now : TreeNode} (howner : tree.node? id = some owner)
    (hnow : after.node? id = some now) : awayId now = awayId owner := by
  obtain ⟨old, hold, hbare⟩ := h.exists_before hnow
  rw [howner] at hold
  cases hold
  have hsame : owner.bare.qualifiedName = now.bare.qualifiedName := congrArg _ hbare
  change owner.qualifiedName = now.qualifiedName at hsame
  funext place
  rw [awayId, awayId, hsame]

theorem accessScope_enter (tree : IncludeTree) (key : String) (entry : NodeId → InterfacePlace)
    (targets : List NodeId) : (tree.enter key entry targets).accessScope = tree.accessScope := by
  induction targets generalizing tree with
  | nil => rfl
  | cons first rest ih => exact ih _

/-! ## Registering several places -/

/-- The nodes that know of the places of a node. -/
def reach (tree : IncludeTree) (id : NodeId) : List NodeId := tree.scopeNodes id tree.accessScope

/-- The places of `done` were registered for a node, those apart whose keys were taken somewhere in its
scope. -/
structure Posts (start : IncludeTree) (id : NodeId) (owner : TreeNode) (done : List String) (tree : IncludeTree) :
    Prop where
  remaps : start.Remaps tree
  scope : tree.accessScope = start.accessScope
  posted : ∀ place ∈ done, start.Vacant (awayId owner place) (start.reach id) →
    ∀ n ∈ start.reach id, (start.node? n).isSome →
      tree.ledger.entry n (awayId owner place) = some (homeEntry (awayId owner place) ⟨id, place⟩ n)
  kept : ∀ n key, (∀ place ∈ done, key = awayId owner place →
    ¬(n ∈ start.reach id ∧ start.Vacant key (start.reach id))) →
      tree.ledger.entry n key = start.ledger.entry n key

namespace Posts

theorem nil (start : IncludeTree) (id : NodeId) (owner : TreeNode) : Posts start id owner [] start where
  remaps := .refl start
  scope := rfl
  posted place hplace := by cases hplace
  kept n key _ := rfl

theorem reach_eq (h : Posts start id owner done tree) : tree.reach id = start.reach id := by
  rw [reach, h.scope, h.remaps.scopeNodes, reach]

/-- A place that is still to come finds its key taken exactly where it was taken at the start. -/
theorem vacant_iff_start (h : Posts start id owner done tree) {place : String} (hnew : place ∉ done) :
    tree.Vacant (awayId owner place) (tree.reach id) ↔ start.Vacant (awayId owner place) (start.reach id) := by
  have hkept : ∀ n, tree.ledger.entry n (awayId owner place) = start.ledger.entry n (awayId owner place) :=
    fun n => h.kept n _ fun place' hplace' hkey =>
      absurd (awayId_injective owner hkey ▸ hplace') hnew
  simp only [vacant_iff, h.reach_eq, hkept]

/-- A place that was registered is not registered again. -/
theorem vacant_start (h : Posts start id owner done tree) (howner : start.node? id = some owner) {place : String}
    (hvacant : tree.Vacant (awayId owner place) (tree.reach id)) :
    place ∉ done ∧ start.Vacant (awayId owner place) (start.reach id) := by
  rw [vacant_iff, h.reach_eq] at hvacant
  have hnew : place ∉ done := by
    intro hdone
    by_cases hstart : start.Vacant (awayId owner place) (start.reach id)
    · have hself := mem_scopeNodes_self howner start.accessScope
      have hposted := h.posted place hdone hstart id hself (by rw [howner]; rfl)
      rw [hvacant id hself] at hposted
      cases hposted
    -- where the key was taken at the start nothing has changed
    · refine hstart (vacant_iff.2 fun n hn => ?_)
      rw [← h.kept n _ fun _ _ _ hfree => hstart hfree.2]
      exact hvacant n hn
  exact ⟨hnew, (h.vacant_iff_start hnew).1 (vacant_iff.2 (h.reach_eq ▸ hvacant))⟩

/-- A place whose key was free at the start is registered. The places before it keep their entries, as they have
other keys. -/
theorem announced (h : Posts start id owner done tree) {place : String} (hnew : place ∉ done)
    (hfree : start.Vacant (awayId owner place) (start.reach id)) :
    Posts start id owner (done ++ [place]) (tree.announced (awayId owner place) ⟨id, place⟩) := by
  have hentry : ∀ n k, (tree.announced (awayId owner place) ⟨id, place⟩).ledger.entry n k =
      if (n ∈ start.reach id ∧ (start.node? n).isSome) ∧ k = awayId owner place then
        some (homeEntry (awayId owner place) ⟨id, place⟩ n)
      else tree.ledger.entry n k := by
    intro n k
    rw [entry_announced, ← h.reach_eq, ← h.remaps.shape.isSome]
    rfl
  refine ⟨h.remaps.trans (remaps_announced ..), (accessScope_enter ..).trans h.scope,
    fun p hp hstart n hn hlive => ?_, fun n k hk => ?_⟩
  · rw [hentry]
    rcases List.mem_append.1 hp with hp | hp
    · have hother : awayId owner p ≠ awayId owner place := fun hkey =>
        hnew (awayId_injective owner hkey ▸ hp)
      rw [if_neg fun hat => hother hat.2]
      exact h.posted p hp hstart n hn hlive
    · cases List.mem_singleton.1 hp
      rw [if_pos ⟨⟨hn, hlive⟩, rfl⟩]
  · rw [hentry]
    split
    · rename_i hat
      exact absurd ⟨hat.1.1, hat.2 ▸ hfree⟩ (hk place (by simp) hat.2)
    · exact h.kept n k fun p hp => hk p (List.mem_append_left _ hp)

/-- A place that is passed over was registered before, or its key was taken at the start. -/
theorem passed (h : Posts start id owner done tree) {place : String}
    (htaken : place ∉ done → ¬start.Vacant (awayId owner place) (start.reach id)) :
    Posts start id owner (done ++ [place]) tree := by
  refine ⟨h.remaps, h.scope, fun p hp hstart => ?_, fun n k hk => ?_⟩
  · have hdone : p ∈ done := by
      by_contra hnot
      cases List.mem_singleton.1 ((List.mem_append.1 hp).resolve_left hnot)
      exact htaken hnot hstart
    exact h.posted p hdone hstart
  · exact h.kept n k fun p hp => hk p (List.mem_append_left _ hp)

/-- One more place is registered or passed over. -/
theorem register (h : Posts start id owner done tree) (howner : start.node? id = some owner) (place : String) :
    Posts start id owner (done ++ [place]) (tree.tryRegister id place) := by
  rcases tryRegister_cases tree id place with ⟨now, hnow, hvacant, heq⟩ | ⟨htaken, heq⟩ <;> rw [heq]
  · rw [h.remaps.awayId_eq howner hnow] at hvacant ⊢
    obtain ⟨hnew, hfree⟩ := h.vacant_start howner hvacant
    exact h.announced hnew hfree
  · refine h.passed fun hnew hfree => ?_
    obtain ⟨now, hnow⟩ := Option.isSome_iff_exists.1
      ((h.remaps.shape.isSome id).trans (by rw [howner]; rfl))
    have hvacant := (h.vacant_iff_start hnew).2 hfree
    rw [← h.remaps.awayId_eq howner hnow] at hvacant
    exact htaken now hnow hvacant

theorem registerAll (h : Posts start id owner done tree) (howner : start.node? id = some owner)
    (places : List String) :
    Posts start id owner (done ++ places) (places.foldl (fun now place => now.tryRegister id place) tree) := by
  induction places generalizing done tree with
  | nil => simpa using h
  | cons place rest ih => simpa using ih (h.register howner place)

end Posts

/-- What is registered for a node are the homes of its net whose names no entry of its map has yet. -/
theorem posts_registerHomes (howner : tree.node? id = some owner) :
    Posts tree id owner (unregisteredHomes owner) (tree.registerHomes id) := by
  rw [registerHomes_eq howner]
  exact (Posts.nil tree id owner).registerAll howner _

end PetriTree.IncludeTree
