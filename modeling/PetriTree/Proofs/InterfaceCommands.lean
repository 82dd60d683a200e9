import PetriTree.Proofs.Registry

/-!
# PetriTree — commands that keep the books

Each command on interface places, and each that changes how nodes hang together, is a change of the ledger
that keeps it sound. What a command has checked by the time it changes anything is what that change asks.

Main results:
* `IncludeTree.Registry` — a rooted tree with sound books;
* `Publishes.ledger`, `ledger_release`, `entry_prune`, `entry_seeded` — what the commands record;
* `Registry.publish`, `Registry.useInterface`, `Registry.dropInterface`, `Registry.withdraw` — the commands
  on interface places;
* `Registry.attach`, `Registry.detach`, `Registry.rename` — the commands on nodes;
* `Registry.edit` — edits of nets that spare interface places.
-/

namespace PetriTree

namespace IncludeTree

variable {tree after : IncludeTree}

/-- A rooted tree with sound books. -/
structure Registry (tree : IncludeTree) : Prop where
  rooted : tree.Rooted
  sound : tree.ledger.Sound

/-! ## What a change of one node records -/

section Modify

variable {id : NodeId} {node : TreeNode} {f : TreeNode → TreeNode} {key : String}

theorem entry_modifyNode_at (hnode : tree.node? id = some node) {e : Option InterfacePlace}
    (hf : ∀ k, (f node).interface.get? k = if k = key then e else node.interface.get? k) (n : NodeId)
    (k : String) : (tree.modifyNode id f).ledger.entry n k =
      if n = id ∧ k = key then e else tree.ledger.entry n k := by
  rw [entry_modifyNode]
  by_cases hn : n = id
  · subst hn
    rw [if_pos rfl, hnode, Option.bind_some, hf, entry_eq hnode]
    simp only [true_and]
  · simp only [hn, if_false, false_and]

theorem standing_modifyNode_at (hnode : tree.node? id = some node) {status : Option PlaceStatus}
    (hf : ∀ k, (f node).net.standing? k = if k = key then status else node.net.standing? k) (n : NodeId)
    (k : String) : (tree.modifyNode id f).ledger.standing n k =
      if n = id ∧ k = key then status else tree.ledger.standing n k := by
  rw [standing_modifyNode]
  by_cases hn : n = id
  · subst hn
    rw [if_pos rfl, hnode, Option.bind_some, hf, standing_eq hnode]
    simp only [true_and]
  · simp only [hn, if_false, false_and]

/-- Marking is a change under one key. -/
theorem entry_modifyNode_mark {entry : InterfacePlace} (hnode : tree.node? id = some node)
    (hentry : node.interface.get? key = some entry) (net : Net) (state : MergeState) (n : NodeId) (k : String) :
    (tree.modifyNode id (TreeNode.mark net key state)).ledger.entry n k =
      if n = id ∧ k = key then some { entry with state := state } else tree.ledger.entry n k := by
  refine entry_modifyNode_at hnode (fun k => ?_) n k
  rw [TreeNode.mark, Table.get?_modify]
  by_cases hk : k = key
  · simp [hk, hentry]
  · simp [hk, Ne.symm hk]

end Modify

theorem mem_scopeNodes_self {id : NodeId} {node : TreeNode} (hnode : tree.node? id = some node)
    (scope : Scope) : id ∈ tree.scopeNodes id scope := by
  rw [scopeNodes, hnode]
  exact List.mem_cons_self ..

/-! ## What the commands record -/

/-- An ordinary place enters the maps that it reaches, and is marked as home. -/
theorem Publishes.ledger {id : NodeId} {place : String} {owner : TreeNode} {found : Place} {net : Net}
    (h : tree.Publishes id place owner found net) :
    tree.ledger.standing id place = none ∧
      (∀ n k, ((tree.announced (awayId owner place) ⟨id, place⟩).setNet id net).ledger.entry n k =
        if (n ∈ tree.scopeNodes id tree.accessScope ∧ (tree.node? n).isSome) ∧ k = awayId owner place then
          some (homeEntry (awayId owner place) ⟨id, place⟩ n)
        else tree.ledger.entry n k) ∧
      ∀ n k, ((tree.announced (awayId owner place) ⟨id, place⟩).setNet id net).ledger.standing n k =
        if n = id ∧ k = place then some { found.status with merge := .home }
        else tree.ledger.standing n k := by
  have hnode := h.live
  have hremaps := remaps_announced tree (awayId owner place) ⟨id, place⟩
  set registered := tree.announced (awayId owner place) ⟨id, place⟩
  -- registering changes maps only, so the net that gets the new status is the one that was looked at
  obtain ⟨owner', howner', hnet⟩ : ∃ owner', registered.node? id = some owner' ∧
      owner'.net = owner.net := by
    have hnet := hremaps.net? id
    rw [IncludeTree.net?, IncludeTree.net?, hnode] at hnet
    exact Option.map_eq_some_iff.1 hnet
  have hpublished : ∀ p, net.standing? p = if p = place then some { found.status with merge := .home }
      else owner'.net.standing? p := fun p => by
    rw [Net.standing?_setStatus h.edited, hnet]
    rfl
  refine ⟨?_, fun n k => ?_, fun n k => ?_⟩
  · simp [standing_eq hnode, Net.standing?, h.held, Option.filter, h.plain]
  · rw [entry_setNet, entry_announced]
  · rw [standing_setNet_at howner' hpublished, hremaps.standing]

/-- No place of the node had the key yet. -/
theorem Takes.standing_eq_none {id : NodeId} {away : String} {consumer : TreeNode} {entry : InterfacePlace}
    {net : Net} (h : tree.Takes id away consumer entry net) : tree.ledger.standing id away = none := by
  rw [standing_eq h.live, Net.standing?, Net.isNode_eq_false h.fresh]
  rfl

/-- Erasing is a change under one key. -/
theorem entry_modifyNode_erase {id : NodeId} {node : TreeNode} {away : String} (hnode : tree.node? id = some node)
    (n : NodeId) (k : String) : (tree.modifyNode id fun node =>
      { node with interface := node.interface.erase away }).ledger.entry n k =
        if n = id ∧ k = away then none else tree.ledger.entry n k := by
  refine entry_modifyNode_at hnode (fun k => ?_) n k
  rw [Table.get?_erase]
  by_cases hk : k = away
  · simp [hk]
  · simp [hk, Ne.symm hk]

namespace Registry

theorem touch (h : tree.Registry) : tree.touch.Registry :=
  ⟨(relabels_touch tree).shape.rooted h.rooted, h.sound⟩

/-- A node keeps its children, and the books stay sound. -/
theorem modifyNode (h : tree.Registry) {id : NodeId} {f : TreeNode → TreeNode}
    (hf : ∀ node, (f node).children.values = node.children.values)
    (hsound : (tree.modifyNode id f).ledger.Sound) : (tree.modifyNode id f).Registry :=
  ⟨(sameShape_modifyNode tree id hf).rooted h.rooted, hsound⟩

/-! ## Publishing and using -/

theorem publish (h : tree.Registry) (id : NodeId) (place : String) : (tree.publish id place).1.Registry := by
  rcases publish_cases tree id place with ⟨_, heq⟩ | ⟨owner, found, net, hpublishes, heq⟩
  · rw [heq]
    exact h
  · rw [heq]
    have hremaps := remaps_announced tree (awayId owner place) ⟨id, place⟩
    obtain ⟨hplain, hentry, hstands⟩ := hpublishes.ledger
    refine ⟨(hremaps.shape.trans (sameShape_setNet _ id net)).rooted h.rooted, ?_⟩
    exact h.sound.publish (fun n => n ∈ tree.scopeNodes id tree.accessScope ∧ (tree.node? n).isSome)
      ⟨mem_scopeNodes_self hpublishes.live _, by rw [hpublishes.live]; rfl⟩ hplain
      (fun n hreached => vacant_iff.1 hpublishes.vacant n hreached.1) rfl hentry hstands

theorem useInterface (h : tree.Registry) {id : NodeId} {away answer : String}
    (hcommand : tree.useInterface id away = .ok (answer, after)) : after.Registry := by
  rcases useInterface_eq_ok hcommand with rfl | ⟨consumer, entry, net, htakes, rfl⟩
  · exact h
  · have hnode := htakes.live
    have hfound : tree.ledger.entry id away = some entry := by rw [entry_eq hnode, htakes.listed]
    obtain ⟨_, _, hadd⟩ := htakes.edited
    refine touch (h.modifyNode (fun _ => rfl) ?_)
    refine h.sound.take hfound htakes.available htakes.standing_eq_none ?_ ?_
      (entry_modifyNode_mark hnode htakes.listed net _)
      (standing_modifyNode_at hnode (Net.standing?_addPlace hadd))
    · rfl
    · rfl

theorem dropInterface (h : tree.Registry) {id : NodeId} {away : String}
    (hcommand : tree.dropInterface id away = .ok after) : after.Registry := by
  obtain ⟨owner, entry, hdrops, hcase⟩ := dropInterface_eq_ok hcommand
  have hnode := hdrops.live
  have hfound : tree.ledger.entry id away = some entry := by rw [entry_eq hnode, hdrops.listed]
  rcases hcase with ⟨huse, place, net, hremove, rfl⟩ | ⟨havailable, rfl⟩
  -- a used entry goes together with the place that stands for it
  · refine touch (h.modifyNode (fun _ => rfl) ?_)
    exact h.sound.giveUp hfound huse (entry_modifyNode_mark hnode hdrops.listed net _)
      (standing_modifyNode_at hnode (Net.standing?_removePlace hremove))
  · refine touch (h.modifyNode (fun _ => rfl) ?_)
    exact h.sound.decline hfound havailable (entry_modifyNode_erase hnode)
      (remaps_modifyNode tree id fun node => node.interface.erase away).standing

end Registry

/-! ## Withdrawing -/

theorem node?_forget (tree : IncludeTree) (away : String) (home : HomeRef) (id : NodeId) :
    (tree.forget away home).node? id = (tree.node? id).map fun node => { node with
      interface := node.interface.filter fun key e => !(key == away && e.home == home) } := by
  rw [node?, forget, Arena.get?_map]
  rfl

theorem remaps_forget (tree : IncludeTree) (away : String) (home : HomeRef) :
    tree.Remaps (tree.forget away home) := by
  refine ⟨rfl, Arena.length_map .., fun id => ?_⟩
  rw [node?_forget, Option.map_map]
  rfl

theorem entry_forget (tree : IncludeTree) (away : String) (home : HomeRef) (id : NodeId) (key : String) :
    (tree.forget away home).ledger.entry id key =
      (tree.ledger.entry id key).filter fun e => !(key == away && e.home == home) := by
  simp only [ledger, node?_forget, Option.bind_map]
  cases tree.node? id with
  | none => rfl
  | some node => exact Table.get?_filter ..

/-- Withdrawing takes the entries for a home out of all maps, and its place becomes an ordinary one. -/
theorem ledger_release {id : NodeId} {node : TreeNode} {away : String} {home : HomeRef} {released : IncludeTree}
    (hnode : tree.node? id = some node)
    (hrelease : (tree.forget away home).release id away home.place = .ok released) :
    tree.SameShape released ∧
      (∀ n k, released.ledger.entry n k =
        (tree.ledger.entry n k).filter fun e => !(k == away && e.home == home)) ∧
      ∀ n k, released.ledger.standing n k =
        if n = id ∧ k = home.place then none else tree.ledger.standing n k := by
  have hremaps := remaps_forget tree away home
  have hforgotten : (tree.forget away home).node? id = some { node with
      interface := node.interface.filter fun key e => !(key == away && e.home == home) } := by
    rw [node?_forget, hnode]
    rfl
  cases hfound : node.net.places.get? home.place with
  -- a place that is gone has no standing
  | none =>
    have hsame : (tree.forget away home).release id away home.place = .ok (tree.forget away home) := by
      simp [release, net?, hforgotten, hfound]
    rw [hsame] at hrelease
    cases hrelease
    refine ⟨hremaps.shape, entry_forget tree away home, fun n k => ?_⟩
    rw [hremaps.standing]
    split
    · rename_i hat
      rw [hat.1, hat.2, standing_eq hnode, Net.standing?, hfound]
      rfl
    · rfl
  | some found =>
    obtain ⟨net, hedit, hset⟩ := release_of_get? hforgotten hfound away
    rw [hset] at hrelease
    cases hrelease
    have hreleased : ∀ p, net.standing? p = if p = home.place then none else node.net.standing? p :=
      Net.standing?_setStatus hedit
    refine ⟨hremaps.shape.trans (sameShape_setNet _ id net), fun n k => ?_, fun n k => ?_⟩
    · rw [entry_setNet, entry_forget]
    · rw [standing_setNet_at hforgotten hreleased, hremaps.standing]

/-- The users of a key, of which the walk misses none. -/
theorem Rooted.mem_users (h : tree.Rooted) {id : NodeId} {key : String} {e : InterfacePlace}
    (he : tree.ledger.entry id key = some e) (huse : e.state = .inUse) : id ∈ tree.users key := by
  obtain ⟨node, hnode, hentry⟩ := entry_eq_some.1 he
  refine List.mem_map.2 ⟨(id, node), List.mem_filter.2 ⟨h.mem_walk hnode, ?_⟩, rfl⟩
  simp [hentry, huse]

/-- A place that can be withdrawn is used nowhere. -/
theorem Rooted.unused (h : tree.Rooted) {id : NodeId} {away : String} {node : TreeNode} {entry : InterfacePlace}
    (hwithdraws : tree.Withdraws id away node entry) {n : NodeId} {e : InterfacePlace}
    (he : tree.ledger.entry n away = some e) : e.state ≠ .inUse := by
  intro huse
  obtain ⟨user, huser, _⟩ := entry_eq_some.1 he
  rw [hwithdraws.unused n (h.mem_users he huse)] at huser
  cases huser

namespace Registry

theorem withdraw (h : tree.Registry) (id : NodeId) (away : String) : (tree.withdraw id away).1.Registry := by
  rcases withdraw_cases tree id away with ⟨_, heq⟩ | ⟨node, e, released, hwithdraws, hrelease, heq⟩
  · rw [heq]
    exact h
  · rw [heq]
    have he : tree.ledger.entry id away = some e := by rw [entry_eq hwithdraws.live, hwithdraws.listed]
    obtain ⟨hshape, hentry, hstands⟩ := ledger_release hwithdraws.live hrelease
    exact touch ⟨hshape.rooted h.rooted, h.sound.withdraw he hwithdraws.home
      (fun n e' => h.rooted.unused hwithdraws) hentry hstands⟩

end Registry

/-! ## Detaching -/

/-- Nodes go with all that they record, and with them the entries that lead to them. -/
theorem entry_prune (tree : IncludeTree) (parent : NodeId) (name : String) (doomed : List NodeId) (n : NodeId)
    (k : String) : (tree.prune parent name doomed).ledger.entry n k =
      if n ∈ doomed then none
      else (tree.ledger.entry n k).filter fun e => !doomed.contains e.home.node := by
  simp only [ledger, node?_prune]
  split
  · rfl
  · cases tree.node? n with
    | none => rfl
    | some found => exact Table.get?_filter ..

theorem standing_prune (tree : IncludeTree) (parent : NodeId) (name : String) (doomed : List NodeId) (n : NodeId)
    (k : String) : (tree.prune parent name doomed).ledger.standing n k =
      if n ∈ doomed then none else tree.ledger.standing n k := by
  simp only [ledger, node?_prune]
  split
  · rfl
  · cases tree.node? n <;> rfl

/-- A node outside a subtree that may go uses nothing that is defined inside it. -/
theorem Rooted.not_mem_of_outsideUses (h : tree.Rooted) {doomed : List NodeId}
    (hnone : tree.outsideUses doomed = [])
    {id : NodeId} {key : String} {e : InterfacePlace} (hid : id ∉ doomed)
    (he : tree.ledger.entry id key = some e) (huse : e.state = .inUse) : e.home.node ∉ doomed := by
  intro hhome
  obtain ⟨node, hnode, hentry⟩ := entry_eq_some.1 he
  rw [outsideUses, List.flatMap_eq_nil_iff] at hnone
  have huses := hnone (id, node) (h.mem_walk hnode)
  simp only [List.contains_iff_mem, hid, if_false, List.map_eq_nil_iff, List.filter_eq_nil_iff] at huses
  exact huses e (Table.mem_values_iff.2 ⟨key, hentry⟩) (by simp [huse, hhome])

namespace Registry

theorem detach (h : tree.Registry) (parent : NodeId) (name : String) :
    (tree.detach parent name).1.Registry := by
  rcases detach_cases tree parent name with ⟨_, heq⟩ | ⟨node, id, hdetaches, heq⟩
  · rw [heq]
    exact h
  · rw [heq]
    have hunused : ∀ n k e, n ∉ tree.subtree id → tree.ledger.entry n k = some e → e.state = .inUse →
        e.home.node ∉ tree.subtree id := fun n k e hn he huse =>
      h.rooted.not_mem_of_outsideUses hdetaches.unused hn he huse
    exact touch ⟨h.rooted.prune hdetaches.live hdetaches.child,
      h.sound.cut hunused (fun n k => entry_prune ..) fun n k => standing_prune ..⟩

/-! ## Renaming and attaching -/

theorem rename (h : tree.Registry) {id : NodeId} {name : String} (hcommand : tree.rename id name = .ok after) :
    after.Registry := by
  have hrelabels := relabels_rename hcommand
  exact ⟨hrelabels.shape.rooted h.rooted, hrelabels.ledger_eq ▸ h.sound⟩

end Registry

/-- A new node without entries adds what its net records. -/
theorem ledger_grow {parent : NodeId} {owner node : TreeNode} {name : String}
    (howner : tree.node? parent = some owner) (hinterface : node.interface = Table.empty) (id : NodeId)
    (key : String) : (tree.grow parent name node).ledger.entry id key = tree.ledger.entry id key ∧
      (tree.grow parent name node).ledger.standing id key =
        if id = tree.nodes.nextId then node.net.standing? key else tree.ledger.standing id key := by
  simp only [ledger, node?_grow_eq howner]
  by_cases hnew : id = tree.nodes.nextId
  -- there was no node under the new id
  · have hnone : tree.node? id = none := by
      cases hnode : tree.node? id with
      | none => rfl
      | some found => exact absurd hnew (ne_nextId hnode)
    rw [if_pos hnew, if_pos hnew, hnone]
    exact ⟨by rw [Option.bind_some, hinterface]; rfl, rfl⟩
  · rw [if_neg hnew, if_neg hnew]
    by_cases hparent : id = parent
    · subst hparent
      rw [if_pos rfl, howner]
      exact ⟨rfl, rfl⟩
    · rw [if_neg hparent]
      exact ⟨rfl, rfl⟩

/-- A node without places marked as home has nothing to register. -/
theorem registerHomes_eq_self {id : NodeId} (h : ∀ place status, tree.ledger.standing id place = some status →
    status.merge ≠ .home) : tree.registerHomes id = tree := by
  unfold registerHomes
  split
  · rfl
  · rename_i node hnode
    have hnone : unregisteredHomes node = [] := by
      rw [unregisteredHomes, List.map_eq_nil_iff, List.filter_eq_nil_iff]
      intro place hplace hmarked
      obtain ⟨key, hkey⟩ := Table.mem_values_iff.1 hplace
      simp only [Bool.and_eq_true, beq_iff_eq] at hmarked
      refine h key place.status ?_ hmarked.1
      rw [standing_eq hnode, Net.standing?_eq_some]
      exact ⟨place, hkey, rfl, by simp [PlaceStatus.isInterface, hmarked.1]⟩
    rw [hnone]
    rfl

/-- The map with an entry for each of several home places, unless it has one for the key. -/
def offered (map : Table InterfacePlace) (entries : List InterfacePlace) : Table InterfacePlace :=
  entries.foldl (fun map e =>
    if map.contains e.awayId then map else map.insert e.awayId { e with state := .available }) map

theorem get?_offered {entries : List InterfacePlace} {map : Table InterfacePlace} {key : String}
    {e : InterfacePlace} (h : (offered map entries).get? key = some e) :
    map.get? key = some e ∨ ∃ e₀ ∈ entries, e₀.awayId = key ∧ e = { e₀ with state := .available } := by
  induction entries generalizing map with
  | nil => exact Or.inl h
  | cons first rest ih =>
    rw [offered, List.foldl_cons, ← offered] at h
    rcases ih h with hfound | ⟨e₀, he₀, hrest⟩
    · split at hfound
      · exact Or.inl hfound
      · rw [Table.get?_insert] at hfound
        split at hfound
        · rename_i hkey
          exact Or.inr ⟨first, List.mem_cons_self .., hkey, (Option.some.inj hfound).symm⟩
        · exact Or.inl hfound
    · exact Or.inr ⟨e₀, List.mem_cons_of_mem _ he₀, hrest⟩

/-- What a node is offered comes from the nodes that have it as their home. -/
theorem entry_seedAvailable {id : NodeId} {node : TreeNode} (hnode : tree.node? id = some node)
    (hempty : node.interface = Table.empty) {key : String} {e : InterfacePlace}
    (he : (tree.seedAvailable id).ledger.entry id key = some e) :
    ∃ home owner e₀, tree.node? home = some owner ∧ e₀ ∈ owner.interface.values ∧ e₀.state = .home ∧
      e₀.awayId = key ∧ e = { e₀ with state := .available } := by
  rw [seedAvailable, entry_modifyNode, if_pos rfl, hnode, Option.bind_some, hempty] at he
  rcases get?_offered he with hfound | ⟨e₀, he₀, hkey, heq⟩
  · cases hfound
  · rw [reachingEntries, List.mem_flatMap] at he₀
    obtain ⟨⟨home, owner⟩, hwalk, hmem⟩ := he₀
    dsimp only at hmem
    split at hmem
    · cases hmem
    · obtain ⟨hvalue, hstate⟩ := List.mem_filter.1 hmem
      simp only [Bool.and_eq_true, beq_iff_eq] at hstate
      exact ⟨home, owner, e₀, (mem_walk.1 hwalk).2, hvalue, hstate.1, hkey, heq⟩

theorem remaps_seedAvailable (tree : IncludeTree) (id : NodeId) : tree.Remaps (tree.seedAvailable id) :=
  remaps_modifyNode tree id _

/-- The tree with a net below one of its nodes, under the names that it has there. -/
def included (tree : IncludeTree) (parent : NodeId) (net : Net) (name : String) : IncludeTree :=
  (tree.grow parent name ⟨name, "", "", "", some parent, Table.empty, net, Table.empty⟩).resolveNames
    tree.nodes.nextId

/-- The same tree with what reaches the new node. The homes of the net are not registered yet. -/
def seeded (tree : IncludeTree) (parent : NodeId) (net : Net) (name : String) : IncludeTree :=
  (tree.included parent net name).seedAvailable tree.nodes.nextId

section Seeded

variable {parent : NodeId} {owner : TreeNode} {net : Net} {name : String}

theorem entry_nextId (tree : IncludeTree) (key : String) : tree.ledger.entry tree.nodes.nextId key = none := by
  cases he : tree.ledger.entry tree.nodes.nextId key with
  | none => rfl
  | some e =>
    obtain ⟨node, hnode, _⟩ := entry_eq_some.1 he
    exact absurd rfl (ne_nextId hnode)

theorem standing_nextId (tree : IncludeTree) (key : String) :
    tree.ledger.standing tree.nodes.nextId key = none := by
  cases hstands : tree.ledger.standing tree.nodes.nextId key with
  | none => rfl
  | some status =>
    obtain ⟨node, hnode, _⟩ := standing_eq_some.1 hstands
    exact absurd rfl (ne_nextId hnode)

theorem ledger_included (howner : tree.node? parent = some owner) (id : NodeId) (key : String) :
    (tree.included parent net name).ledger.entry id key = tree.ledger.entry id key ∧
      (tree.included parent net name).ledger.standing id key =
        if id = tree.nodes.nextId then net.standing? key else tree.ledger.standing id key := by
  rw [included, (relabels_resolveNames ..).ledger_eq]
  exact ledger_grow howner rfl id key

/-- The new node has the net and an empty map. -/
theorem exists_included (net : Net) (name : String) (howner : tree.node? parent = some owner) :
    ∃ node, (tree.included parent net name).node? tree.nodes.nextId = some node ∧ node.net = net ∧
      node.interface = Table.empty := by
  have hcontents := (relabels_resolveNames (tree.grow parent name
    ⟨name, "", "", "", some parent, Table.empty, net, Table.empty⟩) tree.nodes.nextId).contents tree.nodes.nextId
  rw [contents?, contents?, node?_grow_eq howner, if_pos rfl] at hcontents
  obtain ⟨node, hnode, heq⟩ := Option.map_eq_some_iff.1 hcontents
  exact ⟨node, hnode, congrArg Prod.fst heq, congrArg Prod.snd heq⟩

theorem standing_seeded (howner : tree.node? parent = some owner) (id : NodeId) (key : String) :
    (tree.seeded parent net name).ledger.standing id key =
      if id = tree.nodes.nextId then net.standing? key else tree.ledger.standing id key := by
  rw [seeded, (remaps_seedAvailable ..).standing]
  exact (ledger_included howner id key).2

/-- The maps of all other nodes are as they were. -/
theorem entry_seeded (howner : tree.node? parent = some owner) {id : NodeId} (hid : id ≠ tree.nodes.nextId)
    (key : String) : (tree.seeded parent net name).ledger.entry id key = tree.ledger.entry id key := by
  rw [seeded, seedAvailable, entry_modifyNode, if_neg hid]
  exact (ledger_included howner id key).1

/-- The new node is offered what other nodes have as their home. -/
theorem entry_seeded_nextId (howner : tree.node? parent = some owner) {key : String} {e : InterfacePlace}
    (he : (tree.seeded parent net name).ledger.entry tree.nodes.nextId key = some e) :
    ∃ home k e₀, tree.ledger.entry home k = some e₀ ∧ e₀.state = .home ∧ e₀.awayId = key ∧
      e = { e₀ with state := .available } := by
  obtain ⟨node, hnode, _, hempty⟩ := exists_included net name howner
  obtain ⟨home, owner, e₀, hhome, hvalue, hrest⟩ := entry_seedAvailable hnode hempty he
  obtain ⟨k, hk⟩ := Table.mem_values_iff.1 hvalue
  have hlisted := (entry_eq hhome k).trans hk
  exact ⟨home, k, e₀, (ledger_included howner home k).1.symm.trans hlisted, hrest⟩

/-- The new node has the net that was attached. -/
theorem exists_seeded (howner : tree.node? parent = some owner) :
    ∃ node, (tree.seeded parent net name).node? tree.nodes.nextId = some node ∧ node.net = net := by
  obtain ⟨node, hnode, hnet, _⟩ := exists_included net name howner
  have hsame := (remaps_seedAvailable (tree.included parent net name) tree.nodes.nextId).net? tree.nodes.nextId
  rw [IncludeTree.net?, IncludeTree.net?, hnode, Option.map_some] at hsame
  obtain ⟨node', hnode', heq⟩ := Option.map_eq_some_iff.1 hsame
  exact ⟨node', hnode', heq.trans hnet⟩

/-- A net without interface places has no homes to register. -/
theorem registerHomes_seeded (howner : tree.node? parent = some owner)
    (hplain : ∀ place, net.standing? place = none) :
    (tree.seeded parent net name).registerHomes tree.nodes.nextId = tree.seeded parent net name := by
  refine registerHomes_eq_self fun place status hstatus => ?_
  rw [standing_seeded howner, if_pos rfl, hplain] at hstatus
  cases hstatus

theorem Rooted.seeded (h : tree.Rooted) (howner : tree.node? parent = some owner)
    (hfree : owner.children.contains name = false) : (tree.seeded parent net name).Rooted := by
  refine ((relabels_resolveNames ..).shape.trans (remaps_seedAvailable ..).shape).rooted ?_
  exact h.grow howner rfl hfree

end Seeded

namespace Registry

theorem attach (h : tree.Registry) {parent id : NodeId} {net : Net} {name : String}
    (hplain : ∀ place, net.standing? place = none)
    (hcommand : tree.attach parent net name = .ok (id, after)) : after.Registry := by
  obtain ⟨owner, howner, _, hfree, rfl, rfl⟩ := attach_eq_ok hcommand
  have hstays : ∀ n k, (tree.seeded parent net name).ledger.standing n k = tree.ledger.standing n k := by
    intro n k
    rw [standing_seeded howner]
    split
    · rename_i hn
      rw [hn, hplain, standing_nextId]
    · rfl
  show ((tree.seeded parent net name).registerHomes tree.nodes.nextId).touch.Registry
  rw [registerHomes_seeded howner hplain]
  refine touch ⟨h.rooted.seeded howner hfree, ?_⟩
  refine h.sound.offer (entry_nextId tree) (fun n k hn => entry_seeded howner hn k) hstays
    (standing_nextId tree) fun k e he => ?_
  obtain ⟨home, k₀, e₀, he₀, hstate, hkey, rfl⟩ := entry_seeded_nextId howner he
  -- an entry is filed under its away id
  have hfiled : k₀ = k := (h.sound.keyed home k₀ e₀ he₀).symm.trans hkey
  exact ⟨hkey, rfl, home, e₀, hfiled ▸ he₀, hstate, rfl⟩

end Registry

/-- An edit that spares interface places is not recorded. -/
theorem ledger_edit {id : NodeId} {net after : Net} {edit : NetEdit} {removed : Option Component}
    (hnet : tree.net? id = some net) (hspares : edit.Spares net)
    (hedit : net.perform edit = .ok (removed, after)) : (tree.setNet id after).ledger = tree.ledger := by
  obtain ⟨node, hnode, rfl⟩ := Option.map_eq_some_iff.1 hnet
  have hstanding : ∀ n place, (tree.setNet id after).ledger.standing n place =
      tree.ledger.standing n place := by
    intro n place
    rw [standing_setNet hnode]
    split
    · rename_i hn
      rw [hn, standing_eq hnode, Net.standing?_perform hspares hedit]
    · rfl
  have hentry := funext₂ (entry_setNet tree id after)
  have hstands := funext₂ hstanding
  cases hafter : (tree.setNet id after).ledger
  cases hbefore : tree.ledger
  simp_all

namespace Registry

theorem edit (h : tree.Registry) {id : NodeId} {net after : Net} {edit : NetEdit} {removed : Option Component}
    (hnet : tree.net? id = some net) (hspares : edit.Spares net)
    (hedit : net.perform edit = .ok (removed, after)) : (tree.setNet id after).Registry :=
  ⟨(sameShape_setNet tree id after).rooted h.rooted, ledger_edit hnet hspares hedit ▸ h.sound⟩

theorem withAccessScope (h : tree.Registry) (scope : Scope) : (tree.withAccessScope scope).Registry :=
  ⟨⟨h.rooted.younger, h.rooted.held⟩, h.sound⟩

end Registry

end IncludeTree

end PetriTree
