import PetriTree.Proofs.NetEdit
import PetriTree.Tree.Command

/-!
# PetriTree — commands that are accepted

A command on a tree looks at nodes, maps and nets, and changes them when nothing stands against it. For each
command it is stated once what it has found by then and which tree it leaves. Whatever else is known of
trees made by commands rests on these statements and not on the order of the checks.

Main results:
* `register_eq_ok`, `registerHomes_induction` — places that enter the maps, one and several;
* `publish_cases`, `useInterface_eq_ok`, `dropInterface_eq_ok`, `withdraw_cases` — the commands on interface
  places;
* `attach_eq_ok`, `rename_eq_ok`, `detach_cases` — the commands on nodes.

A command that answers with a tree in either case is read as a case analysis: a refusal leaves the tree that
was there.
-/

namespace PetriTree

theorem ConflictReport.orElse_eq_ok {conflicts : List Conflict} {value found : α} :
    ConflictReport.orElse conflicts value = .ok found ↔ conflicts = [] ∧ value = found := by
  cases conflicts <;> simp [ConflictReport.orElse]

/-- A place that is there can be given any status. -/
theorem Net.setStatus_of_get? {net : Net} {id : String} {place : Place} (h : net.places.get? id = some place)
    (status : PlaceStatus) : ∃ after, net.setStatus id status = .ok after := by
  simp only [Net.setStatus, Net.place, h, NetError.required]
  exact ⟨_, rfl⟩

/-- The node with another net, and with one entry of its map in another state. -/
def TreeNode.mark (net : Net) (away : String) (state : MergeState) (node : TreeNode) : TreeNode :=
  { node with net := net, interface := node.interface.modify away fun e => { e with state := state } }

namespace IncludeTree

variable {tree after : IncludeTree} {id : NodeId} {place away : String}

theorem ofEdit_eq_ok {component : String} {result : Except NetError α} {value : α} :
    ofEdit component result = .ok value ↔ result = .ok value := by
  cases result <;> simp [ofEdit, Conflict.only]

theorem requireNode_eq_ok {node : TreeNode} : tree.requireNode id = .ok node ↔ tree.node? id = some node := by
  unfold requireNode
  split <;> simp_all [Conflict.only]

theorem problems_eq_nil {ids : List NodeId} {check : TreeNode → Option Conflict} :
    tree.problems ids check = [] ↔ ∀ id ∈ ids, ∀ node, tree.node? id = some node → check node = none := by
  simp only [problems, List.filterMap_eq_nil_iff, Option.bind_eq_none_iff]

/-! ## Entering the maps -/

/-- No node of the list has an entry under the key. -/
def Vacant (tree : IncludeTree) (key : String) (targets : List NodeId) : Prop :=
  ∀ id ∈ targets, ∀ node, tree.node? id = some node → node.interface.contains key = false

/-- Enters an entry, which may depend on the node, in the maps of several nodes. -/
def enter (tree : IncludeTree) (key : String) (entry : NodeId → InterfacePlace) (targets : List NodeId) :
    IncludeTree :=
  targets.foldl (fun tree target => tree.modifyNode target fun node =>
    { node with interface := node.interface.insert key (entry target) }) tree

/-- What a node has in its map for a place: its home knows it as such, to others it is available. -/
def homeEntry (key : String) (home : HomeRef) (target : NodeId) : InterfacePlace :=
  ⟨key, home, if target = home.node then .home else .available⟩

/-- The tree with a place entered in every map the access scope reaches from its node. -/
def announced (tree : IncludeTree) (key : String) (home : HomeRef) : IncludeTree :=
  (tree.enter key (homeEntry key home) (tree.scopeNodes home.node tree.accessScope)).touch

/-- A place is registered where no map has an entry under its away id yet. -/
theorem register_eq_ok {key : String} : tree.register id place = .ok (key, after) ↔
    ∃ owner, tree.node? id = some owner ∧ key = awayId owner place ∧
      tree.Vacant key (tree.scopeNodes id tree.accessScope) ∧ after = tree.announced key ⟨id, place⟩ := by
  have hvacant : ∀ owner : TreeNode, (tree.problems (tree.scopeNodes id tree.accessScope) fun node =>
      if node.interface.contains (awayId owner place) then
        some (.entryPublished node.qualifiedName (awayId owner place)) else none) = [] ↔
      tree.Vacant (awayId owner place) (tree.scopeNodes id tree.accessScope) := fun owner => by
    simp [problems_eq_nil, Vacant]
  simp only [register, bind_eq_ok, pure_eq_ok, requireNode_eq_ok, ConflictReport.orElse_eq_ok, hvacant]
  constructor
  · rintro ⟨owner, howner, _, ⟨hfree, _⟩, heq⟩
    cases heq
    exact ⟨owner, howner, rfl, hfree, rfl⟩
  · rintro ⟨owner, howner, rfl, hfree, rfl⟩
    exact ⟨owner, howner, (), ⟨hfree, trivial⟩, rfl⟩

/-! ## Registering homes -/

/-- The tree with a place registered, or as it was if that is refused. -/
def tryRegister (tree : IncludeTree) (id : NodeId) (place : String) : IncludeTree :=
  match tree.register id place with
  | .ok (_, tree) => tree
  | .error _ => tree

theorem tryRegister_cases (tree : IncludeTree) (id : NodeId) (place : String) :
    (∃ owner, tree.node? id = some owner ∧
        tree.Vacant (awayId owner place) (tree.scopeNodes id tree.accessScope) ∧
        tree.tryRegister id place = tree.announced (awayId owner place) ⟨id, place⟩) ∨
      (∀ owner, tree.node? id = some owner →
        ¬tree.Vacant (awayId owner place) (tree.scopeNodes id tree.accessScope)) ∧
        tree.tryRegister id place = tree := by
  unfold tryRegister
  cases hregister : tree.register id place with
  | ok answer =>
    obtain ⟨key, after⟩ := answer
    obtain ⟨owner, howner, rfl, hvacant, hafter⟩ := register_eq_ok.1 hregister
    exact Or.inl ⟨owner, howner, hvacant, hafter⟩
  | error report =>
    refine Or.inr ⟨fun owner howner hvacant => ?_, rfl⟩
    rw [register_eq_ok.2 ⟨owner, howner, rfl, hvacant, rfl⟩] at hregister
    cases hregister

theorem registerHomes_eq {owner : TreeNode} (howner : tree.node? id = some owner) :
    tree.registerHomes id = (unregisteredHomes owner).foldl (fun now place => now.tryRegister id place) tree := by
  rw [registerHomes, howner]
  rfl

/-- What holds of the tree and of every tree with one home more holds after all homes were registered. -/
theorem registerHomes_induction {P : IncludeTree → Prop} (start : P tree)
    (step : ∀ owner, tree.node? id = some owner → ∀ place ∈ unregisteredHomes owner,
      ∀ now, P now → P (now.tryRegister id place)) : P (tree.registerHomes id) := by
  cases howner : tree.node? id with
  | none =>
    rw [registerHomes, howner]
    exact start
  | some owner =>
    rw [registerHomes_eq howner]
    exact List.foldlRecOn _ _ start fun now hnow place hplace => step owner howner place hplace now hnow

/-! ## Publishing and using -/

/-- An ordinary place of a node can become an interface place. -/
structure Publishes (tree : IncludeTree) (id : NodeId) (place : String) (owner : TreeNode) (found : Place)
    (net : Net) : Prop where
  live : tree.node? id = some owner
  held : owner.net.places.get? place = some found
  plain : found.status.isInterface = false
  vacant : tree.Vacant (awayId owner place) (tree.scopeNodes id tree.accessScope)
  edited : owner.net.setStatus place { found.status with merge := .home } = .ok net

theorem publish_cases (tree : IncludeTree) (id : NodeId) (place : String) :
    (∃ report, tree.publish id place = (tree, .error report)) ∨
      ∃ owner found net, tree.Publishes id place owner found net ∧ tree.publish id place =
        ((tree.announced (awayId owner place) ⟨id, place⟩).setNet id net, .ok (awayId owner place)) := by
  unfold publish
  split
  · exact Or.inl ⟨_, rfl⟩
  · rename_i net status hpublishable
    split
    · exact Or.inl ⟨_, rfl⟩
    · rename_i away registered hregister
      simp only [publishable, Conflict.only, guard_eq_ok, bind_eq_ok, pure_eq_ok, requireNode_eq_ok,
        ofEdit_eq_ok] at hpublishable
      obtain ⟨owner, howner, found, hfound, hplain, heq⟩ := hpublishable
      cases heq
      obtain ⟨owner', howner', rfl, hvacant, rfl⟩ := register_eq_ok.1 hregister
      rw [howner] at howner'
      cases howner'
      have hheld := Net.required_eq_ok.1 hfound
      -- the place was looked up, so the edit of its status is not refused
      obtain ⟨net, hedit⟩ := Net.setStatus_of_get? hheld { found.status with merge := .home }
      refine Or.inr ⟨owner, found, net, ⟨howner, hheld, by simpa using hplain, hvacant, hedit⟩, ?_⟩
      rw [hedit]
      rfl

/-- A node takes an interface place that is available to it. -/
structure Takes (tree : IncludeTree) (id : NodeId) (away : String) (consumer : TreeNode) (entry : InterfacePlace)
    (net : Net) : Prop where
  live : tree.node? id = some consumer
  listed : consumer.interface.get? away = some entry
  available : entry.state = .available
  fresh : consumer.net.isNode away = false
  edited : ∃ home : Place,
    ((tree.net? entry.home.node).bind fun net => net.places.get? entry.home.place) = some home ∧
      consumer.net.addPlace ⟨away, Table.empty, home.capacity,
        { PlaceStatus.plain with merge := .inUse, home := some entry.home }⟩ = .ok net

theorem useInterface_eq_ok {answer : String} (h : tree.useInterface id away = .ok (answer, after)) :
    after = tree ∨ ∃ consumer entry net, tree.Takes id away consumer entry net ∧
      after = (tree.modifyNode id (TreeNode.mark net away .inUse)).touch := by
  rw [useInterface, bind_eq_ok] at h
  obtain ⟨consumer, hconsumer, h⟩ := h
  have hnode := requireNode_eq_ok.1 hconsumer
  split at h
  · cases h
  · rename_i entry hentry
    split at h
    -- a place in use is only answered, and one that is not available is refused
    · cases h
      exact Or.inl rfl
    · cases h
    · cases h
    · cases h
    · rename_i hstate
      simp only [Conflict.only, guard_eq_ok] at h
      obtain ⟨hfree, h⟩ := h
      split at h
      · cases h
      · rename_i home hhome
        simp only [bind_eq_ok, pure_eq_ok, ofEdit_eq_ok] at h
        obtain ⟨net, hedit, heq⟩ := h
        cases heq
        exact Or.inr ⟨consumer, entry, net, ⟨hnode, hentry, hstate, by simpa using hfree, home, hhome, hedit⟩,
          rfl⟩

/-- A node has an entry that nothing in its net refers to. -/
structure Drops (tree : IncludeTree) (id : NodeId) (away : String) (owner : TreeNode) (entry : InterfacePlace) :
    Prop where
  live : tree.node? id = some owner
  listed : owner.interface.get? away = some entry
  unreferenced : owner.net.references away = []

/-- Giving up a used place leaves the offer standing, and giving up an offer ends it. -/
theorem dropInterface_eq_ok (h : tree.dropInterface id away = .ok after) :
    ∃ owner entry, tree.Drops id away owner entry ∧
      ((entry.state = .inUse ∧ ∃ place net, owner.net.removePlace away = .ok (place, net) ∧
          after = (tree.modifyNode id (TreeNode.mark net away .available)).touch) ∨
        (entry.state = .available ∧ after = (tree.modifyNode id fun node =>
          { node with interface := node.interface.erase away }).touch)) := by
  rw [dropInterface, bind_eq_ok] at h
  obtain ⟨owner, howner, h⟩ := h
  have hnode := requireNode_eq_ok.1 howner
  split at h
  · cases h
  · rename_i entry hentry
    simp only [Conflict.only, guard_eq_ok, bind_eq_ok, ConflictReport.orElse_eq_ok, List.map_eq_nil_iff] at h
    obtain ⟨hstate, _, ⟨hnone, _⟩, h⟩ := h
    refine ⟨owner, entry, ⟨hnode, hentry, hnone⟩, ?_⟩
    split at h
    · rename_i huse
      simp only [bind_eq_ok, pure_eq_ok, ofEdit_eq_ok] at h
      obtain ⟨⟨place, net⟩, hedit, rfl⟩ := h
      exact Or.inl ⟨by simpa using huse, place, net, hedit, rfl⟩
    · rename_i huse
      cases h
      simp only [Bool.and_eq_true, bne_iff_ne, ne_eq, not_and, not_not] at hstate
      exact Or.inr ⟨hstate (by simpa using huse), rfl⟩

/-! ## Withdrawing -/

/-- A node has a home entry that no node in the walk uses. -/
structure Withdraws (tree : IncludeTree) (id : NodeId) (away : String) (node : TreeNode)
    (entry : InterfacePlace) : Prop where
  live : tree.node? id = some node
  listed : node.interface.get? away = some entry
  home : entry.state = .home
  unused : ∀ user ∈ tree.users away, tree.node? user = none

theorem withdrawable_eq_ok {home : HomeRef} (h : tree.withdrawable id away = .ok home) :
    ∃ node entry, tree.Withdraws id away node entry ∧ entry.home = home := by
  unfold withdrawable at h
  split at h
  · cases h
  · rename_i entry hentry
    obtain ⟨node, hnode, hentry⟩ := Option.bind_eq_some_iff.1 hentry
    simp only [Conflict.only, guard_eq_ok, bind_eq_ok, pure_eq_ok, ConflictReport.orElse_eq_ok,
      problems_eq_nil] at h
    obtain ⟨hstate, _, ⟨hnone, _⟩, rfl⟩ := h
    refine ⟨node, entry, ⟨hnode, hentry, by simpa using hstate, fun user huser => ?_⟩, rfl⟩
    cases hfound : tree.node? user with
    | none => rfl
    | some found => cases hnone user huser found hfound

/-- A place that is there is released. -/
theorem release_of_get? {node : TreeNode} {found : Place} (hnode : tree.node? id = some node)
    (hfound : node.net.places.get? place = some found) (away : String) :
    ∃ net, node.net.setStatus place { found.status with merge := .noOp } = .ok net ∧
      tree.release id away place = .ok (tree.setNet id net) := by
  obtain ⟨net, hedit⟩ := Net.setStatus_of_get? hfound { found.status with merge := .noOp }
  refine ⟨net, hedit, ?_⟩
  simp only [release, net?, hnode, Option.map_some, hfound, hedit]
  rfl

/-- The place of a withdrawn entry becomes an ordinary one, unless it is gone. -/
theorem release_cases (tree : IncludeTree) (id : NodeId) (away place : String) :
    tree.release id away place = .ok tree ∨ ∃ node found net, tree.node? id = some node ∧
      node.net.places.get? place = some found ∧
      node.net.setStatus place { found.status with merge := .noOp } = .ok net ∧
      tree.release id away place = .ok (tree.setNet id net) := by
  cases hnode : tree.node? id with
  | none => exact Or.inl (by simp [release, net?, hnode])
  | some node =>
    cases hfound : node.net.places.get? place with
    | none => exact Or.inl (by simp [release, net?, hnode, hfound])
    | some found =>
      obtain ⟨net, hedit, hrelease⟩ := release_of_get? hnode hfound away
      exact Or.inr ⟨node, found, net, rfl, hfound, hedit, hrelease⟩

theorem withdraw_cases (tree : IncludeTree) (id : NodeId) (away : String) :
    (∃ report, tree.withdraw id away = (tree, .error report)) ∨
      ∃ node entry released, tree.Withdraws id away node entry ∧
        (tree.forget away entry.home).release id away entry.home.place = .ok released ∧
        tree.withdraw id away = (released.touch, .ok ()) := by
  unfold withdraw
  split
  · exact Or.inl ⟨_, rfl⟩
  · rename_i home hwithdrawable
    obtain ⟨node, entry, hwithdraws, rfl⟩ := withdrawable_eq_ok hwithdrawable
    -- the entries are gone by now, so the last step must not be refused
    obtain ⟨released, hrelease⟩ : ∃ released,
        (tree.forget away entry.home).release id away entry.home.place = .ok released := by
      rcases release_cases (tree.forget away entry.home) id away entry.home.place with h | ⟨_, _, _, _, _, _, h⟩
      · exact ⟨_, h⟩
      · exact ⟨_, h⟩
    refine Or.inr ⟨node, entry, released, hwithdraws, hrelease, ?_⟩
    dsimp only
    rw [hrelease]

/-! ## Nodes -/

/-- The tree with a new node below one of its nodes. -/
def grow (tree : IncludeTree) (parent : NodeId) (name : String) (node : TreeNode) : IncludeTree :=
  modifyNode { tree with nodes := tree.nodes.alloc node } parent fun above =>
    { above with children := above.children.insert name tree.nodes.nextId }

/-- A net is attached as a new node, which gets its names, what is available to it, and its homes, in this
order. -/
theorem attach_eq_ok {parent : NodeId} {net : Net} {name : String}
    (h : tree.attach parent net name = .ok (id, after)) :
    ∃ owner, tree.node? parent = some owner ∧ isAlias name = true ∧ owner.children.contains name = false ∧
      id = tree.nodes.nextId ∧ after = ((((tree.grow parent name
        ⟨name, "", "", "", some parent, Table.empty, net, Table.empty⟩).resolveNames id).seedAvailable
        id).registerHomes id).touch := by
  unfold attach at h
  split at h
  · cases h
  · rename_i owner howner
    simp only [Conflict.only, guard_eq_ok, pure_eq_ok] at h
    obtain ⟨halias, hfree, h⟩ := h
    cases h
    exact ⟨owner, howner, by simpa using halias, by simpa using hfree, rfl, rfl⟩

/-- The tree with a node under another alias, and all names below it recomputed. -/
def called (tree : IncludeTree) (id : NodeId) (name : String) : IncludeTree :=
  ((tree.modifyNode id fun node => { node with localName := name }).resolveSubtree id).touch

/-- Below another node the alias is that node's key as well. -/
theorem rename_eq_ok {name : String} (h : tree.rename id name = .ok after) :
    ∃ node, tree.node? id = some node ∧ isAlias name = true ∧
      ((node.parent = none ∧ after = tree.called id name) ∨
        ∃ parent, node.parent = some parent ∧ after = (tree.modifyNode parent fun above =>
          { above with children := above.children.rename node.localName name }).called id name) := by
  simp only [rename, Conflict.only, guard_eq_ok, bind_eq_ok, requireNode_eq_ok] at h
  obtain ⟨node, hnode, halias, h⟩ := h
  refine ⟨node, hnode, by simpa using halias, ?_⟩
  split at h
  · rename_i hroot
    cases h
    exact Or.inl ⟨hroot, rfl⟩
  · rename_i parent hparent
    rw [guard_eq_ok] at h
    obtain ⟨_, h⟩ := h
    cases h
    exact Or.inr ⟨parent, hparent, rfl⟩

/-- A subtree hangs below a node, and no other node uses anything that is defined in it. -/
structure Detaches (tree : IncludeTree) (parent : NodeId) (name : String) (node : TreeNode) (id : NodeId) :
    Prop where
  live : tree.node? parent = some node
  child : node.children.get? name = some id
  unused : tree.outsideUses (tree.subtree id) = []

theorem detach_cases (tree : IncludeTree) (parent : NodeId) (name : String) :
    (∃ report, tree.detach parent name = (tree, .error report)) ∨
      ∃ node id, tree.Detaches parent name node id ∧
        (tree.detach parent name).1 = (tree.prune parent name (tree.subtree id)).touch := by
  unfold detach
  split
  · exact Or.inl ⟨_, rfl⟩
  · rename_i id hdetachable
    unfold detachable at hdetachable
    split at hdetachable
    · cases hdetachable
    · rename_i child hchild
      obtain ⟨hnone, rfl⟩ := ConflictReport.orElse_eq_ok.1 hdetachable
      obtain ⟨node, hnode, hname⟩ := Option.bind_eq_some_iff.1 hchild
      refine Or.inr ⟨node, child, ⟨hnode, hname, hnone⟩, ?_⟩
      dsimp only
      split <;> rfl

/-! ## All commands -/

/-- A command that is refused before it changes anything keeps what it keeps when it is accepted. -/
theorem settled_keeps {P : IncludeTree → Prop} {wrap : α → TreeAnswer}
    {result : Except ConflictReport (α × IncludeTree)} (h : P tree)
    (hok : ∀ answer after, result = .ok (answer, after) → P after) : P (tree.settled wrap result).1 := by
  cases result with
  | error report => exact h
  | ok outcome => exact hok outcome.1 outcome.2 rfl

theorem settledDone_keeps {P : IncludeTree → Prop} {result : Except ConflictReport IncludeTree} (h : P tree)
    (hok : ∀ after, result = .ok after → P after) : P (tree.settledDone result).1 := by
  refine settled_keeps h fun answer after hafter => ?_
  obtain ⟨_, hresult, heq⟩ := map_eq_ok.1 hafter
  cases heq
  exact hok after hresult

end IncludeTree

end PetriTree
