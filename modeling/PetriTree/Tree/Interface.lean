import PetriTree.Tree.Conflict
import PetriTree.Tree.Naming

/-!
# PetriTree — the interface between nets

A place enters the interface at its home node and becomes available in the nodes the access scope
reaches. A node uses it through a place of its own, which carries the away id and is merged into the
home place once the nets are joined.

* `publish`, `withdraw` — a place enters and leaves the interface;
* `useInterface`, `dropInterface` — a node starts and stops using one;
* `execute` — an edit of the interface maps of several nodes at once;
* `registerHomes`, `seedAvailable` — what including a net adds to the maps.

A command that makes its last check before its first change answers with the tree after it or with a
report. One that can still be refused in between answers with both, the tree as it is then.
-/

namespace PetriTree

/-- An edit of the interface map of a node. -/
inductive MapCommand where
  | add (entry : InterfacePlace)
  | rename (old new : String)
  | update (entry : InterfacePlace)
deriving DecidableEq

def MapCommand.key : MapCommand → String
  | add entry | update entry => entry.awayId
  | rename old _ => old

namespace IncludeTree

/-- The node with an id, which has to exist. -/
def requireNode (tree : IncludeTree) (id : NodeId) : Except ConflictReport TreeNode :=
  match tree.node? id with
  | some node => .ok node
  | none => (Conflict.unknownNode id).only

/-- The result of an edit of a net, a refusal becoming a conflict about `component`. -/
def ofEdit (component : String) : Except NetError α → Except ConflictReport α
  | .ok value => .ok value
  | .error cause => (Conflict.refusedEdit cause component).only

def problems (tree : IncludeTree) (ids : List NodeId) (check : TreeNode → Option Conflict) :
    List Conflict :=
  ids.filterMap fun id => (tree.node? id).bind check

/-! ## Publishing -/

/-- The id under which a place of a node enters the interface. -/
def awayId (node : TreeNode) (place : String) : String := node.qualifiedName ++ "." ++ place

/-- Registers a place at its home node and in every node the access scope reaches. -/
def register (tree : IncludeTree) (home : NodeId) (place : String) :
    Except ConflictReport (String × IncludeTree) := do
  let owner ← tree.requireNode home
  let id := awayId owner place
  let targets := tree.scopeNodes home tree.accessScope
  ConflictReport.orElse (tree.problems targets fun node =>
    if node.interface.contains id then some (.entryPublished node.qualifiedName id) else none) ()
  let entry (target : NodeId) : InterfacePlace :=
    ⟨id, ⟨home, place⟩, if target = home then .home else .available⟩
  let tree := targets.foldl (fun tree target => tree.modifyNode target fun node =>
    { node with interface := node.interface.insert id (entry target) }) tree
  return (id, tree.touch)

/-- The net of a node and the status of its place that is to be published. -/
def publishable (tree : IncludeTree) (id : NodeId) (place : String) :
    Except ConflictReport (Net × PlaceStatus) := do
  let owner ← tree.requireNode id
  let found ← ofEdit place (owner.net.place place)
  if found.status.isInterface then (Conflict.alreadyInterface place).only
  return (owner.net, found.status)

/-- Makes a place of a node's net an interface place. -/
def publish (tree : IncludeTree) (id : NodeId) (place : String) :
    IncludeTree × Except ConflictReport String :=
  match tree.publishable id place with
  | .error report => (tree, .error report)
  | .ok (net, status) =>
    match tree.register id place with
    | .error report => (tree, .error report)
    | .ok (away, tree) =>
      -- registering touched the maps only, so the net is still the one that was looked at
      match ofEdit place (net.setStatus place { status with merge := .home }) with
      | .error report => (tree, .error report)
      | .ok net => (tree.setNet id net, .ok away)

/-- The places of a net that are marked as home and that no entry of its node names yet. -/
def unregisteredHomes (node : TreeNode) : List String :=
  (node.net.places.values.filter fun p => p.status.merge == .home &&
    node.interface.values.all fun e => e.home.place != p.id).map Place.id

/-- Registers the places that a net already marks as home; one that collides is passed over. -/
def registerHomes (tree : IncludeTree) (id : NodeId) : IncludeTree :=
  match tree.node? id with
  | none => tree
  | some node =>
    (unregisteredHomes node).foldl (fun tree place =>
      match tree.register id place with
      | .ok (_, tree) => tree
      | .error _ => tree) tree

/-- The entries of home places whose access scope reaches a node. -/
def reachingEntries (tree : IncludeTree) (id : NodeId) : List InterfacePlace :=
  tree.walk.flatMap fun (home, owner) =>
    if home = id then []
    else owner.interface.values.filter fun e =>
      e.state == .home && (tree.scopeNodes home tree.accessScope).contains id

/-- Makes available to a node every home place that reaches it; entries it has already stay. -/
def seedAvailable (tree : IncludeTree) (id : NodeId) : IncludeTree :=
  let entries := tree.reachingEntries id
  tree.modifyNode id fun node => { node with
    interface := entries.foldl (fun map e =>
      if map.contains e.awayId then map else map.insert e.awayId { e with state := .available })
      node.interface }

/-! ## Using -/

/-- The net of a node with a place that stands for an interface place. -/
def useInterface (tree : IncludeTree) (id : NodeId) (away : String) :
    Except ConflictReport (String × IncludeTree) := do
  let consumer ← tree.requireNode id
  match consumer.interface.get? away with
  | none => (Conflict.notVisible consumer.qualifiedName away).only
  | some entry =>
    match entry.state with
    -- using a place twice changes nothing
    | .inUse => return (away, tree)
    | .home => (Conflict.ownPlace away).only
    | .noOp | .away => (Conflict.unexpectedState entry.state away).only
    | .available =>
      -- the place in the using net will carry the away id
      if consumer.net.isNode away then (Conflict.idTaken away).only
      match (tree.net? entry.home.node).bind fun net => net.places.get? entry.home.place with
      | none => (Conflict.homeGone away).only
      | some home =>
        let net ← ofEdit away (consumer.net.addPlace
          ⟨away, Table.empty, home.capacity, { PlaceStatus.plain with merge := .inUse, home := some entry.home }⟩)
        let tree := tree.modifyNode id fun node => { node with
          net := net
          interface := node.interface.modify away fun e => { e with state := .inUse } }
        return (away, tree.touch)

/-- Takes an interface place away from a node: a used one becomes available again, an available one
disappears. Refused while anything in the net refers to the place. -/
def dropInterface (tree : IncludeTree) (id : NodeId) (away : String) :
    Except ConflictReport IncludeTree := do
  let owner ← tree.requireNode id
  match owner.interface.get? away with
  | none => (Conflict.noEntry away).only
  | some entry =>
    if entry.state != .inUse && entry.state != .available then
      (Conflict.notRemovable entry.state away).only
    ConflictReport.orElse ((owner.net.references away).map (.referenced away)) ()
    -- giving up a used place leaves the offer standing; giving up an offer ends it
    if entry.state == .inUse then
      let (_, net) ← ofEdit away (owner.net.removePlace away)
      return (tree.modifyNode id fun node => { node with
        net := net
        interface := node.interface.modify away fun e => { e with state := .available } }).touch
    else
      return (tree.modifyNode id fun node =>
        { node with interface := node.interface.erase away }).touch

/-- The nodes that use the interface place with an away id. -/
def users (tree : IncludeTree) (away : String) : List NodeId :=
  (tree.walk.filter fun e => (e.2.interface.get? away).any fun entry => entry.state == .inUse).map
    Prod.fst

/-- The home place of the entry that is to be withdrawn, which must not be in use. -/
def withdrawable (tree : IncludeTree) (home : NodeId) (away : String) : Except ConflictReport HomeRef := do
  match (tree.node? home).bind fun node => node.interface.get? away with
  | none => (Conflict.notHome away).only
  | some entry =>
    if entry.state != .home then (Conflict.notHome away).only
    ConflictReport.orElse (tree.problems (tree.users away) fun user =>
      some (.stillUsed user.qualifiedName away)) ()
    return entry.home

/-- The tree without the entries for a home place under an away id. -/
def forget (tree : IncludeTree) (away : String) (home : HomeRef) : IncludeTree :=
  { tree with nodes := tree.nodes.map fun _ node => { node with
      interface := node.interface.filter fun key e => !(key == away && e.home == home) } }

/-- Makes the home place of a withdrawn entry an ordinary place; one that is gone needs no change. -/
def release (tree : IncludeTree) (id : NodeId) (away place : String) : Except ConflictReport IncludeTree :=
  match tree.net? id with
  | none => .ok tree
  | some net =>
    match net.places.get? place with
    | none => .ok tree
    | some found => do
      let net ← ofEdit away (net.setStatus place { found.status with merge := .noOp })
      return tree.setNet id net

/-- Takes a place out of the interface at its home node. Refused while any node uses it. -/
def withdraw (tree : IncludeTree) (home : NodeId) (away : String) :
    IncludeTree × Except ConflictReport Unit :=
  match tree.withdrawable home away with
  | .error report => (tree, .error report)
  | .ok entryHome =>
    -- the entries go first, in every node, and stay gone if the place cannot be released
    let tree := tree.forget away entryHome
    match tree.release home away entryHome.place with
    | .error report => (tree, .error report)
    | .ok tree => (tree.touch, .ok ())

/-! ## Editing maps -/

/-- What stands against a command in one node. -/
def commandProblem (command : MapCommand) (node : TreeNode) : Option Conflict :=
  match command with
  | .add entry =>
    if node.interface.contains entry.awayId then some (.entryExists node.qualifiedName entry.awayId)
    else none
  | .update entry =>
    if node.interface.contains entry.awayId then none
    else some (.nothingToUpdate node.qualifiedName entry.awayId)
  | .rename old new =>
    match node.interface.get? old with
    | none => some (.nothingToRename node.qualifiedName old)
    | some entry =>
      if node.interface.contains new then some (.entryCollides node.qualifiedName new)
      -- only the entry of a used place has a component that must follow
      else if entry.state != .inUse then none
      else if !node.net.places.contains old then some (.placeMissing node.qualifiedName old)
      else if node.net.isNode new then some (.componentCollides node.qualifiedName new)
      else none

/-- A node with its map edited; the place of a used entry follows a new name. -/
def applyCommand (command : MapCommand) (node : TreeNode) : Except ConflictReport TreeNode :=
  match command with
  | .add entry | .update entry =>
    .ok { node with interface := node.interface.insert entry.awayId entry }
  | .rename old new =>
    match node.interface.get? old with
    | none => .ok node
    | some entry => do
      let net ← if entry.state == .inUse then ofEdit old (node.net.renamePlace old new) else .ok node.net
      return { node with
        net := net
        interface := (node.interface.rename old new).modify new fun e => { e with awayId := new } }

/-- Edits the maps of the nodes one after the other, up to the first that refuses. -/
def applyAll (command : MapCommand) : List NodeId → IncludeTree → IncludeTree × Except ConflictReport Unit
  | [], tree => (tree, .ok ())
  | id :: rest, tree =>
    match tree.node? id with
    | none => applyAll command rest tree
    | some node =>
      match applyCommand command node with
      -- the nodes before this one keep their edits
      | .error report => (tree, .error report)
      | .ok node => applyAll command rest (tree.modifyNode id fun _ => node)

/-- The nodes a command is for, none of which must stand against it. -/
def commandTargets (tree : IncludeTree) (id : NodeId) (scope : Scope) (command : MapCommand) :
    Except ConflictReport (List NodeId) := do
  let targets := tree.scopeNodes id scope
  if targets.isEmpty then (Conflict.unknownNode id).only
  ConflictReport.orElse (tree.problems targets (commandProblem command)) targets

/-- Edits the maps of every node a scope selects, after all of them were checked. -/
def execute (tree : IncludeTree) (id : NodeId) (scope : Scope) (command : MapCommand) :
    IncludeTree × Except ConflictReport Unit :=
  match tree.commandTargets id scope command with
  | .error report => (tree, .error report)
  | .ok targets =>
    match applyAll command targets tree with
    | (tree, .error report) => (tree, .error report)
    | (tree, .ok ()) => (tree.touch, .ok ())

end IncludeTree

end PetriTree
