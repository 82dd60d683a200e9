import PetriTree.Tree.Interface

/-!
# PetriTree — including nets

* `IncludeTree.new` — the tree of a single net;
* `IncludeTree.attach` — a net attached below a node;
* `IncludeTree.detach` — a subtree detached, unless what it defines is used outside it;
* `IncludeTree.rename` — a node under a new alias.
-/

namespace PetriTree.IncludeTree

/-- The root id: that of the first slot. -/
def rootId : NodeId := ⟨0⟩

/-- The tree whose only node holds `net`. -/
def new (net : Net) (name : String) : IncludeTree :=
  registerHomes ⟨Arena.empty.alloc ⟨name, name, name, "", none, Table.empty, net, Table.empty⟩, rootId,
    Scope.standard, 0⟩ rootId

def withAccessScope (tree : IncludeTree) (scope : Scope) : IncludeTree := { tree with accessScope := scope }

def isAlias (text : String) : Bool := !text.isEmpty && !text.toList.contains '.'

/-- Attaches `net` below a node. -/
def attach (tree : IncludeTree) (parent : NodeId) (net : Net) (name : String) :
    Except ConflictReport (NodeId × IncludeTree) := do
  match tree.node? parent with
  | none => (Conflict.unknownParent parent).only
  | some owner =>
    if !isAlias name then (Conflict.badAlias name).only
    if owner.children.contains name then (Conflict.aliasTaken owner.qualifiedName name).only
    let id := tree.nodes.nextId
    let tree := { tree with
      nodes := tree.nodes.alloc ⟨name, "", "", "", some parent, Table.empty, net, Table.empty⟩ }
    let tree := tree.modifyNode parent fun node => { node with children := node.children.insert name id }
    -- home places are registered under the qualified name, so the names come first
    return (id, (((tree.resolveNames id).seedAvailable id).registerHomes id).touch)

/-- The uses, outside a subtree, of interface places that are defined inside it. -/
def outsideUses (tree : IncludeTree) (doomed : List NodeId) : List Conflict :=
  tree.walk.flatMap fun (id, node) =>
    if doomed.contains id then []
    else (node.interface.values.filter fun e => e.state == .inUse && doomed.contains e.home.node).map
      fun e => .usedOutside node.qualifiedName e.awayId

/-- The node included under an alias, unless a node outside its subtree uses an interface place that
is defined inside it. -/
def detachable (tree : IncludeTree) (parent : NodeId) (name : String) : Except ConflictReport NodeId :=
  match (tree.node? parent).bind fun node => node.children.get? name with
  | none => (Conflict.noInclude name).only
  | some id => ConflictReport.orElse (tree.outsideUses (tree.subtree id)) id

/-- The tree without a subtree, which is included under an alias, and without any entry that leads
into it. -/
def prune (tree : IncludeTree) (parent : NodeId) (name : String) (doomed : List NodeId) : IncludeTree :=
  let tree := tree.modifyNode parent fun node => { node with children := node.children.erase name }
  let nodes := tree.nodes.map fun _ node => { node with
    interface := node.interface.filter fun _ e => !doomed.contains e.home.node }
  { tree with nodes := doomed.foldl Arena.remove nodes }

/-- Detaches the subtree included under an alias and hands back its net. -/
def detach (tree : IncludeTree) (parent : NodeId) (name : String) :
    IncludeTree × Except ConflictReport Net :=
  match tree.detachable parent name with
  | .error report => (tree, .error report)
  | .ok id =>
    -- the net is read from the tree that still has it
    let pruned := (tree.prune parent name (tree.subtree id)).touch
    match tree.net? id with
    | none => (pruned, (Conflict.vanished name).only)
    | some net => (pruned, .ok net)

/-- Gives a node a new alias; the names of the node and of every node below it are recomputed. -/
def rename (tree : IncludeTree) (id : NodeId) (name : String) : Except ConflictReport IncludeTree := do
  let node ← tree.requireNode id
  if !isAlias name then (Conflict.badAlias name).only
  let tree ← match node.parent with
    | none => .ok tree
    | some parent =>
      -- a node may be given the alias it has
      let taken := name != node.localName && (tree.node? parent).any fun above => above.children.contains name
      if taken then (Conflict.aliasTakenBySibling name).only
      else .ok (tree.modifyNode parent fun above =>
        { above with children := above.children.rename node.localName name })
  let tree := tree.modifyNode id fun node => { node with localName := name }
  return (tree.resolveSubtree id).touch

end PetriTree.IncludeTree
