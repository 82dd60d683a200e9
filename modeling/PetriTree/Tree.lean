import PetriTree.Net

/-!
# PetriTree — include trees

Nets include other nets under local aliases, which makes a tree of nodes. A node's name is short and
differs from the names of its ancestors and siblings; the names on the way down from the root make
up its path, which every id gets that the node contributes to the joined net.

* `IncludeTree` — the nodes, the root, and how far interface places reach;
* `IncludeTree.ancestors`, `IncludeTree.subtree` — the nodes above and below one;
* `IncludeTree.scopeNodes` — the nodes a command reaches;
* `IncludeTree.find` — a node by its qualified name.
-/

namespace PetriTree

/-- Which nodes a command reaches from the node it is given to; that node is always among them. -/
inductive Scope where
  | node | parent | ancestors | ancestorsAndSiblings | all
deriving DecidableEq, Repr

def Scope.standard : Scope := ancestorsAndSiblings

def Scope.names : List (String × Scope) :=
  [("node", node), ("parent", parent), ("ancestors", ancestors),
    ("ancestors_and_siblings", ancestorsAndSiblings), ("all", all)]

def Scope.named? (name : String) : Option Scope := names.lookup name

def Scope.name (scope : Scope) : String := ((names.find? fun e => e.2 == scope).map Prod.fst).getD ""

/-- What a node knows about an interface place. Consumers use it under its away id, which was fixed
when the place entered the interface. -/
structure InterfacePlace where
  awayId : String
  home : HomeRef
  state : MergeState
deriving DecidableEq, Repr

/-- A net in an include tree. -/
structure TreeNode where
  localName : String
  name : String
  qualifiedName : String
  path : String
  parent : Option NodeId
  children : Table NodeId
  net : Net
  interface : Table InterfacePlace

/-- A tree of nets. -/
structure IncludeTree where
  nodes : Arena TreeNode
  root : NodeId
  accessScope : Scope
  revision : Nat

namespace IncludeTree

def node? (tree : IncludeTree) (id : NodeId) : Option TreeNode := tree.nodes.get? id

def net? (tree : IncludeTree) (id : NodeId) : Option Net := (tree.node? id).map TreeNode.net

/-- The tree with a node, if there is one, changed. -/
def modifyNode (tree : IncludeTree) (id : NodeId) (f : TreeNode → TreeNode) : IncludeTree :=
  { tree with nodes := tree.nodes.modify id f }

def setNet (tree : IncludeTree) (id : NodeId) (net : Net) : IncludeTree :=
  tree.modifyNode id fun node => { node with net := net }

def touch (tree : IncludeTree) : IncludeTree := { tree with revision := tree.revision + 1 }

/-! ## Walking -/

/-- The first `bound` nodes on the way from a node up to the root. -/
def climb (tree : IncludeTree) : Nat → NodeId → List NodeId
  | 0, _ => []
  | bound + 1, id =>
    match (tree.node? id).bind TreeNode.parent with
    | none => []
    | some parent => parent :: tree.climb bound parent

/-- The nodes above one, nearest first. A node is older than those below it, so the way up is no
longer than its id. -/
def ancestors (tree : IncludeTree) (id : NodeId) : List NodeId := tree.climb tree.nodes.slots.length id

/-- A node and those less than `bound` levels below it, parents before children and children in order
of inclusion. -/
def descend (tree : IncludeTree) : Nat → NodeId → List NodeId
  | 0, _ => []
  | bound + 1, id =>
    match tree.node? id with
    | none => []
    | some node => id :: node.children.values.flatMap (tree.descend bound)

/-- A node and every node below it; no branch is longer than there are slots. -/
def subtree (tree : IncludeTree) (id : NodeId) : List NodeId :=
  tree.descend tree.nodes.slots.length id

/-- Every node, parents before children and children in order of inclusion. -/
def walk (tree : IncludeTree) : List (NodeId × TreeNode) :=
  (tree.subtree tree.root).filterMap fun id => (tree.node? id).map fun node => (id, node)

def size (tree : IncludeTree) : Nat := tree.nodes.size

def find (tree : IncludeTree) (qualifiedName : String) : Option NodeId :=
  (tree.walk.find? fun e => e.2.qualifiedName == qualifiedName).map Prod.fst

/-! ## Scopes -/

/-- The nodes that have the same parent, in order of inclusion, without the node itself. -/
def siblings (tree : IncludeTree) (id : NodeId) : List NodeId :=
  match ((tree.node? id).bind TreeNode.parent).bind tree.node? with
  | none => []
  | some parent => parent.children.values.filter (· != id)

/-- The nodes a scope selects, starting with the node itself; none when there is no such node. -/
def scopeNodes (tree : IncludeTree) (id : NodeId) (scope : Scope) : List NodeId :=
  match tree.node? id with
  | none => []
  | some node =>
    id :: match scope with
      | .node => []
      | .parent => node.parent.toList
      | .ancestors => tree.ancestors id
      | .ancestorsAndSiblings => tree.ancestors id ++ tree.siblings id
      | .all => (tree.subtree tree.root).filter (· != id)

end IncludeTree

end PetriTree
