import PetriTree.Tree

/-!
# PetriTree — names of nodes

A node is called by its alias, or by the alias and the least number that makes the name differ from
those of its ancestors and siblings. The root is called by its alias and adds nothing to paths.

Main results:
* `IncludeTree.freeName` — the shortest name that is not taken;
* `IncludeTree.resolveNames` — a node's names, recomputed from those around it.
-/

namespace PetriTree.IncludeTree

/-- An alias with a number; zero stands for the bare alias. -/
def numbered (base : String) (n : Nat) : String := if n = 0 then base else base ++ toString n

/-- The first of `base`, `base1`, `base2`, … that is not taken. One more candidate than there are taken
names is enough. -/
def freeName (base : String) (taken : List String) : String :=
  (((List.range (taken.length + 1)).map (numbered base)).find? fun name => !taken.contains name).getD base

def namesOf (tree : IncludeTree) (ids : List NodeId) : List String :=
  ids.filterMap fun id => (tree.node? id).map TreeNode.name

/-- The names a node must not have: those of its ancestors, and those its siblings have already. -/
def takenNames (tree : IncludeTree) (id : NodeId) : List String :=
  tree.namesOf (tree.ancestors id) ++ (tree.namesOf (tree.siblings id)).filter (· != "")

/-- The tree with the names of one node recomputed. -/
def resolveNames (tree : IncludeTree) (id : NodeId) : IncludeTree :=
  match tree.node? id with
  | none => tree
  | some node =>
    match node.parent with
    | none => tree.modifyNode id fun n => { n with name := n.localName, qualifiedName := n.localName }
    | some parent =>
      match tree.node? parent with
      | none => tree
      | some above =>
        -- the path leaves out the root, whose components keep their ids
        let name := freeName node.localName (tree.takenNames id)
        tree.modifyNode id fun n => { n with
          name := name
          qualifiedName := above.qualifiedName ++ "." ++ name
          path := qualify above.path name }

/-- The tree with the names of a node and of every node below it recomputed, from above. -/
def resolveSubtree (tree : IncludeTree) (id : NodeId) : IncludeTree :=
  (tree.subtree id).foldl resolveNames tree

end PetriTree.IncludeTree
