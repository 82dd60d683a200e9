import PetriTree.Tree.Include

/-!
# PetriTree — commands on a tree

A command is a request to change an include tree. What can be said of all changes at once is said of
commands.

* `TreeCommand` — the commands;
* `IncludeTree.perform` — the tree after a command, with its answer;
* `IncludeTree.performAll` — the tree after several.
-/

namespace PetriTree

/-- A request to change an include tree. -/
inductive TreeCommand where
  | attach (parent : NodeId) (net : Net) (name : String)
  | detach (parent : NodeId) (name : String)
  | rename (node : NodeId) (name : String)
  | publish (node : NodeId) (place : String)
  | useInterface (node : NodeId) (awayId : String)
  | dropInterface (node : NodeId) (awayId : String)
  | withdraw (node : NodeId) (awayId : String)
  | execute (node : NodeId) (scope : Scope) (command : MapCommand)

/-- What a command answers. -/
inductive TreeAnswer where
  | done
  /-- The node of an attached net. -/
  | node (id : NodeId)
  /-- A detached net. -/
  | net (net : Net)
  /-- The interface entry the command was about. -/
  | entry (awayId : String)

namespace IncludeTree

/-- The outcome of a command that is refused before it changes anything, or not at all. -/
def settled (tree : IncludeTree) (wrap : α → TreeAnswer) :
    Except ConflictReport (α × IncludeTree) → IncludeTree × Except ConflictReport TreeAnswer
  | .error report => (tree, .error report)
  | .ok (answer, after) => (after, .ok (wrap answer))

/-- The outcome of a command that has nothing to tell but the tree after it. -/
def settledDone (tree : IncludeTree) (result : Except ConflictReport IncludeTree) :
    IncludeTree × Except ConflictReport TreeAnswer :=
  tree.settled (fun _ => .done) (result.map fun after => ((), after))

/-- The outcome of a command that answers the tree whether it is refused or not. -/
def answered (wrap : α → TreeAnswer) (outcome : IncludeTree × Except ConflictReport α) :
    IncludeTree × Except ConflictReport TreeAnswer :=
  (outcome.1, outcome.2.map wrap)

/-- The tree after a command, with its answer. -/
def perform (tree : IncludeTree) : TreeCommand → IncludeTree × Except ConflictReport TreeAnswer
  | .attach parent net name => tree.settled .node (tree.attach parent net name)
  | .detach parent name => answered .net (tree.detach parent name)
  | .rename node name => tree.settledDone (tree.rename node name)
  | .publish node place => answered .entry (tree.publish node place)
  | .useInterface node awayId => tree.settled .entry (tree.useInterface node awayId)
  | .dropInterface node awayId => tree.settledDone (tree.dropInterface node awayId)
  | .withdraw node awayId => answered (fun _ => .done) (tree.withdraw node awayId)
  | .execute node scope command => answered (fun _ => .entry command.key) (tree.execute node scope command)

/-- The tree after several commands, whether they were refused or not. -/
def performAll (tree : IncludeTree) (commands : List TreeCommand) : IncludeTree :=
  commands.foldl (fun tree command => (tree.perform command).1) tree

end IncludeTree

end PetriTree
