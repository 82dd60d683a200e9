import PetriTree.Net.Reference
import PetriTree.Tree

/-!
# PetriTree — why a command on the tree is refused

A command either applies completely or is refused with every problem that was found.

* `Conflict` — the problems, with their wording and the component each is about;
* `ConflictReport` — the problems of one command.
-/

namespace PetriTree

/-- A problem found while a command was checked. -/
inductive Conflict where
  | noted (message component : String)
  | unknownParent (node : NodeId)
  | unknownNode (node : NodeId)
  | badAlias (localName : String)
  | aliasTaken (owner localName : String)
  | aliasTakenBySibling (localName : String)
  | noInclude (localName : String)
  | vanished (localName : String)
  | usedOutside (user awayId : String)
  | refusedEdit (cause : NetError) (component : String)
  | alreadyInterface (place : String)
  | entryPublished (node awayId : String)
  | notVisible (node awayId : String)
  | ownPlace (awayId : String)
  | unexpectedState (state : MergeState) (awayId : String)
  | idTaken (awayId : String)
  | homeGone (awayId : String)
  | noEntry (awayId : String)
  | notRemovable (state : MergeState) (awayId : String)
  | referenced (place : String) (reference : Reference)
  | notHome (awayId : String)
  | stillUsed (user awayId : String)
  | entryExists (node awayId : String)
  | nothingToUpdate (node awayId : String)
  | nothingToRename (node awayId : String)
  | entryCollides (node awayId : String)
  | placeMissing (node awayId : String)
  | componentCollides (node awayId : String)
deriving DecidableEq

def MergeState.name : MergeState → String
  | noOp => "NoOp"
  | home => "Home"
  | available => "Available"
  | inUse => "InUse"
  | away => "Away"

namespace Conflict

def message : Conflict → String
  | noted message _ => message
  | unknownParent _ => "unknown parent node"
  | unknownNode _ => "unknown node"
  | badAlias _ => "include alias must be non-empty and contain no '.'"
  | aliasTaken owner _ => "`" ++ owner ++ "` already includes a net under this alias"
  | aliasTakenBySibling _ => "a sibling already uses this alias"
  | noInclude _ => "no net is included under this alias"
  | vanished _ => "included node vanished"
  | usedOutside user _ => "interface place is still used by `" ++ user ++ "`"
  | refusedEdit cause _ => cause.message
  | alreadyInterface _ => "place is already an interface place"
  | entryPublished node _ => "interface entry already exists in `" ++ node ++ "`"
  | notVisible node _ => "interface place is not visible from `" ++ node ++ "`"
  | ownPlace _ => "an interface place cannot be consumed by the net that defines it"
  | unexpectedState state _ => "interface entry is in unexpected state " ++ state.name
  | idTaken _ => "a component with this id already exists"
  | homeGone _ => "home place no longer exists"
  | noEntry _ => "no such interface entry"
  | notRemovable state _ => "cannot remove an interface entry in state " ++ state.name
  | referenced place reference => reference.reason place
  | notHome _ => "not the home of this interface place"
  | stillUsed user _ => "still used by `" ++ user ++ "`"
  | entryExists node _ => "entry already exists in `" ++ node ++ "`"
  | nothingToUpdate node _ => "no entry to update in `" ++ node ++ "`"
  | nothingToRename node _ => "no entry to rename in `" ++ node ++ "`"
  | entryCollides node _ => "entry name collides in `" ++ node ++ "`"
  | placeMissing node _ => "materialized place is missing in `" ++ node ++ "`"
  | componentCollides node _ => "component name collides in `" ++ node ++ "`"

/-- The component, alias, node or interface entry a problem is about. -/
def component : Conflict → String
  | unknownParent node | unknownNode node => node.text
  | referenced _ reference => reference.component
  | noted _ about | badAlias about | aliasTaken _ about | aliasTakenBySibling about
  | noInclude about | vanished about | usedOutside _ about | refusedEdit _ about | alreadyInterface about
  | entryPublished _ about | notVisible _ about | ownPlace about | unexpectedState _ about
  | idTaken about | homeGone about | noEntry about | notRemovable _ about | notHome about
  | stillUsed _ about | entryExists _ about | nothingToUpdate _ about | nothingToRename _ about
  | entryCollides _ about | placeMissing _ about | componentCollides _ about => about

end Conflict

/-- The problems that refused a command. -/
structure ConflictReport where
  conflicts : List Conflict
deriving DecidableEq

namespace ConflictReport

def message (report : ConflictReport) : String :=
  "; ".intercalate (report.conflicts.map fun c => c.message ++ " (" ++ c.component ++ ")")

/-- A value, unless there are problems. -/
def orElse (conflicts : List Conflict) (value : α) : Except ConflictReport α :=
  if conflicts.isEmpty then .ok value else .error ⟨conflicts⟩

end ConflictReport

def Conflict.only (conflict : Conflict) : Except ConflictReport α := .error ⟨[conflict]⟩

end PetriTree
