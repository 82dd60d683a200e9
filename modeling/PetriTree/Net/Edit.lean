import PetriTree.Net.Reference

/-!
# PetriTree — edits of a net

An edit is a request to change a net. What can be said of all changes at once is said of edits.

* `NetEdit` — the edits;
* `Net.addAll` — a net from its components;
* `Net.perform` — the net after an edit, with the component that it took out;
* `Net.performAll` — the net after several.
-/

namespace PetriTree

/-- A request to change a net. -/
inductive NetEdit where
  | add (component : Component)
  | removePlace (id : String)
  | removeTransition (id : String)
  | removeArc (id : String)
  | removeParameter (id : String)
  | setTokens (place color : String) (n : Count)
  | setCapacity (place : String) (capacity : UInt64)
  | setStatus (place : String) (status : PlaceStatus)
  | setWeight (arc color expression : String)
  | setRate (transition : String) (rate : Rate)
  | setDelay (transition : String) (delay : UInt64)
  | renamePlace (old new : String)

namespace Net

def add (net : Net) : Component → Except NetError Net
  | .color value => net.addColor value
  | .note value => net.addNote value
  | .place value => net.addPlace value
  | .rateParameter value => net.addParameter value
  | .transition value => net.addTransition value
  | .arc value => net.addArc value

/-- Adds components one after the other. Those that are refused are left out, and answered with their
places in the list. -/
def addAll (net : Net) (components : List Component) : Net × List (Nat × NetError) :=
  components.zipIdx.foldl (fun (net, refused) (component, place) =>
    match net.add component with
    | .ok net => (net, refused)
    | .error e => (net, refused ++ [(place, e)])) (net, [])

def changed (result : Except NetError Net) : Except NetError (Option Component × Net) :=
  result.map fun net => (none, net)

def taken (wrap : α → Component) (result : Except NetError (α × Net)) :
    Except NetError (Option Component × Net) :=
  result.map fun (value, net) => (some (wrap value), net)

/-- The net after an edit, with the component that it took out. -/
def perform (net : Net) : NetEdit → Except NetError (Option Component × Net)
  | .add component => changed (net.add component)
  | .removePlace id => taken .place (net.removePlace id)
  | .removeTransition id => taken .transition (net.removeTransition id)
  | .removeArc id => taken .arc (net.removeArc id)
  | .removeParameter id => taken .rateParameter (net.removeParameter id)
  | .setTokens place color n => changed (net.setTokens place color n)
  | .setCapacity place capacity => changed (net.setCapacity place capacity)
  | .setStatus place status => changed (net.setStatus place status)
  | .setWeight arc color expression => changed (net.setWeight arc color expression)
  | .setRate transition rate => changed (net.setRate transition rate)
  | .setDelay transition delay => changed (net.setDelay transition delay)
  | .renamePlace old new => changed (net.renamePlace old new)

/-- The net after an edit, which leaves it as it is if it is refused. -/
def attempt (net : Net) (edit : NetEdit) : Net :=
  match net.perform edit with
  | .ok (_, after) => after
  | .error _ => net

/-- The net after several edits, whether they were refused or not. -/
def performAll (net : Net) (edits : List NetEdit) : Net := edits.foldl attempt net

end Net

end PetriTree
