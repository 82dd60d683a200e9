import PetriTree.Flat.Compile
import PetriTree.Json

/-!
# PetriTree — handlers

A transition may name a handler, which hears of every firing and may refuse it. A handler is known
by what it answers to a call, given the calls it heard before; that covers every reaction that
depends on nothing else.

* `Behaviour.limited` — a handler that agrees to a number of firings;
* `Handler` — a handler with the calls it has heard;
* `Registry` — how handlers are made, by name;
* `Registry.attach` — the handlers of the transitions of a net.
-/

namespace PetriTree

/-- What a handler is told. -/
inductive HandlerCall where
  /-- The context it was registered with, first of all. -/
  | context (value : Json)
  /-- The structure of the net it was made for. -/
  | net (net : FlatNet)
  /-- A firing, with the marking it leads to. -/
  | fire (transition : String) (marking : Marking)

/-- What a handler answers to a call after the calls it heard before; a refusal is a message. -/
abbrev Behaviour : Type := List HandlerCall → HandlerCall → Except String Unit

namespace HandlerCall

def isFire : HandlerCall → Bool
  | fire .. => true
  | context _ | net _ => false

end HandlerCall

namespace Behaviour

def agreeing : Behaviour := fun _ _ => .ok ()

/-- Agrees to the first firings, `most` of them, and refuses all later ones. -/
def limited (most : Nat) (refusal : String) : Behaviour := fun heard call =>
  if call.isFire && most ≤ heard.countP HandlerCall.isFire then .error refusal else .ok ()

end Behaviour

/-- A handler and the calls it has heard, oldest first. -/
structure Handler where
  name : String
  behaviour : Behaviour
  calls : List HandlerCall

namespace Handler

def hear (h : Handler) (call : HandlerCall) : Handler := { h with calls := h.calls ++ [call] }

def answer (h : Handler) (call : HandlerCall) : Except String Unit := h.behaviour h.calls call

/-- The calls that handlers, by transition, heard since an earlier look at them. -/
def callsSince (earlier now : Table Handler) : List (String × Handler × HandlerCall) :=
  now.entries.flatMap fun (transition, h) =>
    let known := ((earlier.get? transition).map fun h => h.calls.length).getD 0
    (h.calls.drop known).map fun call => (transition, h, call)

end Handler

/-- How the handlers of one name are made. -/
structure Registration where
  context : Json
  create : Except String Behaviour

/-- Handlers by name. -/
abbrev Registry : Type := Table Registration

namespace Registry

def empty : Registry := Table.empty

/-- The names of the registered handlers, ascending. -/
def sortedNames (r : Registry) : List String := (SortedSet.ofList (Table.names r)).toList

/-- A new handler, which has heard its context. -/
def instantiate (r : Registry) (name : String) : Except String Handler :=
  match Table.get? r name with
  | none => .error ("no handler registered under `" ++ name ++ "`")
  | some registration =>
    match registration.create with
    | .error reason => .error reason
    | .ok behaviour => .ok ⟨name, behaviour, [.context registration.context]⟩

/-- Makes the handlers of the transitions, in order, up to the first that cannot be made. -/
def makeAll (r : Registry) (made : Table Handler) :
    List Transition → Table Handler × Except FlattenError Unit
  | [] => (made, .ok ())
  | t :: rest =>
    match t.handler with
    | none => r.makeAll made rest
    | some name =>
      match r.instantiate name with
      | .error reason => (made, .error (.handler t.id name reason))
      | .ok handler => r.makeAll (made.insert t.id handler) rest

/-- The handlers of the transitions of a net, each told about the net once all are made. -/
def attach (r : Registry) (net : FlatNet) : Table Handler × Except FlattenError Unit :=
  match r.makeAll Table.empty (net.transitions.values.map FlatTransition.transition) with
  | (made, .error e) => (made, .error e)
  | (made, .ok ()) => (made.map fun _ handler => handler.hear (.net net), .ok ())

end Registry

end PetriTree
