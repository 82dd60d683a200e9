import PetriTree.Live.Cache
import PetriTree.Marking.Change

/-!
# PetriTree — state spaces

The state space of a net holds the markings that firing reaches from its current one, breadth first.
Timed transitions fire as soon as they are enabled, whatever the clock, so it covers every timed run.

The nodes stand in the order in which they were found, and a node is known by its place in that
order. A walk visits them in the same order; what a visit finds is added at the end, so the list is
its own queue. A bound on the number of nodes ends the walk: what would go beyond is left out and the
result marked as cut off.

* `StateSpace.explore` — the state space of a live net;
* `StateSpace.find?`, `StateSpace.contains`, `StateSpace.isDead` — asking about a marking.
-/

namespace PetriTree

/-- A marking with the transitions that may fire in it. -/
structure StateNode where
  marking : Marking
  enabled : SortedSet String
  /-- Nothing may fire; a node that could not be evaluated is not dead. -/
  isDead : Bool

/-- The transitions that lead from one node to another. -/
structure StateEdge where
  source : Nat
  target : Nat
  transitions : SortedSet String
  changes : List TokenChange

/-- A node that could not be evaluated, the transition or arc at fault, and why. -/
structure StateFailure where
  state : Nat
  component : String
  reason : String

/-- What a net can reach. -/
structure StateSpace where
  name : String
  nodes : List StateNode
  edges : List StateEdge
  failures : List StateFailure
  isTruncated : Bool

namespace StateSpace

def find? (space : StateSpace) (m : Marking) : Option Nat := space.nodes.findIdx? fun node => node.marking == m

def contains (space : StateSpace) (m : Marking) : Bool := (space.find? m).isSome

def isDead (space : StateSpace) (m : Marking) : Bool :=
  space.nodes.any fun node => node.marking == m && node.isDead

def deadCount (space : StateSpace) : Nat := space.nodes.countP StateNode.isDead

def fresh (m : Marking) : StateNode := ⟨m, SortedSet.empty, false⟩

def start (name : String) (m : Marking) : StateSpace := ⟨name, [fresh m], [], [], false⟩

def setEnabled (space : StateSpace) (index : Nat) (enabled : SortedSet String) : StateSpace :=
  { space with nodes := space.nodes.modify index fun node =>
      { node with enabled := enabled, isDead := enabled.isEmpty } }

def fail (space : StateSpace) (index : Nat) (e : FiringError) : StateSpace :=
  { space with failures := space.failures ++ [⟨index, e.component, e.message⟩] }

/-- Adds an edge from a node to a marking, and the node of that marking if it is new and the bound
allows it. -/
def link (bound : Nat) (source : Nat) (m : Marking) (space : StateSpace) (next : Marking × SortedSet String) :
    StateSpace :=
  match space.find? next.1 with
  | some target =>
    { space with edges := space.edges ++ [⟨source, target, next.2, TokenChange.diff m next.1⟩] }
  | none =>
    -- a new node takes the next index, which the walk has still to come to
    if space.nodes.length < bound then
      { space with
        nodes := space.nodes ++ [fresh next.1]
        edges := space.edges ++ [⟨source, space.nodes.length, next.2, TokenChange.diff m next.1⟩] }
    else { space with isTruncated := true }

/-- Evaluates a node and adds what it leads to. -/
def visit (live : LiveNet) (bound : Nat) (index : Nat) (m : Marking) (cache : EnabledCache)
    (space : StateSpace) : EnabledCache × StateSpace :=
  match cache.candidates live m with
  | (cache, .error e) => (cache, space.fail index e)
  | (cache, .ok enabled) =>
    let space := space.setEnabled index enabled
    -- what may fire is known even if firing it turns out to fail
    if enabled.isEmpty then (cache, space)
    else
      match cache.successors live m true with
      | (cache, .error e) => (cache, space.fail index e)
      | (cache, .ok next) => (cache, next.entries.foldl (link bound index m) space)

/-- Visits the nodes from an index on, at most `left` of them. -/
def walk (live : LiveNet) (bound : Nat) : Nat → Nat → EnabledCache → StateSpace → EnabledCache × StateSpace
  | 0, _, cache, space => (cache, space)
  | left + 1, index, cache, space =>
    match space.nodes[index]? with
    -- every node was visited
    | none => (cache, space)
    | some node =>
      let (cache, space) := space.visit live bound index node.marking cache
      walk live bound left (index + 1) cache space

/-- The state space of a net from its current marking, with at most `bound` nodes (but always that
one). There are never more nodes to visit than the bound allows. -/
def explore (live : LiveNet) (bound : Nat) (cache : EnabledCache) : EnabledCache × StateSpace :=
  walk live bound (max bound 1) 0 cache (start live.net.name live.marking)

end StateSpace

end PetriTree
