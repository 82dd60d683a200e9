import PetriTree.Live.Session
import PetriTree.Marking.Store
import PetriTree.Simulation

/-!
# PetriTree — writing a marking in place

Beside the two ways of setting counts there are some that set many: firings, the record of a firing that is taken back,
tokens that are set in a live net or read from the tree. All are written out here as they act on a store, which holds
whatever is written into it.

* `Store.fire`, `Store.fireBackwards`, `Store.restore`, `Store.pull` — what is written, count by count;
* `MarkingWriter` — the ways in which a marking is written;
* `Marking.written`, `Store.written` — the marking, and the store, after one of them;
* `Marking.writtenAll`, `Store.writtenAll` — after several.
-/

namespace PetriTree

namespace Store

/-! ## Reading -/

def tokensIn (s : Store) (net : FlatNet) (place : String) (color : Option String) : Option Count :=
  if net.places.contains place then
    some (match color with
      | some color => s.tokens place color
      | none => s.total place)
  else none

def parameterValue (s : Store) (net : FlatNet) : List (String × Expr) → String → Except ExprError Float
  | [], id => .error (.unknownParameter id)
  | (key, e) :: rest, id =>
    if key = id then e.evaluate ⟨s.tokensIn net, net.capacityOf, parameterValue s net rest⟩
    else parameterValue s net rest id

/-- What expressions look up in a store. -/
def reading (s : Store) (net : FlatNet) : Reading :=
  ⟨s.tokensIn net, net.capacityOf, s.parameterValue net net.definitions⟩

def weigh (s : Store) (net : FlatNet) (arc : String) (e : Expr) : Except FiringError Count :=
  match e.evaluateWeight (s.reading net) with
  | .ok n => .ok n
  | .error cause => .error (.evaluation arc cause)

/-! ## Firing -/

def takeWeights (s : Store) (net : FlatNet) (arc : Arc) (short : FiringError) (left : Store) :
    List (String × Expr) → Except FiringError Store
  | [] => .ok left
  | (color, e) :: rest => do
    let n ← s.weigh net arc.id e
    match (left.tokens arc.place color).sub? n with
    | none => .error short
    | some after => s.takeWeights net arc short (left.put arc.place color after) rest

def giveWeights (s : Store) (net : FlatNet) (arc : Arc) (left : Store) :
    List (String × Expr) → Except FiringError Store
  | [] => .ok left
  | (color, e) :: rest => do
    let n ← s.weigh net arc.id e
    s.giveWeights net arc (left.put arc.place color ((left.tokens arc.place color).add n)) rest

def takeAll (s : Store) (net : FlatNet) (short : Arc → FiringError) (left : Store) :
    List FlatArc → Except FiringError Store
  | [] => .ok left
  | a :: rest => do
    let left ← s.takeWeights net a.arc (short a.arc) left a.weights
    s.takeAll net short left rest

def giveAll (s : Store) (net : FlatNet) (left : Store) : List FlatArc → Except FiringError Store
  | [] => .ok left
  | a :: rest => do
    let left ← s.giveWeights net a.arc left a.weights
    s.giveAll net left rest

def fire (s : Store) (net : FlatNet) (transition : String) : Except FiringError Store := do
  let left ← s.takeAll net (fun _ => .notEnabled transition) s (net.taking transition)
  s.giveAll net left (net.outbound transition)

def fireBackwards (s : Store) (net : FlatNet) (transition : String) : Except FiringError Store := do
  let left ← s.takeAll net (fun arc => .negativeCount transition arc.place) s (net.outbound transition)
  s.giveAll net left (net.taking transition)

/-! ## Counts from elsewhere -/

/-- A store with the counts that a firing changed put back. -/
def restore (s : Store) (changes : List TokenChange) : Store :=
  changes.foldl (fun s change => s.put change.place change.color change.before) s

/-- A store with the tokens of several flat places read from their first sources. -/
def pullPairs (tree : IncludeTree) (colors : List String) :
    List (String × SourcePlace) → Store → Except NetError Store
  | [], s => .ok s
  | (flat, source) :: rest, s => do
    let net ← NetError.required source.place .place (tree.net? source.node)
    let place ← net.place source.place
    pullPairs tree colors rest (colors.foldl (fun s color => s.put flat color (place.count color)) s)

def pull (s : Store) (net : FlatNet) (tree : IncludeTree) : Except NetError Store :=
  pullPairs tree net.colors.names (LiveNet.primaryPairs net) s

end Store

/-- The ways in which a marking is written. -/
inductive MarkingWriter where
  | withTokens (place color : String) (n : Count)
  | fire (net : FlatNet) (transition : String)
  | fireBackwards (net : FlatNet) (transition : String)
  /-- Tokens are set in a live net that is in this marking. -/
  | setTokens (live : LiveNet) (place color : String) (n : Count)
  /-- The last firing is taken back in a simulation that is in this marking. -/
  | undo (sim : Simulation)
  /-- Tokens are read from the tree into a live net that is in this marking. -/
  | pull (live : LiveNet) (tree : IncludeTree)

namespace Marking

/-- The marking after it was written; it stays as it is when this is refused. -/
def written (m : Marking) : MarkingWriter → Marking
  | .withTokens place color n => m.put place color n
  | .fire net transition => (net.fire m transition).toOption.getD m
  | .fireBackwards net transition => (net.fireBackwards m transition).toOption.getD m
  | .setTokens live place color n => (LiveNet.edited { live with marking := m } (.setTokens place color n)).marking
  | .undo sim => (sim.withMarking m).undo.1.marking
  | .pull live tree => (LiveNet.edited { live with marking := m } (.pull tree)).marking

def writtenAll (m : Marking) (writers : List MarkingWriter) : Marking := writers.foldl written m

end Marking

namespace Store

/-- The store after it was written. -/
def written (s : Store) : MarkingWriter → Store
  | .withTokens place color n => s.put place color n
  | .fire net transition => (s.fire net transition).toOption.getD s
  | .fireBackwards net transition => (s.fireBackwards net transition).toOption.getD s
  | .setTokens live place color n =>
    if live.net.places.contains place && live.net.colors.contains color then s.put place color n else s
  | .undo sim =>
    match sim.history.getLast? with
    | none => s
    | some last => s.restore last.changes
  | .pull live tree => (s.pull live.net tree).toOption.getD s

def writtenAll (s : Store) (writers : List MarkingWriter) : Store := writers.foldl written s

end Store

end PetriTree
