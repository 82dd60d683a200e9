import PetriTree.Net.Component

/-!
# PetriTree — where the places of a joined net come from

Every place of a node is bound to the flat place that its tokens are kept in. Several sources can
share one flat place: the home place of an interface comes first, those merged into it follow.

* `Bindings.bind`, `Bindings.redirect` — binding a place, and moving all that is bound to one flat
  place to another;
* `Bindings.flatOf`, `Bindings.sourcesOf` — the two ways of looking a binding up;
* `BindingCommand` and `Bindings.performAll` — a sequence of both.
-/

namespace PetriTree

/-- A place of a node's net. -/
structure SourcePlace where
  node : NodeId
  place : String
deriving DecidableEq, Repr

namespace SourcePlace

def key (s : SourcePlace) : Nat × String := (s.node.index, s.place)

theorem key_injective {a b : SourcePlace} (h : a.key = b.key) : a = b := by
  cases a with
  | mk node place =>
    cases b with
    | mk node' place' =>
      cases node
      cases node'
      simp_all [key]

section

attribute [local instance] lexOrd

instance : Ord SourcePlace := ⟨fun a b => compare a.key b.key⟩

instance : Std.TransOrd SourcePlace := inferInstanceAs (Std.TransCmp (compareOn key))

instance : Std.LawfulEqOrd SourcePlace where
  eq_of_compare {a b} h := by
    have h : compare a.key b.key = .eq := h
    exact key_injective (Std.LawfulEqCmp.eq_of_compare h)

end

end SourcePlace

/-- What can be done with bindings. -/
inductive BindingCommand where
  | bind (source : SourcePlace) (flat : String)
  | redirect (old new : String)

/-- Which flat place each source place is bound to, and the sources of each flat place. -/
structure Bindings where
  flats : SortedMap SourcePlace String
  sources : Table (List SourcePlace)

namespace Bindings

def empty : Bindings := ⟨SortedMap.empty, Table.empty⟩

instance : Inhabited Bindings := ⟨empty⟩

def flatOf (b : Bindings) (source : SourcePlace) : Option String := b.flats.get? source

def sourcesOf (b : Bindings) (flat : String) : List SourcePlace := (b.sources.get? flat).getD []

/-- The source whose tokens a flat place starts from. -/
def primary (b : Bindings) (flat : String) : Option SourcePlace := (b.sourcesOf flat).head?

def size (b : Bindings) : Nat := b.flats.entries.length

/-- Binds a source to a flat place; it leaves the one it was bound to before. -/
def bind (b : Bindings) (source : SourcePlace) (flat : String) : Bindings :=
  -- a flat place keeps its entry when its last source leaves
  let sources := match b.flatOf source with
    | none => b.sources
    | some previous => b.sources.modify previous fun list => list.filter (· != source)
  ⟨b.flats.insert source flat, sources.insert flat (((sources.get? flat).getD []) ++ [source])⟩

/-- Moves every source of one flat place to another, after those it has already. -/
def redirect (b : Bindings) (old new : String) : Bindings :=
  match b.sources.get? old with
  | none => b
  | some moved =>
    let sources := b.sources.erase old
    ⟨moved.foldl (fun flats source => flats.insert source new) b.flats,
      sources.insert new (((sources.get? new).getD []) ++ moved)⟩

/-- The bindings after a command. -/
def perform (b : Bindings) : BindingCommand → Bindings
  | .bind source flat => b.bind source flat
  | .redirect old new => b.redirect old new

def performAll (b : Bindings) (commands : List BindingCommand) : Bindings := commands.foldl perform b

/-- The same bindings, whatever the order of the flat places. -/
def same (a b : Bindings) : Bool := a.flats == b.flats && a.sources.agree (· == ·) b.sources

end Bindings

end PetriTree
