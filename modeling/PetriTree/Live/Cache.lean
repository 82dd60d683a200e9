import PetriTree.Firing.Candidates
import PetriTree.Firing.Fire
import PetriTree.Live.Net

/-!
# PetriTree — remembered candidates

Which transitions may fire depends on the structure of a net and on the marking only. The cache
remembers the answers for one structure, known by its stamp; a net with another stamp makes it forget
everything. An answer that is an error is not remembered.

* `EnabledCache.candidates` — `FlatNet.candidates`, remembered;
* `EnabledCache.successors` — the markings after one firing, each with the transitions that lead there.
-/

namespace PetriTree

/-- The candidates of the markings of one structure. -/
structure EnabledCache where
  stamp : Option Stamp
  known : SortedMap Marking (SortedSet String)

namespace EnabledCache

def empty : EnabledCache := ⟨none, SortedMap.empty⟩

instance : Inhabited EnabledCache := ⟨empty⟩

/-- The number of markings whose candidates are remembered. -/
def size (cache : EnabledCache) : Nat := cache.known.entries.length

/-- Forgets everything that is not about the structure with the given stamp. -/
def sync (cache : EnabledCache) (stamp : Stamp) : EnabledCache :=
  if cache.stamp = some stamp then cache else ⟨some stamp, SortedMap.empty⟩

/-- The transitions of a net that may fire in a marking, the clock aside. -/
def candidates (cache : EnabledCache) (live : LiveNet) (m : Marking) :
    EnabledCache × Except FiringError (SortedSet String) :=
  let cache := cache.sync live.stamp
  match cache.known.get? m with
  | some found => (cache, .ok found)
  | none =>
    match live.net.candidates m with
    -- nothing to remember, but what was known about another structure is gone
    | .error e => (cache, .error e)
    | .ok found => ({ cache with known := cache.known.insert m found }, .ok found)

/-- Groups transitions by the marking that firing each of them leads to. -/
def groupByTarget (net : FlatNet) (m : Marking) (groups : SortedMap Marking (SortedSet String)) :
    List String → Except FiringError (SortedMap Marking (SortedSet String))
  | [] => .ok groups
  | t :: rest => do
    -- one that cannot fire spoils the answer for all of them
    let target ← net.fire m t
    let known := (groups.get? target).getD SortedSet.empty
    groupByTarget net m (groups.insert target (known.insert t)) rest

/-- The markings one firing leads to, ascending, each with the transitions that lead there. Timed
transitions whose time has not come are left out unless `early`. -/
def successors (cache : EnabledCache) (live : LiveNet) (m : Marking) (early : Bool) :
    EnabledCache × Except FiringError (SortedMap Marking (SortedSet String)) :=
  match cache.candidates live m with
  | (cache, .error e) => (cache, .error e)
  | (cache, .ok found) =>
    let firing := found.toList.filter fun t => early || live.mayFireNow t
    (cache, groupByTarget live.net m SortedMap.empty firing)

end EnabledCache

end PetriTree
