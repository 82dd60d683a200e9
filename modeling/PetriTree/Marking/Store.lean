import PetriTree.Marking

/-!
# PetriTree — what is kept of a marking

A marking holds positive counts only, and its type says so. Where a marking is kept as a map of maps, nothing does: a
count of zero could be stored like any other, and two stores with the same tokens could differ by it. So every way of
writing has to see to it that none is.

* `Store` — counts by place and colour, whatever they are;
* `Store.put`, `Store.ofPlaces` — the two ways of writing;
* `Store.Canonical` — no count of zero is stored;
* `Marking.stored` — what is kept of a marking.
-/

namespace PetriTree

/-- The counts that are stored for each place. -/
structure Store where
  places : SortedMap String (SortedMap String Count)
deriving DecidableEq

namespace Store

def empty : Store := ⟨SortedMap.empty⟩

instance : Inhabited Store := ⟨empty⟩

/-! ## Asking -/

def contains (s : Store) (place : String) : Bool := s.places.contains place

/-- The counts of a place; none when there is no such place. -/
def counts (s : Store) (place : String) : SortedMap String Count := (s.places.get? place).getD SortedMap.empty

def tokens (s : Store) (place color : String) : Count := ((s.counts place).get? color).getD Count.zero

def total (s : Store) (place : String) : Count := (s.counts place).values.foldl Count.add Count.zero

/-- Is no count of zero stored? -/
def Canonical (s : Store) : Prop := ∀ place color, (s.counts place).get? color ≠ some Count.zero

/-! ## Writing -/

/-- Sets one count. The place is added when it is missing, also if the count is zero and nothing is stored. -/
def put (s : Store) (place color : String) (n : Count) : Store :=
  ⟨s.places.insert place (if n.isZero then (s.counts place).erase color else (s.counts place).insert color n)⟩

/-- Adds counts to those of a place; zero counts are passed over. -/
def fill (counts : SortedMap String Count) (added : List (String × Count)) : SortedMap String Count :=
  added.foldl (fun counts e => if e.2.isZero then counts else counts.insert e.1 e.2) counts

/-- A place that is listed again adds to what it has. -/
def ofPlaces (places : List (String × List (String × Count))) : Store :=
  places.foldl (fun s p => ⟨s.places.insert p.1 (fill (s.counts p.1) p.2)⟩) empty

/-! ## Order -/

instance : Ord Store := ⟨fun s t => compare s.places t.places⟩

instance : Std.TransOrd Store := inferInstanceAs (Std.TransCmp (compareOn places))

instance : Std.LawfulEqOrd Store where
  eq_of_compare {s t} h := by
    have h : compare s.places t.places = .eq := h
    have : s.places = t.places := Std.LawfulEqCmp.eq_of_compare h
    cases s
    cases t
    cases this
    rfl

end Store

/-- What is kept of a marking. -/
def Marking.stored (m : Marking) : Store := ⟨m.places.map Holding.counts⟩

end PetriTree
