import PetriTree.Count
import PetriTree.SortedMap

/-!
# PetriTree — markings

A marking says which places there are and how many tokens of each colour every place holds. Only
positive counts are kept, so two markings are equal exactly when they have the same places and give
every place the same tokens.

Main results:
* `tokens_put` — setting one count changes that count only;
* `Marking.ext` — markings with the same places and the same tokens are equal;
* `compare_eq_iff` — the order of markings tells different markings apart.
-/

namespace PetriTree

/-- The colour every net starts with. -/
def defaultColor : String := "Default"

/-- The positive counts of one place, by colour. -/
structure Holding where
  counts : SortedMap String Count
  positive : ∀ e ∈ counts.entries, e.2 ≠ Count.zero

namespace Holding

theorem eq_of_counts_eq {a b : Holding} (h : a.counts = b.counts) : a = b := by
  cases a
  cases b
  cases h
  rfl

instance : DecidableEq Holding := fun a b =>
  if h : a.counts = b.counts then isTrue (eq_of_counts_eq h)
  else isFalse fun hab => h (hab ▸ rfl)

def empty : Holding := ⟨SortedMap.empty, by simp [SortedMap.empty]⟩

instance : Inhabited Holding := ⟨empty⟩

def tokens (h : Holding) (color : String) : Count := (h.counts.get? color).getD Count.zero

def total (h : Holding) : Count := h.counts.values.foldl Count.add Count.zero

def put (h : Holding) (color : String) (n : Count) : Holding :=
  if hn : n = Count.zero then
    ⟨h.counts.erase color, fun e he =>
      h.positive e ((SortedMap.eraseEntry_sublist color h.counts.entries).mem he)⟩
  else
    ⟨h.counts.insert color n, fun e he => by
      rcases SortedMap.mem_insertEntry he with he | he
      · rw [he]
        exact hn
      · exact h.positive e he⟩

theorem tokens_put (h : Holding) (color other : String) (n : Count) :
    (h.put color n).tokens other = if other = color then n else h.tokens other := by
  unfold put tokens
  split
  · rename_i hn
    rw [SortedMap.get?_erase]
    by_cases ho : other = color <;> simp [ho, hn]
  · rw [SortedMap.get?_insert]
    by_cases ho : other = color <;> simp [ho]

/-- Holdings with the same tokens of every colour are equal. -/
theorem ext {a b : Holding} (h : ∀ color, a.tokens color = b.tokens color) : a = b := by
  refine eq_of_counts_eq (SortedMap.ext_get? fun color => ?_)
  have := h color
  unfold tokens at this
  have hpos : ∀ (x : Holding) (n : Count), x.counts.get? color = some n → n ≠ Count.zero :=
    fun x n hx => x.positive (color, n) (SortedMap.get?_eq_some_iff.1 hx)
  cases ha : a.counts.get? color with
  | none =>
    cases hb : b.counts.get? color with
    | none => rfl
    | some n =>
      rw [ha, hb] at this
      exact absurd this.symm (hpos b n hb)
  | some m =>
    cases hb : b.counts.get? color with
    | none =>
      rw [ha, hb] at this
      exact absurd this (hpos a m ha)
    | some n =>
      rw [ha, hb] at this
      exact congrArg some this

instance : Ord Holding := ⟨fun a b => compare a.counts b.counts⟩

end Holding

/-- Which places there are and what they hold. -/
structure Marking where
  places : SortedMap String Holding
deriving DecidableEq

namespace Marking

def empty : Marking := ⟨SortedMap.empty⟩

instance : Inhabited Marking := ⟨empty⟩

def contains (m : Marking) (place : String) : Bool := m.places.contains place

/-- What a place holds; nothing when there is no such place. -/
def holding (m : Marking) (place : String) : Holding := (m.places.get? place).getD Holding.empty

def tokens (m : Marking) (place color : String) : Count := (m.holding place).tokens color

/-- The tokens of all colours in a place; infinite as soon as one colour is. -/
def total (m : Marking) (place : String) : Count := (m.holding place).total

/-- The marking with one count set; the place is added when it is missing. -/
def put (m : Marking) (place color : String) (n : Count) : Marking :=
  ⟨m.places.insert place ((m.holding place).put color n)⟩

/-- The marking with a place that is missing added, holding nothing. -/
def addPlace (m : Marking) (place : String) : Marking :=
  ⟨m.places.insert place (m.holding place)⟩

/-- The marking with several counts of one place set; zero counts are passed over. -/
def putAll (m : Marking) (place : String) (counts : List (String × Count)) : Marking :=
  counts.foldl (fun m e => if e.2.isZero then m else m.put place e.1 e.2) (m.addPlace place)

def ofPlaces (places : List (String × List (String × Count))) : Marking :=
  places.foldl (fun m p => m.putAll p.1 p.2) empty

theorem holding_put (m : Marking) (place other color : String) (n : Count) :
    (m.put place color n).holding other =
      if other = place then (m.holding place).put color n else m.holding other := by
  unfold put holding
  rw [SortedMap.get?_insert]
  by_cases h : other = place <;> simp [h]

/-- Setting one count changes that count only. -/
theorem tokens_put (m : Marking) (place color : String) (n : Count) (p c : String) :
    (m.put place color n).tokens p c = if p = place ∧ c = color then n else m.tokens p c := by
  unfold tokens
  rw [holding_put]
  by_cases h : p = place
  · simp [h, Holding.tokens_put]
  · simp [h]

theorem contains_put (m : Marking) (place color : String) (n : Count) (p : String) :
    (m.put place color n).contains p = (decide (p = place) || m.contains p) := by
  unfold contains put SortedMap.contains
  rw [SortedMap.get?_insert]
  by_cases h : p = place <;> simp [h]

/-- Markings with the same places and the same tokens are equal. -/
theorem ext {a b : Marking} (hp : ∀ place, a.contains place = b.contains place)
    (ht : ∀ place color, a.tokens place color = b.tokens place color) : a = b := by
  have : a.places = b.places := SortedMap.ext_get? fun place => by
    have h1 := hp place
    have h2 : a.holding place = b.holding place := Holding.ext (ht place)
    unfold contains SortedMap.contains at h1
    unfold holding at h2
    cases ha : a.places.get? place <;> cases hb : b.places.get? place <;> simp_all
  cases a
  cases b
  cases this
  rfl

/-! ## Order -/

instance : Ord Marking := ⟨fun a b => compare a.places b.places⟩

section

attribute [local instance] lexOrd

instance : Std.TransOrd Holding :=
  inferInstanceAs (Std.TransCmp (compareOn fun h : Holding => h.counts.entries))

instance : Std.LawfulEqOrd Holding where
  eq_of_compare {a b} h := by
    have h : compare a.counts.entries b.counts.entries = .eq := h
    have : a.counts.entries = b.counts.entries := Std.LawfulEqCmp.eq_of_compare h
    refine Holding.eq_of_counts_eq ?_
    cases ha : a.counts
    cases hb : b.counts
    simp_all

instance : Std.TransOrd Marking :=
  inferInstanceAs (Std.TransCmp (compareOn fun m : Marking => m.places.entries))

instance : Std.LawfulEqOrd Marking where
  eq_of_compare {a b} h := by
    have h : compare a.places.entries b.places.entries = .eq := h
    have : a.places.entries = b.places.entries := Std.LawfulEqCmp.eq_of_compare h
    cases ha : a with
    | mk x =>
      cases hb : b with
      | mk y =>
        cases x
        cases y
        simp_all

end

/-- The order of markings tells different markings apart. -/
theorem compare_eq_iff {a b : Marking} : compare a b = .eq ↔ a = b :=
  Std.LawfulEqCmp.compare_eq_iff_eq

/-! ## Text -/

/-- The text of one place: a bare number when only the default colour occurs, else every colour. -/
def placeText (place : String) (h : Holding) : String :=
  if h.counts.keys.all (· == defaultColor) then place ++ ": " ++ (h.tokens defaultColor).text
  else
    let counts := h.counts.entries.map fun e => e.1 ++ ": " ++ e.2.text
    place ++ ": \x7b" ++ ", ".intercalate counts ++ "\x7d"

/-- The text of a marking, places in order. -/
def text (m : Marking) : String :=
  "\x7b" ++ ", ".intercalate (m.places.entries.map fun e => placeText e.1 e.2) ++ "\x7d"

end Marking

end PetriTree
