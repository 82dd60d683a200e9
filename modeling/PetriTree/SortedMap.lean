/-!
# PetriTree — maps in key order

A sorted map keeps one value per key, in ascending key order, so equal maps are the same value and
walking through a map needs no further rule. A sorted set is such a map without values.

Main results:
* `SortedMap.get?_insert`, `SortedMap.get?_erase` — what an edit does to every look-up;
* `SortedMap.ext_get?` — maps with the same look-ups are equal;
* `SortedSet.mem_ofList` — collecting a list keeps exactly its members;
* `SortedSet.ext_mem` — sets with the same members are equal.
-/

namespace PetriTree

open Std

/-- Ascending keys, none twice. -/
def Ascending [Ord κ] (entries : List (κ × α)) : Prop :=
  entries.Pairwise fun a b => compare a.1 b.1 = .lt

instance [Ord κ] (entries : List (κ × α)) : Decidable (Ascending entries) :=
  inferInstanceAs (Decidable (List.Pairwise _ _))

/-- A value per key, in ascending key order. -/
structure SortedMap (κ : Type u) (α : Type v) [Ord κ] where
  entries : List (κ × α)
  ascending : Ascending entries

namespace SortedMap

variable {κ : Type u} {α : Type v} [Ord κ]

instance [DecidableEq κ] [DecidableEq α] : DecidableEq (SortedMap κ α) := fun a b =>
  if h : a.entries = b.entries then isTrue (by cases a; cases b; cases h; rfl)
  else isFalse fun hab => h (hab ▸ rfl)

def empty : SortedMap κ α := ⟨[], List.Pairwise.nil⟩

instance : Inhabited (SortedMap κ α) := ⟨empty⟩

/-- The keys, ascending. -/
def keys (m : SortedMap κ α) : List κ := m.entries.map Prod.fst

/-- The values, in key order. -/
def values (m : SortedMap κ α) : List α := m.entries.map Prod.snd

/-! ## Look-up -/

/-- The value of `key` among entries. -/
def lookup (key : κ) : List (κ × α) → Option α
  | [] => none
  | (first, value) :: rest => if compare key first = .eq then some value else lookup key rest

/-- The value of `key`. -/
def get? (m : SortedMap κ α) (key : κ) : Option α := lookup key m.entries

/-- Is there a value for `key`? -/
def contains (m : SortedMap κ α) (key : κ) : Bool := (m.get? key).isSome

/-! ## Insertion and removal -/

/-- Entries with the value of `key` set, at the place that keeps them ascending. -/
def insertEntry (key : κ) (value : α) : List (κ × α) → List (κ × α)
  | [] => [(key, value)]
  | (first, old) :: rest =>
    match compare key first with
    | .lt => (key, value) :: (first, old) :: rest
    | .eq => (key, value) :: rest
    | .gt => (first, old) :: insertEntry key value rest

/-- Entries without `key`. -/
def eraseEntry (key : κ) : List (κ × α) → List (κ × α)
  | [] => []
  | (first, old) :: rest => if compare key first = .eq then rest else (first, old) :: eraseEntry key rest

theorem mem_insertEntry {key : κ} {value : α} {e : κ × α} :
    ∀ {entries : List (κ × α)}, e ∈ insertEntry key value entries → e = (key, value) ∨ e ∈ entries
  | [], h => by
    rw [insertEntry, List.mem_singleton] at h
    exact Or.inl h
  | (first, old) :: rest, h => by
    rw [insertEntry] at h
    split at h
    · rcases List.mem_cons.1 h with h | h
      · exact Or.inl h
      · exact Or.inr h
    · rcases List.mem_cons.1 h with h | h
      · exact Or.inl h
      · exact Or.inr (List.mem_cons_of_mem _ h)
    · rcases List.mem_cons.1 h with h | h
      · exact Or.inr (h ▸ List.mem_cons_self ..)
      · rcases mem_insertEntry h with h | h
        · exact Or.inl h
        · exact Or.inr (List.mem_cons_of_mem _ h)

theorem eraseEntry_sublist (key : κ) :
    ∀ entries : List (κ × α), (eraseEntry key entries).Sublist entries
  | [] => List.Sublist.slnil
  | (first, old) :: rest => by
    rw [eraseEntry]
    split
    · exact List.sublist_cons_self ..
    · exact (eraseEntry_sublist key rest).cons_cons _

theorem ascending_insertEntry [TransOrd κ] {key : κ} {value : α} :
    ∀ {entries : List (κ × α)}, Ascending entries → Ascending (insertEntry key value entries)
  | [], _ => by simp [insertEntry, Ascending]
  | (first, old) :: rest, h => by
    rw [Ascending, List.pairwise_cons] at h
    rw [insertEntry]
    split
    · rename_i hlt
      exact List.pairwise_cons.2 ⟨fun e he => by
        rcases List.mem_cons.1 he with he | he
        · exact he ▸ hlt
        · exact TransCmp.lt_trans hlt (h.1 e he), List.pairwise_cons.2 h⟩
    · rename_i heq
      exact List.pairwise_cons.2 ⟨fun e he => TransCmp.lt_of_eq_of_lt heq (h.1 e he), h.2⟩
    · rename_i hgt
      refine List.pairwise_cons.2 ⟨fun e he => ?_, ascending_insertEntry h.2⟩
      rcases mem_insertEntry he with he | he
      · exact he ▸ OrientedCmp.gt_iff_lt.1 hgt
      · exact h.1 e he

/-- The map with the value of `key` set. -/
def insert [TransOrd κ] (m : SortedMap κ α) (key : κ) (value : α) : SortedMap κ α :=
  ⟨insertEntry key value m.entries, ascending_insertEntry m.ascending⟩

/-- The map without `key`. -/
def erase (m : SortedMap κ α) (key : κ) : SortedMap κ α :=
  ⟨eraseEntry key m.entries, m.ascending.sublist (eraseEntry_sublist key m.entries)⟩

/-- The map with every value changed. -/
def map {β : Type w} (f : α → β) (m : SortedMap κ α) : SortedMap κ β :=
  ⟨m.entries.map fun e => (e.1, f e.2), by
    rw [Ascending, List.pairwise_map]
    exact m.ascending⟩

/-- The map of the pairs, a later pair replacing the value of an earlier one of its key. -/
def ofList [TransOrd κ] (pairs : List (κ × α)) : SortedMap κ α :=
  pairs.foldl (fun m pair => m.insert pair.1 pair.2) empty

/-! ## What edits do to look-ups -/

section Lawful

variable [TransOrd κ]

theorem lookup_congr {a b : κ} (h : compare a b = .eq) :
    ∀ entries : List (κ × α), lookup a entries = lookup b entries
  | [] => rfl
  | (first, value) :: rest => by
    rw [lookup, lookup, lookup_congr h rest, TransCmp.congr_left h]

theorem lookup_insertEntry (key other : κ) (value : α) :
    ∀ entries : List (κ × α), lookup other (insertEntry key value entries) =
      if compare other key = .eq then some value else lookup other entries
  | [] => rfl
  | (first, old) :: rest => by
    rw [insertEntry]
    split
    · simp only [lookup]
    · rename_i heq
      simp only [lookup, TransCmp.congr_right heq]
      split <;> rfl
    · rename_i hgt
      rw [lookup, lookup_insertEntry key other value rest, lookup]
      by_cases ho : compare other first = .eq
      · have : ¬ compare other key = .eq := fun hk => by
          have := TransCmp.eq_trans (OrientedCmp.eq_symm hk) ho
          rw [hgt] at this
          exact absurd this (by decide)
        simp [ho, this]
      · simp [ho]

theorem get?_insert (m : SortedMap κ α) (key other : κ) (value : α) :
    (m.insert key value).get? other = if compare other key = .eq then some value else m.get? other :=
  lookup_insertEntry key other value m.entries

omit [TransOrd κ] in
theorem lookup_eq_none_of_lt {key : κ} :
    ∀ {entries : List (κ × α)}, (∀ e ∈ entries, compare key e.1 = .lt) → lookup key entries = none
  | [], _ => rfl
  | (first, old) :: rest, h => by
    have hf := h _ (List.mem_cons_self ..)
    rw [lookup, if_neg (by rw [hf]; decide)]
    exact lookup_eq_none_of_lt fun e he => h e (List.mem_cons_of_mem _ he)

theorem lookup_eraseEntry (key other : κ) :
    ∀ {entries : List (κ × α)}, Ascending entries → lookup other (eraseEntry key entries) =
      if compare other key = .eq then none else lookup other entries
  | [], _ => by simp [eraseEntry, lookup]
  | (first, old) :: rest, h => by
    rw [Ascending, List.pairwise_cons] at h
    rw [eraseEntry]
    by_cases hk : compare key first = .eq
    · rw [if_pos hk, TransCmp.congr_right hk]
      by_cases ho : compare other first = .eq
      · rw [if_pos ho, lookup_congr ho]
        exact lookup_eq_none_of_lt h.1
      · rw [if_neg ho, lookup, if_neg ho]
    · rw [if_neg hk, lookup, lookup_eraseEntry key other h.2, lookup]
      by_cases ho : compare other first = .eq
      · have : ¬ compare other key = .eq := fun hok =>
          hk (TransCmp.eq_trans (OrientedCmp.eq_symm hok) ho)
        simp [ho, this]
      · simp [ho]

theorem get?_erase (m : SortedMap κ α) (key other : κ) :
    (m.erase key).get? other = if compare other key = .eq then none else m.get? other :=
  lookup_eraseEntry key other m.ascending

omit [TransOrd κ] in
theorem lookup_map {β : Type w} (f : α → β) (key : κ) : ∀ entries : List (κ × α),
    lookup key (entries.map fun e => (e.1, f e.2)) = (lookup key entries).map f
  | [] => rfl
  | (first, value) :: rest => by
    rw [List.map_cons, lookup, lookup, lookup_map f key rest]
    split <;> rfl

omit [TransOrd κ] in
theorem get?_map {β : Type w} (f : α → β) (m : SortedMap κ α) (key : κ) : (m.map f).get? key = (m.get? key).map f :=
  lookup_map f key m.entries

theorem lookup_of_mem {key : κ} {value : α} :
    ∀ {entries : List (κ × α)}, Ascending entries → (key, value) ∈ entries →
      lookup key entries = some value
  | [], _, h => by simp at h
  | (first, old) :: rest, ha, h => by
    rw [Ascending, List.pairwise_cons] at ha
    rcases List.mem_cons.1 h with h | h
    · cases h
      simp [lookup]
    · have hlt := ha.1 _ h
      have : ¬ compare key first = .eq := fun hk => by
        rw [OrientedCmp.eq_symm hk] at hlt
        exact absurd hlt (by decide)
      rw [lookup, if_neg this, lookup_of_mem ha.2 h]

/-- No key occurs twice. -/
theorem nodup_keys (m : SortedMap κ α) : m.keys.Nodup := by
  rw [keys, List.Nodup, List.pairwise_map]
  refine m.ascending.imp fun {a b} hlt heq => ?_
  have hself : compare b.1 b.1 = .eq := ReflCmp.compare_self
  rw [heq, hself] at hlt
  cases hlt

variable [LawfulEqOrd κ]

omit [TransOrd κ] in
theorem mem_of_lookup {key : κ} {value : α} :
    ∀ {entries : List (κ × α)}, lookup key entries = some value → (key, value) ∈ entries
  | [], h => by simp [lookup] at h
  | (first, old) :: rest, h => by
    rw [lookup] at h
    split at h
    · rename_i heq
      cases LawfulEqCmp.eq_of_compare heq
      cases h
      exact List.mem_cons_self ..
    · exact List.mem_cons_of_mem _ (mem_of_lookup h)

theorem get?_eq_some_iff {m : SortedMap κ α} {key : κ} {value : α} :
    m.get? key = some value ↔ (key, value) ∈ m.entries :=
  ⟨mem_of_lookup, lookup_of_mem m.ascending⟩

theorem mem_keys_iff {m : SortedMap κ α} {key : κ} : key ∈ m.keys ↔ m.contains key = true := by
  rw [contains, Option.isSome_iff_exists, keys, List.mem_map]
  constructor
  · rintro ⟨e, he, rfl⟩
    exact ⟨e.2, get?_eq_some_iff.2 he⟩
  · rintro ⟨value, hvalue⟩
    exact ⟨(key, value), get?_eq_some_iff.1 hvalue, rfl⟩

/-- Ascending entries with the same members are the same list. -/
theorem entries_eq_of_mem_iff :
    ∀ {a b : List (κ × α)}, Ascending a → Ascending b → (∀ e, e ∈ a ↔ e ∈ b) → a = b
  | [], [], _, _, _ => rfl
  | [], y :: ys, _, _, h => absurd ((h y).2 (List.mem_cons_self ..)) (by simp)
  | x :: xs, [], _, _, h => absurd ((h x).1 (List.mem_cons_self ..)) (by simp)
  | x :: xs, y :: ys, ha, hb, h => by
    rw [Ascending, List.pairwise_cons] at ha hb
    have hxy : x = y := by
      rcases List.mem_cons.1 ((h x).1 (List.mem_cons_self ..)) with hx | hx
      · exact hx
      · rcases List.mem_cons.1 ((h y).2 (List.mem_cons_self ..)) with hy | hy
        · exact hy.symm
        · have h1 := ha.1 y hy
          have h2 := hb.1 x hx
          rw [OrientedCmp.gt_iff_lt.2 h1] at h2
          exact absurd h2 (by decide)
    subst hxy
    have irrefl : ∀ e : κ × α, e ∈ xs ∨ e ∈ ys → e ≠ x := fun e he hex => by
      have : compare x.1 x.1 = .lt := by
        rcases he with he | he
        · exact hex ▸ ha.1 e he
        · exact hex ▸ hb.1 e he
      have same : compare x.1 x.1 = .eq := ReflCmp.compare_self
      exact absurd (this.symm.trans same) (by decide)
    congr 1
    refine entries_eq_of_mem_iff ha.2 hb.2 fun e => ⟨fun he => ?_, fun he => ?_⟩
    · rcases List.mem_cons.1 ((h e).1 (List.mem_cons_of_mem _ he)) with hx | hx
      · exact absurd hx (irrefl e (Or.inl he))
      · exact hx
    · rcases List.mem_cons.1 ((h e).2 (List.mem_cons_of_mem _ he)) with hx | hx
      · exact absurd hx (irrefl e (Or.inr he))
      · exact hx

/-- Maps with the same look-ups are equal. -/
theorem ext_get? {a b : SortedMap κ α} (h : ∀ key, a.get? key = b.get? key) : a = b := by
  have : a.entries = b.entries := entries_eq_of_mem_iff a.ascending b.ascending fun e => by
    rw [← get?_eq_some_iff (m := a), ← get?_eq_some_iff (m := b), h]
  cases a
  cases b
  cases this
  rfl

/-- A value that is set twice is the one set last. -/
theorem insert_insert (m : SortedMap κ α) (key : κ) (first last : α) :
    (m.insert key first).insert key last = m.insert key last := by
  refine ext_get? fun other => ?_
  rw [get?_insert, get?_insert, get?_insert]
  split <;> rfl

theorem map_insert {β : Type w} (f : α → β) (m : SortedMap κ α) (key : κ) (value : α) :
    (m.insert key value).map f = (m.map f).insert key (f value) := by
  refine ext_get? fun other => ?_
  rw [get?_map, get?_insert, get?_insert, get?_map]
  split <;> rfl

end Lawful

/-! ## Order of maps -/

/-- Maps are ordered as the lists of their entries, an entry by its key and then its value. -/
instance [Ord α] : Ord (SortedMap κ α) :=
  ⟨fun a b => List.compareLex (compareLex (compareOn Prod.fst) (compareOn Prod.snd)) a.entries b.entries⟩

section

attribute [local instance] lexOrd

instance [Ord α] [TransOrd κ] [TransOrd α] : TransOrd (SortedMap κ α) :=
  inferInstanceAs (TransCmp (compareOn SortedMap.entries))

/-- The order of maps tells different maps apart. -/
instance [Ord α] [TransOrd κ] [TransOrd α] [LawfulEqOrd κ] [LawfulEqOrd α] : LawfulEqOrd (SortedMap κ α) where
  eq_of_compare {a b} h := by
    have h : compare a.entries b.entries = .eq := h
    have : a.entries = b.entries := LawfulEqCmp.eq_of_compare h
    cases a
    cases b
    cases this
    rfl

end

end SortedMap

/-- A set of keys, in ascending order. -/
structure SortedSet (κ : Type u) [Ord κ] where
  marks : SortedMap κ Unit
deriving DecidableEq

namespace SortedSet

variable {κ : Type u} [Ord κ]

def empty : SortedSet κ := ⟨SortedMap.empty⟩

instance : Inhabited (SortedSet κ) := ⟨empty⟩

/-- The members, ascending. -/
def toList (s : SortedSet κ) : List κ := s.marks.keys

/-- Is `key` a member? -/
def contains (s : SortedSet κ) (key : κ) : Bool := s.marks.contains key

def isEmpty (s : SortedSet κ) : Bool := s.marks.entries.isEmpty

/-- The set with `key` added. -/
def insert [TransOrd κ] (s : SortedSet κ) (key : κ) : SortedSet κ := ⟨s.marks.insert key ()⟩

/-- The set without `key`. -/
def erase (s : SortedSet κ) (key : κ) : SortedSet κ := ⟨s.marks.erase key⟩

def ofList [TransOrd κ] (keys : List κ) : SortedSet κ := keys.foldl insert empty

instance : Membership κ (SortedSet κ) := ⟨fun s key => s.contains key = true⟩

instance (key : κ) (s : SortedSet κ) : Decidable (key ∈ s) :=
  inferInstanceAs (Decidable (s.contains key = true))

theorem mem_iff {s : SortedSet κ} {key : κ} : key ∈ s ↔ (s.marks.get? key).isSome = true := Iff.rfl

section Lawful

variable [TransOrd κ] [LawfulEqOrd κ]

theorem mem_toList {s : SortedSet κ} {key : κ} : key ∈ s.toList ↔ key ∈ s := SortedMap.mem_keys_iff

theorem mem_insert {s : SortedSet κ} {key other : κ} : other ∈ s.insert key ↔ other = key ∨ other ∈ s := by
  rw [mem_iff, mem_iff, insert, SortedMap.get?_insert]
  by_cases h : compare other key = .eq
  · simp [LawfulEqCmp.eq_of_compare h]
  · have : other ≠ key := fun hk => h (hk ▸ ReflCmp.compare_self)
    simp [h, this]

theorem mem_foldl_insert {key : κ} :
    ∀ {keys : List κ} {s : SortedSet κ}, key ∈ keys.foldl insert s ↔ key ∈ keys ∨ key ∈ s
  | [], s => by simp
  | first :: rest, s => by
    rw [List.foldl_cons, mem_foldl_insert, mem_insert, List.mem_cons]
    constructor
    · rintro (h | h | h)
      · exact Or.inl (Or.inr h)
      · exact Or.inl (Or.inl h)
      · exact Or.inr h
    · rintro ((h | h) | h)
      · exact Or.inr (Or.inl h)
      · exact Or.inl h
      · exact Or.inr (Or.inr h)

theorem mem_erase {s : SortedSet κ} {key other : κ} : other ∈ s.erase key ↔ other ≠ key ∧ other ∈ s := by
  rw [mem_iff, mem_iff, erase, SortedMap.get?_erase]
  by_cases h : compare other key = .eq
  · simp [LawfulEqCmp.eq_of_compare h]
  · have : other ≠ key := fun hk => h (hk ▸ ReflCmp.compare_self)
    simp [h, this]

omit [TransOrd κ] [LawfulEqOrd κ] in
theorem notMem_empty (key : κ) : key ∉ (empty : SortedSet κ) := by
  simp [mem_iff, empty, SortedMap.empty, SortedMap.get?, SortedMap.lookup]

theorem isEmpty_eq_false_iff {s : SortedSet κ} : s.isEmpty = false ↔ ∃ key, key ∈ s := by
  rw [isEmpty, List.isEmpty_eq_false_iff_exists_mem]
  constructor
  · rintro ⟨e, he⟩
    exact ⟨e.1, mem_toList.1 (List.mem_map_of_mem he)⟩
  · rintro ⟨key, hkey⟩
    obtain ⟨e, he, _⟩ := List.mem_map.1 (mem_toList.2 hkey)
    exact ⟨e, he⟩

/-- Collecting a list keeps exactly its members. -/
theorem mem_ofList {keys : List κ} {key : κ} : key ∈ ofList keys ↔ key ∈ keys := by
  rw [ofList, mem_foldl_insert]
  exact ⟨fun h => h.elim id fun h => absurd h (notMem_empty key), Or.inl⟩

/-- Sets with the same members are equal. -/
theorem ext_mem {s t : SortedSet κ} (h : ∀ key, key ∈ s ↔ key ∈ t) : s = t := by
  have : s.marks = t.marks := SortedMap.ext_get? fun key => by
    have hkey : (s.marks.get? key).isSome ↔ (t.marks.get? key).isSome := h key
    cases hs : s.marks.get? key <;> cases ht : t.marks.get? key <;> simp_all
  cases s
  cases t
  cases this
  rfl

end Lawful

end SortedSet

end PetriTree
