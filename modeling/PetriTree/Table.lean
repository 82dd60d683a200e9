/-!
# PetriTree — tables in insertion order

A table keeps one value per name, in the order in which the names were first inserted. Replacing a
value keeps its place, removing one closes the gap.

Main results:
* `get?_insert` — what an insertion does to every look-up;
* `get?_erase` — what a removal does to every look-up;
* `names_insert` — what an insertion does to the order.
-/

namespace PetriTree

/-- A value per name, in insertion order. -/
structure Table (α : Type u) where
  entries : List (String × α)
  nodup : (entries.map Prod.fst).Nodup := by simp
deriving DecidableEq

namespace Table

variable {α : Type u} {β : Type v}

def empty : Table α := ⟨[], by simp⟩

instance : Inhabited (Table α) := ⟨empty⟩

/-- The names, in order. -/
def names (t : Table α) : List String := t.entries.map Prod.fst

/-- The values, in order. -/
def values (t : Table α) : List α := t.entries.map Prod.snd

def size (t : Table α) : Nat := t.entries.length

/-! ## Look-up -/

/-- The value of `name` among entries. -/
def lookup (name : String) : List (String × α) → Option α
  | [] => none
  | (key, value) :: rest => if key = name then some value else lookup name rest

/-- The value of `name`. -/
def get? (t : Table α) (name : String) : Option α := lookup name t.entries

/-- Is there a value for `name`? -/
def contains (t : Table α) (name : String) : Bool := (t.get? name).isSome

theorem lookup_eq_none_iff {name : String} :
    ∀ {entries : List (String × α)}, lookup name entries = none ↔ name ∉ entries.map Prod.fst
  | [] => by simp [lookup]
  | (key, value) :: rest => by
    by_cases h : key = name
    · simp [lookup, h]
    · have ih : lookup name rest = none ↔ name ∉ rest.map Prod.fst := lookup_eq_none_iff
      simp [lookup, h, ih, Ne.symm h]

theorem lookup_isSome_iff {name : String} {entries : List (String × α)} :
    (lookup name entries).isSome ↔ name ∈ entries.map Prod.fst := by
  rw [← Decidable.not_iff_not, ← lookup_eq_none_iff]
  simp

theorem mem_names_iff {t : Table α} {name : String} : name ∈ t.names ↔ t.contains name = true :=
  lookup_isSome_iff.symm

theorem mem_of_lookup {name : String} {value : α} :
    ∀ {entries : List (String × α)}, lookup name entries = some value → (name, value) ∈ entries
  | [], h => by simp [lookup] at h
  | (key, found) :: rest, h => by
    by_cases hk : key = name
    · simp only [lookup, hk, if_true, Option.some.injEq] at h
      simp [hk, h]
    · simp only [lookup, hk, if_false] at h
      exact List.mem_cons_of_mem _ (mem_of_lookup h)

theorem lookup_of_mem {name : String} {value : α} :
    ∀ {entries : List (String × α)}, (entries.map Prod.fst).Nodup →
      (name, value) ∈ entries → lookup name entries = some value
  | [], _, h => by simp at h
  | (key, found) :: rest, hn, h => by
    rw [List.map_cons, List.nodup_cons] at hn
    rcases List.mem_cons.1 h with h | h
    · cases h
      simp [lookup]
    · have : key ≠ name := fun hk => hn.1 (List.mem_map.2 ⟨_, h, hk.symm⟩)
      simp [lookup, this, lookup_of_mem hn.2 h]

theorem get?_eq_some_iff {t : Table α} {name : String} {value : α} :
    t.get? name = some value ↔ (name, value) ∈ t.entries :=
  ⟨mem_of_lookup, lookup_of_mem t.nodup⟩

/-! ## Insertion -/

/-- Entries with the value of `name` replaced, or appended when there was none. -/
def insertEntry (name : String) (value : α) : List (String × α) → List (String × α)
  | [] => [(name, value)]
  | (key, old) :: rest =>
    if key = name then (key, value) :: rest else (key, old) :: insertEntry name value rest

theorem map_fst_insertEntry (name : String) (value : α) :
    ∀ entries : List (String × α), (insertEntry name value entries).map Prod.fst =
      if name ∈ entries.map Prod.fst then entries.map Prod.fst else entries.map Prod.fst ++ [name]
  | [] => by simp [insertEntry]
  | (key, old) :: rest => by
    by_cases h : key = name
    · simp [insertEntry, h]
    · rw [insertEntry, if_neg h, List.map_cons, map_fst_insertEntry name value rest]
      by_cases hr : name ∈ rest.map Prod.fst
      · simp only [hr, if_true, List.map_cons, List.mem_cons, or_true]
      · have : ¬ name = key := Ne.symm h
        simp only [hr, if_false, List.map_cons, List.mem_cons, this, or_self, List.cons_append]

theorem nodup_insertEntry {name : String} {value : α} {entries : List (String × α)}
    (h : (entries.map Prod.fst).Nodup) : ((insertEntry name value entries).map Prod.fst).Nodup := by
  rw [map_fst_insertEntry]
  split
  · exact h
  · rename_i hn
    rw [List.nodup_append]
    exact ⟨h, by simp, fun a ha b hb => by
      rw [List.mem_singleton] at hb
      exact fun hab => hn (hb ▸ hab ▸ ha)⟩

/-- The table with the value of `name` set; a new name goes to the end. -/
def insert (t : Table α) (name : String) (value : α) : Table α :=
  ⟨insertEntry name value t.entries, nodup_insertEntry t.nodup⟩

theorem lookup_insertEntry (name key : String) (value : α) :
    ∀ entries : List (String × α),
      lookup key (insertEntry name value entries) = if name = key then some value else lookup key entries
  | [] => rfl
  | (first, old) :: rest => by
    by_cases h : first = name
    · subst h
      by_cases hk : first = key <;> simp [insertEntry, lookup, hk]
    · by_cases hk : first = key
      · subst hk
        simp [insertEntry, lookup, h, Ne.symm h]
      · simp [insertEntry, lookup, h, hk, lookup_insertEntry name key value rest]

theorem get?_insert (t : Table α) (name key : String) (value : α) :
    (t.insert name value).get? key = if name = key then some value else t.get? key :=
  lookup_insertEntry name key value t.entries

theorem names_insert (t : Table α) (name : String) (value : α) :
    (t.insert name value).names = if name ∈ t.names then t.names else t.names ++ [name] :=
  map_fst_insertEntry name value t.entries

/-- The table of the pairs, a later pair replacing the value of an earlier one of its name. -/
def ofList (pairs : List (String × α)) : Table α :=
  pairs.foldl (fun t pair => t.insert pair.1 pair.2) empty

/-! ## Removal -/

def filter (t : Table α) (keep : String → α → Bool) : Table α :=
  ⟨t.entries.filter fun e => keep e.1 e.2, t.nodup.sublist ((List.filter_sublist).map Prod.fst)⟩

/-- The table without `name`. -/
def erase (t : Table α) (name : String) : Table α := t.filter fun key _ => key != name

theorem lookup_filter (key : String) (keep : String → α → Bool) :
    ∀ {entries : List (String × α)}, (entries.map Prod.fst).Nodup →
      lookup key (entries.filter fun e => keep e.1 e.2) = (lookup key entries).filter (keep key)
  | [], _ => rfl
  | (first, old) :: rest, hn => by
    rw [List.map_cons, List.nodup_cons] at hn
    by_cases hk : first = key
    · subst hk
      by_cases h : keep first old = true
      · simp [lookup, h, Option.filter]
      · have : lookup first (rest.filter fun e => keep e.1 e.2) = none := by
          rw [lookup_filter first keep hn.2, lookup_eq_none_iff.2 hn.1, Option.filter_none]
        simp [lookup, h, Option.filter, this]
    · by_cases h : keep first old = true
      · simp [lookup, h, hk, lookup_filter key keep hn.2]
      · simp [lookup, h, hk, lookup_filter key keep hn.2]

theorem get?_filter (t : Table α) (keep : String → α → Bool) (key : String) :
    (t.filter keep).get? key = (t.get? key).filter (keep key) :=
  lookup_filter key keep t.nodup

theorem get?_erase (t : Table α) (name key : String) :
    (t.erase name).get? key = if name = key then none else t.get? key := by
  rw [erase, get?_filter]
  by_cases h : name = key
  · cases t.get? key <;> simp [h, Option.filter]
  · cases t.get? key <;> simp [h, Option.filter, Ne.symm h]

/-! ## Changing values -/

def map (t : Table α) (f : String → α → β) : Table β :=
  ⟨t.entries.map fun e => (e.1, f e.1 e.2), by
    rw [List.map_map]
    exact t.nodup⟩

theorem names_map (t : Table α) (f : String → α → β) : (t.map f).names = t.names := by
  simp [names, map, Function.comp_def]

theorem lookup_map (f : String → α → β) (key : String) :
    ∀ entries : List (String × α),
      lookup key (entries.map fun e => (e.1, f e.1 e.2)) = (lookup key entries).map (f key)
  | [] => rfl
  | (first, old) :: rest => by
    by_cases h : first = key
    · subst h
      simp [lookup]
    · simp [lookup, h, lookup_map f key rest]

theorem get?_map (t : Table α) (f : String → α → β) (key : String) :
    (t.map f).get? key = (t.get? key).map (f key) :=
  lookup_map f key t.entries

/-- The table with the value of `name`, if there is one, changed. -/
def modify (t : Table α) (name : String) (f : α → α) : Table α :=
  t.map fun key value => if key = name then f value else value

theorem get?_modify (t : Table α) (name key : String) (f : α → α) :
    (t.modify name f).get? key = if name = key then (t.get? key).map f else t.get? key := by
  rw [modify, get?_map]
  by_cases h : name = key
  · cases t.get? key <;> simp [h]
  · cases t.get? key <;> simp [h, Ne.symm h]

/-- The name that `key` has once `old` is renamed to `new`. -/
def renamed (old new key : String) : String := if key = old then new else key

theorem nodup_map_renamed {old new : String} :
    ∀ {keys : List String}, new ∉ keys → keys.Nodup → (keys.map (renamed old new)).Nodup
  | [], _, _ => by simp
  | key :: rest, hnew, hn => by
    rw [List.nodup_cons] at hn
    have hrest : new ∉ rest := fun h => hnew (List.mem_cons_of_mem _ h)
    have hkey : new ≠ key := fun h => hnew (h ▸ List.mem_cons_self ..)
    rw [List.map_cons, List.nodup_cons]
    refine ⟨fun hmem => ?_, nodup_map_renamed hrest hn.2⟩
    obtain ⟨other, hother, heq⟩ := List.mem_map.1 hmem
    have hne : new ≠ other := fun h => hrest (h ▸ hother)
    by_cases hk : key = old <;> by_cases ho : other = old
    · exact hn.1 (hk.trans ho.symm ▸ hother)
    · simp only [renamed, hk, ho, if_true, if_false] at heq
      exact hne heq.symm
    · simp only [renamed, hk, ho, if_true, if_false] at heq
      exact hkey heq
    · simp only [renamed, hk, ho, if_false] at heq
      exact hn.1 (heq ▸ hother)

/-- The table with the entry of `old` under the name `new` in its place; unchanged when `new` is
already taken. -/
def rename (t : Table α) (old new : String) : Table α :=
  if h : new ∈ t.names then t
  else ⟨t.entries.map fun e => (renamed old new e.1, e.2), by
    rw [List.map_map]
    exact (List.map_map (g := renamed old new) (f := Prod.fst) ▸ nodup_map_renamed h t.nodup :)⟩

/-! ## Changes that may fail -/

/-- Entries with every value mapped, up to the first failure. -/
def mapEntries (f : String → α → Except ε β) : List (String × α) → Except ε (List (String × β))
  | [] => .ok []
  | (key, value) :: rest =>
    match f key value with
    | .error e => .error e
    | .ok mapped =>
      match mapEntries f rest with
      | .error e => .error e
      | .ok others => .ok ((key, mapped) :: others)

theorem map_fst_mapEntries {f : String → α → Except ε β} :
    ∀ {entries : List (String × α)} {mapped : List (String × β)},
      mapEntries f entries = .ok mapped → mapped.map Prod.fst = entries.map Prod.fst
  | [], _, h => by
    cases h
    rfl
  | (key, value) :: rest, mapped, h => by
    rw [mapEntries] at h
    split at h
    · cases h
    · split at h
      · cases h
      · rename_i others hothers
        cases h
        simp [map_fst_mapEntries hothers]

/-- The table with every value mapped in order, or the first failure. -/
def mapExcept (t : Table α) (f : String → α → Except ε β) : Except ε (Table β) :=
  match h : mapEntries f t.entries with
  | .error e => .error e
  | .ok mapped => .ok ⟨mapped, map_fst_mapEntries h ▸ t.nodup⟩

/-! ## Comparison -/

/-- Do two tables give the same names equal values, whatever their order? -/
def agree (same : α → α → Bool) (a b : Table α) : Bool :=
  a.size == b.size && a.entries.all fun e =>
    match b.get? e.1 with
    | some other => same e.2 other
    | none => false

end Table

end PetriTree
