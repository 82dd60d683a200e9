import PetriTree.Text.Quoted

/-!
# PetriTree — arenas

An arena hands out a fresh id for every value it takes in. A removed value leaves its slot behind,
so an id either still stands for the value it was made for or for nothing.

Main results:
* `get?_alloc` — a fresh id stands for its value and changes no other;
* `get?_remove` — a removed id stands for nothing and changes no other.
-/

namespace PetriTree

/-- The id of a slot. -/
structure NodeId where
  index : Nat
deriving DecidableEq, Repr

namespace NodeId

instance : Inhabited NodeId := ⟨⟨0⟩⟩

def text (id : NodeId) : String := "n" ++ toString id.index

end NodeId

/-- Values by id; slots of removed values stay empty. -/
structure Arena (α : Type u) where
  slots : List (Option α)

namespace Arena

variable {α : Type u}

def empty : Arena α := ⟨[]⟩

instance : Inhabited (Arena α) := ⟨empty⟩

/-- The id the next value will get. -/
def nextId (a : Arena α) : NodeId := ⟨a.slots.length⟩

/-- The arena with a value added under `nextId`. -/
def alloc (a : Arena α) (value : α) : Arena α := ⟨a.slots ++ [some value]⟩

def get? (a : Arena α) (id : NodeId) : Option α := (a.slots[id.index]?).join

def contains (a : Arena α) (id : NodeId) : Bool := (a.get? id).isSome

/-- The arena with the value of an id, if there is one, changed. -/
def modify (a : Arena α) (id : NodeId) (f : α → α) : Arena α :=
  ⟨a.slots.modify id.index (Option.map f)⟩

def remove (a : Arena α) (id : NodeId) : Arena α := ⟨a.slots.modify id.index fun _ => none⟩

def map (a : Arena α) (f : NodeId → α → α) : Arena α :=
  ⟨a.slots.mapIdx fun i slot => slot.map (f ⟨i⟩)⟩

/-- Ids and values of the filled slots among slots that start at `index`. -/
def entriesFrom (index : Nat) : List (Option α) → List (NodeId × α)
  | [] => []
  | none :: rest => entriesFrom (index + 1) rest
  | some value :: rest => (⟨index⟩, value) :: entriesFrom (index + 1) rest

def entries (a : Arena α) : List (NodeId × α) := entriesFrom 0 a.slots

def size (a : Arena α) : Nat := a.entries.length

/-- A fresh id stands for its value and changes no other. -/
theorem get?_alloc (a : Arena α) (value : α) (id : NodeId) :
    (a.alloc value).get? id = if id = a.nextId then some value else a.get? id := by
  unfold alloc get? nextId
  by_cases h : id.index = a.slots.length
  · have : id = ⟨a.slots.length⟩ := by cases id; simp_all
    simp [this]
  · have : id ≠ ⟨a.slots.length⟩ := fun hid => h (by rw [hid])
    rw [if_neg this, List.getElem?_append]
    split
    · rfl
    · rename_i hlt
      have : a.slots.length < id.index := by omega
      rw [List.getElem?_eq_none (by simp; omega), List.getElem?_eq_none (by omega)]

theorem get?_modify (a : Arena α) (id other : NodeId) (f : α → α) :
    (a.modify id f).get? other = if other = id then (a.get? other).map f else a.get? other := by
  unfold modify get?
  rw [List.getElem?_modify]
  by_cases h : other = id
  · subst h
    cases h : a.slots[other.index]? <;> simp
  · have : id.index ≠ other.index := fun hi => h (by cases id; cases other; simp_all)
    simp [h, this]

/-- A removed id stands for nothing and changes no other. -/
theorem get?_remove (a : Arena α) (id other : NodeId) :
    (a.remove id).get? other = if other = id then none else a.get? other := by
  unfold remove get?
  rw [List.getElem?_modify]
  by_cases h : other = id
  · subst h
    cases h : a.slots[other.index]? <;> simp
  · have : id.index ≠ other.index := fun hi => h (by cases id; cases other; simp_all)
    simp [h, this]

/-! ## Strict access and text -/

/-- An id that stands for nothing was used where a value is required. -/
structure MissingSlot where
  id : NodeId
deriving DecidableEq

def MissingSlot.message (e : MissingSlot) : String :=
  e.id.text ++ " refers to a removed or unknown slot"

def get (a : Arena α) (id : NodeId) : Except MissingSlot α :=
  match a.get? id with
  | some value => .ok value
  | none => .error ⟨id⟩

/-- The arena with the value of an id, which has to have one, replaced. -/
def set (a : Arena α) (id : NodeId) (value : α) : Except MissingSlot (Arena α) :=
  if a.contains id then .ok (a.modify id fun _ => value) else .error ⟨id⟩

def debugText (a : Arena String) : String :=
  "\x7b" ++ ", ".intercalate (a.entries.map fun e => e.1.text ++ ": " ++ Text.quote e.2) ++ "\x7d"

end Arena

end PetriTree
