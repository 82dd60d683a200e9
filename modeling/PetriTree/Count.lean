import PetriTree.Number.Binary

/-!
# PetriTree — token counts

A place holds a finite number of tokens of each colour or infinitely many. Finite counts stay at or
below `Count.limit`: sums that would exceed it are clamped there, never promoted to infinity.
Infinity absorbs what is added and what is taken.

* `Count.add`, `Count.sub?`, `Count.multiplesOf` — the arithmetic of firing;
* `Count.rank` — the number a count is ordered and stored by, infinity above every finite count.
-/

namespace PetriTree

/-- A number of tokens. -/
inductive Count where
  | finite (value : Fin 0xffffffffffffffff)
  | infinite
deriving DecidableEq

namespace Count

def limit : Nat := 0xfffffffffffffffe

/-- The finite count nearest to a number: itself, or the limit. -/
def ofNat (n : Nat) : Count := finite ⟨min n limit, by unfold limit; omega⟩

def zero : Count := ofNat 0

instance : Inhabited Count := ⟨zero⟩

def isInfinite : Count → Bool
  | infinite => true
  | finite _ => false

def isZero : Count → Bool
  | infinite => false
  | finite n => n.val == 0

/-- The number a count is ordered and stored by. -/
def rank : Count → Nat
  | finite n => n.val
  | infinite => 0xffffffffffffffff

/-- The count stored as a 64-bit number, the greatest of which stands for infinity. -/
def ofRank (n : UInt64) : Count :=
  if h : n.toNat < 0xffffffffffffffff then finite ⟨n.toNat, h⟩ else infinite

/-- The sum, clamped at the limit. -/
def add : Count → Count → Count
  | finite a, finite b => ofNat (a.val + b.val)
  -- infinity absorbs: only two finite counts have a finite sum
  | _, _ => infinite

/-- What is left after taking `b`; nothing when a finite count would drop below zero. -/
def sub? : Count → Count → Option Count
  -- an infinite place is never used up, not even by an infinite weight
  | infinite, _ => some infinite
  | finite _, infinite => none
  | finite a, finite b => if b.val ≤ a.val then some (ofNat (a.val - b.val)) else none

/-- The greatest `k` such that `k` times the weight can be taken; nothing when there is no bound. -/
def multiplesOf : Count → Count → Option Nat
  | infinite, _ => none
  | finite _, infinite => some 0
  -- a weight of zero asks for nothing and so bounds nothing
  | finite a, finite w => if w.val = 0 then none else some (a.val / w.val)

/-- The count as a number expressions compute with. -/
def toFloat : Count → Float
  | finite n => Number.nearest n.val 1
  | infinite => Number.ofPattern false Number.infinityPattern

def text : Count → String
  | finite n => toString n.val
  | infinite => "∞"

def debugText (c : Count) : String := "Count(" ++ c.text ++ ")"

/-! ## Order -/

instance : Ord Count := ⟨fun a b => compare a.rank b.rank⟩

theorem rank_injective {a b : Count} (h : a.rank = b.rank) : a = b := by
  cases a with
  | infinite =>
    cases b with
    | infinite => rfl
    | finite b =>
      have := b.isLt
      simp only [rank] at h
      omega
  | finite a =>
    cases b with
    | infinite =>
      have := a.isLt
      simp only [rank] at h
      omega
    | finite b => exact congrArg finite (Fin.ext h)

instance : Std.TransOrd Count :=
  inferInstanceAs (Std.TransCmp (compareOn rank))

instance : Std.LawfulEqOrd Count where
  eq_of_compare {a b} h := by
    have h : compare a.rank b.rank = .eq := h
    exact rank_injective (Std.LawfulEqCmp.eq_of_compare h)

end Count

end PetriTree
