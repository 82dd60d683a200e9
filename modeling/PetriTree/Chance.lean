/-!
# PetriTree — chance

Where a choice is left open, a stream of words makes it. The stream and how much of it was drawn are
all that chance consists of, so a run can be repeated, and what holds for every stream holds however
the choices fall.

* `Chance` — a stream that words are drawn from;
* `Chance.below` — a number below a bound;
* `Chance.choose` — a member of a list: `choose_eq_none_iff` says that only an empty list has none to
  offer.
-/

namespace PetriTree

/-- A stream of words and the number of those that were drawn. -/
structure Chance where
  words : Nat → UInt32
  drawn : Nat

namespace Chance

def wordCount : Nat := 0x100000000

def next (c : Chance) : Nat × Chance := ((c.words c.drawn).toNat, { c with drawn := c.drawn + 1 })

/-- A number below a bound: the whole part of the bound times a binary fraction, whose digits are a
word of the stream and, where more digits may raise the whole part, a second one. -/
def below (bound : Nat) (c : Chance) : Nat × Chance :=
  let (first, c) := c.next
  let product := first * bound
  if wordCount < product % wordCount + bound then
    let (second, c) := c.next
    ((product + second * bound / wordCount) / wordCount, c)
  else (product / wordCount, c)

/-- A member of a list. Nothing is drawn for an empty list, and one word at least for any other. -/
def choose (xs : List α) (c : Chance) : Option α × Chance :=
  if xs.isEmpty then (none, c)
  else
    let (position, c) := c.below xs.length
    (xs[position]?, c)

/-! ## What is chosen -/

theorem next_lt (c : Chance) : c.next.1 < wordCount := UInt32.toNat_lt (c.words c.drawn)

theorem below_lt {bound : Nat} (positive : 0 < bound) (c : Chance) : (c.below bound).1 < bound := by
  have first := c.next_lt
  have second := c.next.2.next_lt
  have room : c.next.1 * bound + bound ≤ wordCount * bound := by
    rw [← Nat.succ_mul]
    exact Nat.mul_le_mul_right bound first
  have more : c.next.2.next.1 * bound / wordCount < bound :=
    Nat.div_lt_of_lt_mul (Nat.mul_lt_mul_of_pos_right second positive)
  unfold below
  dsimp only
  split <;> exact Nat.div_lt_of_lt_mul (by omega)

theorem choose_eq_none_iff {xs : List α} {c : Chance} : (c.choose xs).1 = none ↔ xs = [] := by
  unfold choose
  split
  next empty => simpa using empty
  next full =>
    have positive : 0 < xs.length := List.length_pos_iff.mpr (by simpa using full)
    have inside := below_lt positive c
    simp only [List.getElem?_eq_none_iff]
    constructor
    · omega
    · rintro rfl
      simp at positive

end Chance

end PetriTree
