import PetriTree.Count
import PetriTree.Schedule

/-!
# PetriTree — counts as words

A count is stored as a 64-bit word, and the greatest word stands for infinity. On words, what is finite and what is not
are numbers of one kind, one beside the other: a sum that stops at the last number would be infinite, a difference could
wrap around, and a quotient could be taken of infinity. So each operation looks for the sentinel first, and a sum of
finite words is moved off it.

* `Count.word` — the word that a count is stored as; `Count.ofRank` reads it;
* `Word.add`, `Word.sub?`, `Word.multiplesOf` — the arithmetic of firing;
* `Word.total` — several words added one after the other.
-/

namespace PetriTree

/-- The word that a count is stored as. -/
def Count.word (n : Count) : UInt64 := UInt64.ofNat n.rank

namespace Word

/-- The word that stands for infinity. -/
def sentinel : UInt64 := 0xffffffffffffffff

/-- The word of a finite number. The sentinel is not available and goes to the word below. -/
def clamp (v : UInt64) : UInt64 := if v = sentinel then sentinel - 1 else v

def add (v w : UInt64) : UInt64 :=
  if v = sentinel ∨ w = sentinel then sentinel
  -- the sum of finite words may stop at the sentinel
  else clamp (saturatingAdd v w)

def sub? (v w : UInt64) : Option UInt64 :=
  if v = sentinel then some v
  else if w = sentinel then none
  else if w ≤ v then some (v - w) else none

def multiplesOf (v w : UInt64) : Option UInt64 :=
  if v = sentinel ∨ w = 0 then none
  else if w = sentinel then some 0
  else some (v / w)

def total (words : List UInt64) : UInt64 := words.foldl add 0

end Word

end PetriTree
