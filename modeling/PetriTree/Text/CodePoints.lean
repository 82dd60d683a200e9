/-!
# PetriTree — sets of code points

A set of code points is given by the ascending points where membership changes: the first one is
the first member, the second the next non-member, and so on.

* `isInside` — membership of a code point in such a set.
-/

namespace PetriTree.Text

/-- Is `point` in the set with these boundaries? It is when an odd number of boundaries lies at or
below it; `inside` says whether the part already passed ends in the set. -/
def insideFrom (inside : Bool) (point : Nat) : List Nat → Bool
  | [] => inside
  | boundary :: rest => if point < boundary then inside else insideFrom (!inside) point rest

/-- Is `point` in the set with these ascending boundaries? -/
def isInside (boundaries : List Nat) (point : Nat) : Bool := insideFrom false point boundaries

end PetriTree.Text
