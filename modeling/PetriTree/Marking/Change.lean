import PetriTree.Marking

/-!
# PetriTree — differences between markings

What a firing did to a marking is recorded as the list of counts that differ, with both values.

* `TokenChange.diff` — the differing counts, by place and then colour;
* `TokenChange.delta` — the signed difference of one count, kept within 64 bits.
-/

namespace PetriTree

/-- One count before and after. -/
structure TokenChange where
  place : String
  color : String
  before : Count
  after : Count
deriving DecidableEq

namespace TokenChange

/-- The greatest signed 64-bit number. -/
def deltaLimit : Nat := 0x7fffffffffffffff

/-- The signed difference, each side first clamped to the signed range; zero when a side is
infinite, where no difference exists. -/
def delta (change : TokenChange) : Int :=
  match change.before, change.after with
  | .finite before, .finite after =>
    (min after.val deltaLimit : Nat) - (min before.val deltaLimit : Nat)
  | _, _ => 0

def inPlace (place : String) (before after : Holding) : List TokenChange :=
  (SortedSet.ofList (before.counts.keys ++ after.counts.keys)).toList.filterMap fun color =>
    if before.tokens color = after.tokens color then none
    else some ⟨place, color, before.tokens color, after.tokens color⟩

/-- Every count that differs between two markings, by place and then colour. -/
def diff (before after : Marking) : List TokenChange :=
  (SortedSet.ofList (before.places.keys ++ after.places.keys)).toList.flatMap fun place =>
    inPlace place (before.holding place) (after.holding place)

end TokenChange

end PetriTree
