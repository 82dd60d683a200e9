import PetriTree.Expr

/-!
# PetriTree — definitions without cycles

Rate parameters may be defined through one another, but not in a circle. The check walks from every
parameter along what its definition mentions and answers with the definitions in an order in which
each mentions later ones only, or with a parameter that the walk met again on its own way.

* `definitionOrder` — the order, or a parameter on a cycle.
-/

namespace PetriTree

/-- The keys of definitions that are not on the way walked so far. -/
def unvisited (definitions : List (String × Expr)) (active : List String) : List String :=
  (definitions.map Prod.fst).filter fun key => !active.contains key

/-- One more step on the way takes one key off the unvisited ones. -/
theorem unvisited_cons (definitions : List (String × Expr)) (active : List String) (id : String) :
    unvisited definitions (id :: active) = (unvisited definitions active).filter (!· == id) := by
  unfold unvisited
  rw [List.filter_filter]
  congr 1
  funext key
  rw [List.contains_cons, Bool.not_or]

theorem mem_keys_of_lookup {definitions : List (String × Expr)} {id : String} {e : Expr}
    (h : definitions.lookup id = some e) : id ∈ definitions.map Prod.fst := by
  induction definitions with
  | nil => simp at h
  | cons d rest ih =>
    rw [List.lookup_cons] at h
    by_cases hd : id == d.1
    · simp [eq_of_beq hd]
    · simp only [hd] at h
      exact List.mem_cons_of_mem _ (ih h)

/-- A way that goes on to a key it has not met leaves fewer keys unvisited. -/
theorem unvisited_cons_lt {definitions : List (String × Expr)} {active : List String} {id : String}
    {e : Expr} (hmem : definitions.lookup id = some e) (hactive : active.contains id = false) :
    (unvisited definitions (id :: active)).length < (unvisited definitions active).length := by
  rw [unvisited_cons, List.length_filter_lt_length_iff_exists]
  refine ⟨id, List.mem_filter.2 ⟨mem_keys_of_lookup hmem, ?_⟩, by simp⟩
  rw [hactive]
  rfl

/-- Walks from the parameter `id` along the definitions. `active` is the way to it, `done` the
definitions that are settled, each before what it mentions. -/
def settle (definitions : List (String × Expr)) (active : List String) (done : List (String × Expr))
    (id : String) : Except String (List (String × Expr)) :=
  if (done.lookup id).isSome then .ok done
  else if _hactive : active.contains id = false then
    match _hmem : definitions.lookup id with
    -- what nothing defines is found to be missing elsewhere
    | none => .ok done
    | some e => do
      let done ← e.mentionedParameters.toList.foldlM (settle definitions (id :: active)) done
      return (id, e) :: done
  else .error id
termination_by (unvisited definitions active).length
decreasing_by exact unvisited_cons_lt _hmem _hactive

/-- The definitions in an order in which each mentions later ones only, or a parameter on a cycle.
Parameters are visited in the order of their ids. -/
def definitionOrder (definitions : List (String × Expr)) : Except String (List (String × Expr)) :=
  (SortedSet.ofList (definitions.map Prod.fst)).toList.foldlM (settle definitions []) []

end PetriTree
