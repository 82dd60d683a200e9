import PetriTree.Expr.Evaluate
import PetriTree.Proofs.Outcome

/-!
# PetriTree — what the value of an expression depends on

An expression looks up what it mentions and nothing else. So its value is the same in two readings
that agree on its mentions, and when all that it mentions can be looked up, its own arithmetic is all
that can fail.

Main results:
* `Expr.evaluate_congr` — the value depends on the mentioned places and parameters only;
* `Expr.Formed` — expressions that give every function as many arguments as it takes;
* `Expr.evaluate_arithmetic` — such an expression, if it mentions known things only, fails by its
  arithmetic only.
-/

namespace PetriTree

namespace Expr

/-! ## Induction -/

/-- What holds of an expression as soon as it holds of its parts holds of every expression. -/
@[elab_as_elim, induction_eliminator]
theorem induction {P : Expr → Prop} (number : ∀ value, P (number value))
    (tokens : ∀ place color, P (tokens place color)) (capacity : ∀ place, P (capacity place))
    (parameter : ∀ id, P (parameter id)) (neg : ∀ inner, P inner → P (neg inner))
    (binary : ∀ operation left right, P left → P right → P (binary operation left right))
    (call : ∀ callee arguments, (∀ a ∈ arguments, P a) → P (call callee arguments)) (e : Expr) : P e :=
  -- the recursor has a case for lists of arguments, which is folded away here
  @Expr.rec P (fun arguments => ∀ a ∈ arguments, P a) number tokens capacity
    parameter neg binary call (by simp) (fun e rest he hrest a ha => by
      rcases List.mem_cons.1 ha with rfl | ha
      · exact he
      · exact hrest a ha) e

/-! ## Mentions -/

theorem placeMentionsAll_eq (arguments : List Expr) :
    placeMentionsAll arguments = arguments.flatMap placeMentions := by
  induction arguments with
  | nil => rfl
  | cons e rest ih => rw [placeMentionsAll, ih, List.flatMap_cons]

theorem parameterMentionsAll_eq (arguments : List Expr) :
    parameterMentionsAll arguments = arguments.flatMap parameterMentions := by
  induction arguments with
  | nil => rfl
  | cons e rest ih => rw [parameterMentionsAll, ih, List.flatMap_cons]

theorem placeMentions_subset_of_mem {callee : Callee} {arguments : List Expr} {a : Expr}
    (ha : a ∈ arguments) : a.placeMentions ⊆ (call callee arguments).placeMentions := by
  intro place hp
  rw [placeMentions, placeMentionsAll_eq]
  exact List.mem_flatMap.2 ⟨a, ha, hp⟩

theorem parameterMentions_subset_of_mem {callee : Callee} {arguments : List Expr} {a : Expr}
    (ha : a ∈ arguments) : a.parameterMentions ⊆ (call callee arguments).parameterMentions := by
  intro id hid
  rw [parameterMentions, parameterMentionsAll_eq]
  exact List.mem_flatMap.2 ⟨a, ha, hid⟩

theorem mem_mentionedPlaces {e : Expr} {place : String} :
    place ∈ e.mentionedPlaces.toList ↔ place ∈ e.placeMentions := by
  rw [SortedSet.mem_toList, mentionedPlaces, SortedSet.mem_ofList]

theorem mem_mentionedColors {e : Expr} {color : String} :
    color ∈ e.mentionedColors.toList ↔ color ∈ e.colorMentions := by
  rw [SortedSet.mem_toList, mentionedColors, SortedSet.mem_ofList]

theorem mem_mentionedParameters {e : Expr} {id : String} :
    id ∈ e.mentionedParameters.toList ↔ id ∈ e.parameterMentions := by
  rw [SortedSet.mem_toList, mentionedParameters, SortedSet.mem_ofList]

/-! ## Evaluation -/

/-- Two readings that cannot be told apart by the places and parameters listed. -/
structure AgreeOn (r s : Reading) (places parameters : List String) : Prop where
  tokens : ∀ place ∈ places, ∀ color, r.tokens place color = s.tokens place color
  capacity : ∀ place ∈ places, r.capacity place = s.capacity place
  parameter : ∀ id ∈ parameters, r.parameter id = s.parameter id

theorem AgreeOn.mono {r s : Reading} {places places' parameters parameters' : List String}
    (h : AgreeOn r s places parameters) (hplaces : places' ⊆ places)
    (hparameters : parameters' ⊆ parameters) : AgreeOn r s places' parameters' where
  tokens place hp := h.tokens place (hplaces hp)
  capacity place hp := h.capacity place (hplaces hp)
  parameter id hid := h.parameter id (hparameters hid)

theorem evaluateAll_congr {r s : Reading} :
    ∀ {arguments : List Expr}, (∀ a ∈ arguments, a.evaluate r = a.evaluate s) →
      evaluateAll r arguments = evaluateAll s arguments
  | [], _ => rfl
  | e :: rest, h => by
    rw [evaluateAll, evaluateAll, h e (List.mem_cons_self ..),
      evaluateAll_congr fun a ha => h a (List.mem_cons_of_mem _ ha)]

/-- The value of an expression depends on the places and parameters it mentions only. -/
theorem evaluate_congr {r s : Reading} {e : Expr}
    (h : AgreeOn r s e.placeMentions e.parameterMentions) : e.evaluate r = e.evaluate s := by
  induction e with
  | number value => rfl
  | tokens place color =>
    rw [evaluate, evaluate, h.tokens place (List.mem_singleton.2 rfl)]
  | capacity place =>
    rw [evaluate, evaluate, h.capacity place (List.mem_singleton.2 rfl)]
  | parameter id =>
    rw [evaluate, evaluate, h.parameter id (List.mem_singleton.2 rfl)]
  | neg inner ih => rw [evaluate, evaluate, ih h]
  | binary operation left right ihl ihr =>
    rw [evaluate, evaluate,
      ihl (h.mono (List.subset_append_left ..) (List.subset_append_left ..)),
      ihr (h.mono (List.subset_append_right ..) (List.subset_append_right ..))]
  | call callee arguments ih =>
    have hall : evaluateAll r arguments = evaluateAll s arguments := by
      refine evaluateAll_congr fun a ha => ih a ha ?_
      exact h.mono (placeMentions_subset_of_mem ha) (parameterMentions_subset_of_mem ha)
    rw [evaluate, evaluate, hall]

end Expr

/-! ## Form -/

/-- Can the function be called with that many arguments? -/
def Callee.Takes (callee : Callee) (count : Nat) : Prop :=
  0 < count ∧ (callee.isUnary = true → count = 1)

namespace Expr

/-- Expressions whose functions get as many arguments as they take, and whose numbers, words (of
places and colours) and parameters pass a test. -/
inductive Formed (numbers : Float → Prop) (words parameters : String → Prop) : Expr → Prop
  | number {value : Float} : numbers value → Formed numbers words parameters (number value)
  | tokens {place : String} {color : Option String} : words place → (∀ c ∈ color, words c) →
      Formed numbers words parameters (tokens place color)
  | capacity {place : String} : words place → Formed numbers words parameters (capacity place)
  | parameter {id : String} : parameters id → Formed numbers words parameters (parameter id)
  | neg {inner : Expr} : Formed numbers words parameters inner →
      Formed numbers words parameters (neg inner)
  | binary {operation : Operation} {left right : Expr} : Formed numbers words parameters left →
      Formed numbers words parameters right →
      Formed numbers words parameters (binary operation left right)
  | call {callee : Callee} {arguments : List Expr} : callee.Takes arguments.length →
      (∀ a ∈ arguments, Formed numbers words parameters a) →
      Formed numbers words parameters (call callee arguments)

theorem Formed.imp {numbers numbers' : Float → Prop}
    {words words' parameters parameters' : String → Prop}
    (hnumbers : ∀ value, numbers value → numbers' value) (hwords : ∀ word, words word → words' word)
    (hparameters : ∀ id, parameters id → parameters' id) {e : Expr}
    (h : e.Formed numbers words parameters) : e.Formed numbers' words' parameters' := by
  induction h with
  | number h => exact .number (hnumbers _ h)
  | tokens hplace hcolor => exact .tokens (hwords _ hplace) fun c hc => hwords _ (hcolor c hc)
  | capacity hplace => exact .capacity (hwords _ hplace)
  | parameter hid => exact .parameter (hparameters _ hid)
  | neg _ ih => exact .neg ih
  | binary _ _ ihl ihr => exact .binary ihl ihr
  | call htakes _ ih => exact .call htakes ih

/-- Every function gets as many arguments as it takes. -/
def Saturated (e : Expr) : Prop := e.Formed (fun _ => True) (fun _ => True) fun _ => True

theorem Formed.saturated {numbers : Float → Prop} {words parameters : String → Prop} {e : Expr}
    (h : e.Formed numbers words parameters) : e.Saturated :=
  h.imp (fun _ _ => trivial) (fun _ _ => trivial) fun _ _ => trivial

/-! ## Errors -/

/-- The errors that the arithmetic of an expression can end with. -/
def Arithmetic (x : ExprError) : Prop := x = .divisionByZero ∨ x = .notANumber

theorem checked_arithmetic {value : Float} {x : ExprError} (h : checked value = .error x) :
    Arithmetic x := by
  unfold checked at h
  split at h
  · cases h
    exact Or.inr rfl
  · cases h

theorem operate_arithmetic {operation : Operation} {a b : Float} {x : ExprError}
    (h : operate operation a b = .error x) : Arithmetic x := by
  cases operation with
  | div =>
    rw [operate] at h
    split at h
    · cases h
      exact Or.inl rfl
    · exact checked_arithmetic h
  | _ => exact checked_arithmetic h

/-- A function that gets as many arguments as it takes fails on their values only. -/
theorem apply_arithmetic {callee : Callee} {values : List Float} {x : ExprError}
    (htakes : callee.Takes values.length) (h : apply callee values = .error x) : Arithmetic x := by
  obtain ⟨hpos, hunary⟩ := htakes
  -- no values, or too many for a unary function, are excluded by the count
  match callee, values, hpos, hunary, h with
  | .ceil, [_], _, _, h => exact checked_arithmetic h
  | .floor, [_], _, _, h => exact checked_arithmetic h
  | .ceil, _ :: _ :: _, _, hunary, _ => simp [Callee.isUnary] at hunary
  | .floor, _ :: _ :: _, _, hunary, _ => simp [Callee.isUnary] at hunary
  | .min, _ :: _, _, _, h => exact checked_arithmetic h
  | .max, _ :: _, _, _, h => exact checked_arithmetic h

theorem length_of_evaluateAll {r : Reading} :
    ∀ {arguments : List Expr} {values : List Float}, evaluateAll r arguments = .ok values →
      values.length = arguments.length
  | [], _, h => by
    cases h
    rfl
  | e :: rest, values, h => by
    simp only [evaluateAll, bind_eq_ok] at h
    obtain ⟨x, _, xs, hxs, h⟩ := h
    cases h
    rw [List.length_cons, List.length_cons, length_of_evaluateAll hxs]

theorem evaluateAll_error {r : Reading} {x : ExprError} :
    ∀ {arguments : List Expr}, evaluateAll r arguments = .error x →
      ∃ a ∈ arguments, a.evaluate r = .error x
  | [], h => by cases h
  | e :: rest, h => by
    simp only [evaluateAll, bind_eq_error] at h
    rcases h with h | ⟨_, _, h | ⟨_, _, h⟩⟩
    · exact ⟨e, List.mem_cons_self .., h⟩
    · obtain ⟨a, ha, h⟩ := evaluateAll_error h
      exact ⟨a, List.mem_cons_of_mem _ ha, h⟩
    · cases h

/-- A reading that has every place listed and whose parameters, of those listed, fail by their
arithmetic only. -/
structure Covers (r : Reading) (places parameters : List String) : Prop where
  tokens : ∀ place ∈ places, ∀ color, (r.tokens place color).isSome
  capacity : ∀ place ∈ places, (r.capacity place).isSome
  parameter : ∀ id ∈ parameters, ∀ x, r.parameter id = .error x → Arithmetic x

theorem Covers.mono {r : Reading} {places places' parameters parameters' : List String}
    (h : Covers r places parameters) (hplaces : places' ⊆ places)
    (hparameters : parameters' ⊆ parameters) : Covers r places' parameters' where
  tokens place hp := h.tokens place (hplaces hp)
  capacity place hp := h.capacity place (hplaces hp)
  parameter id hid := h.parameter id (hparameters hid)

theorem found_arithmetic {place : String} {value : Option Float} {x : ExprError}
    (hsome : value.isSome) (h : found place value = .error x) : Arithmetic x := by
  obtain ⟨value, rfl⟩ := Option.isSome_iff_exists.1 hsome
  exact checked_arithmetic h

/-- An expression in which every function gets as many arguments as it takes fails by its arithmetic
only, in a reading that covers what it mentions. -/
theorem evaluate_arithmetic {r : Reading} {e : Expr} {x : ExprError} (hsaturated : e.Saturated)
    (hcovers : Covers r e.placeMentions e.parameterMentions) (h : e.evaluate r = .error x) :
    Arithmetic x := by
  induction hsaturated generalizing x with
  | number _ => exact checked_arithmetic h
  | tokens _ _ =>
    refine found_arithmetic ?_ h
    rw [Option.isSome_map]
    exact hcovers.tokens _ (List.mem_singleton.2 rfl) _
  | capacity _ =>
    refine found_arithmetic ?_ h
    rw [Option.isSome_map]
    exact hcovers.capacity _ (List.mem_singleton.2 rfl)
  | parameter _ =>
    rw [evaluate, bind_eq_error] at h
    rcases h with h | ⟨_, _, h⟩
    · exact hcovers.parameter _ (List.mem_singleton.2 rfl) _ h
    · exact checked_arithmetic h
  | neg _ ih =>
    rw [evaluate, bind_eq_error] at h
    rcases h with h | ⟨_, _, h⟩
    · exact ih hcovers h
    · exact checked_arithmetic h
  | binary _ _ ihl ihr =>
    simp only [evaluate, bind_eq_error] at h
    rcases h with h | ⟨_, _, h | ⟨_, _, h⟩⟩
    · exact ihl (hcovers.mono (List.subset_append_left ..) (List.subset_append_left ..)) h
    · exact ihr (hcovers.mono (List.subset_append_right ..) (List.subset_append_right ..)) h
    · exact operate_arithmetic h
  | @call callee arguments htakes _ ih =>
    rw [evaluate, bind_eq_error] at h
    rcases h with h | ⟨values, hvalues, h⟩
    -- the first argument without a value decides, and otherwise the call itself
    · obtain ⟨a, ha, h⟩ := evaluateAll_error h
      exact ih a ha
        (hcovers.mono (placeMentions_subset_of_mem ha) (parameterMentions_subset_of_mem ha)) h
    · exact apply_arithmetic (length_of_evaluateAll hvalues ▸ htakes) h

/-- As a weight the expression can also be negative. -/
theorem evaluateWeight_error {r : Reading} {e : Expr} {x : ExprError}
    (h : e.evaluateWeight r = .error x) :
    e.evaluate r = .error x ∨ x = .notANumber ∨ ∃ value, x = .negativeWeight value := by
  rw [evaluateWeight, bind_eq_error] at h
  rcases h with h | ⟨value, _, h⟩
  · exact Or.inl h
  -- converting refuses what is no number, and then what is negative
  · unfold toCount at h
    split at h
    · cases h
      exact Or.inr (Or.inl rfl)
    · split at h
      · cases h
        exact Or.inr (Or.inr ⟨value, rfl⟩)
      · split at h <;> cases h

end Expr

end PetriTree
