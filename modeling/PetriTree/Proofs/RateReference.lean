import Mathlib.Data.List.Induction
import PetriTree.Proofs.EditEffect

/-!
# PetriTree — rates that name no parameter

A rate can be a rate parameter of the net, by its id. A transition is not added when that parameter is
missing, and a parameter is not removed while a transition has it as its rate. But a rate that is set later is
not looked up, so that a transition can come to name a parameter that is not there. It does until the
parameter is added, or the transition gets another rate or goes.

Main results:
* `Net.dangles_iff_of_effect` — what one edit makes of a missing reference;
* `Net.setAmiss_concat_iff` — a rate was set so by the last edit of a run, or before and not mended by it;
* `Net.dangles_performAll_iff` — a reference is missing after a run exactly when a rate was set so and nothing
  has mended it since;
* `Net.dangles_after_setRate` — two edits are enough.
-/

namespace PetriTree

/-- The edit can mend a transition that names a missing rate parameter: it adds the parameter, takes out the
transition or gives it another rate. -/
def NetEdit.Mends (transition key : String) : NetEdit → Prop
  | .add (.rateParameter parameter) => parameter.id = key
  | .removeTransition id => id = transition
  | .setRate id rate => id = transition ∧ rate ≠ .parameter key
  | _ => False

namespace Net

variable {net after : Net} {edit : NetEdit} {transition key : String}

/-- The rate of a transition. -/
def rate? (net : Net) (transition : String) : Option Rate :=
  (net.transitions.get? transition).map Transition.rate

/-- A transition has a rate parameter as its rate that the net does not have. -/
def Dangles (net : Net) (transition key : String) : Prop :=
  net.rate? transition = some (.parameter key) ∧ net.parameters.contains key = false

/-! ## One edit -/

/-- A rate that is a parameter keeps its name when a place is renamed. -/
theorem renameInRate_eq_parameter {old new : String} {rate : Rate} :
    renameInRate old new rate = .parameter key ↔ rate = .parameter key := by
  cases rate <;> simp [renameInRate]

/-- A reference is missing after an edit if the edit makes it, and there is no such parameter, or if it was
missing and the edit does not mend it. -/
theorem dangles_iff_of_effect (heffect : net.Effect edit after) : after.Dangles transition key ↔
    (edit = .setRate transition (.parameter key) ∧ net.parameters.contains key = false) ∨
      (net.Dangles transition key ∧ ¬ edit.Mends transition key) := by
  have hallowed := heffect.allowed
  simp only [Dangles, rate?, heffect.transitions, heffect.parameters]
  cases edit with
  | add component =>
    cases component with
    | transition added =>
      obtain ⟨hfree, _, hknown⟩ := hallowed
      simp only [NetEdit.onTransitions, NetEdit.onParameters, NetEdit.Mends, Table.get?_insert]
      by_cases heq : added.id = transition
      -- the parameter of a new transition was looked up, and there was no transition of this name
      · have habsent := (Bool.or_eq_false_iff.1 hfree).2
        rw [heq, Table.contains, Option.isSome_eq_false_iff, Option.isNone_iff_eq_none] at habsent
        have hmissing : ¬(added.rate = .parameter key ∧ net.parameters.contains key = false) := by
          rintro ⟨hrate, hnone⟩
          rw [hknown key hrate] at hnone
          cases hnone
        simp [heq, habsent, hmissing]
      · simp [heq]
    | rateParameter added =>
      simp only [NetEdit.onTransitions, NetEdit.onParameters, NetEdit.Mends, Table.contains_insert,
        Bool.or_eq_false_iff, decide_eq_false_iff_not, reduceCtorEq, false_and, false_or]
      tauto
    | _ => simp [NetEdit.onTransitions, NetEdit.onParameters, NetEdit.Mends]
  | removeTransition id =>
    by_cases heq : id = transition <;>
      simp [NetEdit.onTransitions, NetEdit.onParameters, NetEdit.Mends, Table.get?_erase, heq]
  | removeParameter id =>
    -- no transition has the removed parameter as its rate
    have hunused : (net.transitions.get? transition).map Transition.rate = some (.parameter key) →
        id ≠ key := by
      rintro hrate rfl
      obtain ⟨found, hfound, hparameter⟩ := Option.map_eq_some_iff.1 hrate
      exact hallowed.1 found (List.mem_map.2 ⟨_, Table.get?_eq_some_iff.1 hfound, rfl⟩) hparameter
    simp only [NetEdit.onTransitions, NetEdit.onParameters, NetEdit.Mends, Table.contains_erase,
      reduceCtorEq, false_and, not_false_eq_true, and_true, false_or]
    refine and_congr_right fun hrate => ?_
    simp [hunused hrate]
  | setRate id rate =>
    obtain ⟨found, hfound⟩ := Option.isSome_iff_exists.1 hallowed.2
    simp only [NetEdit.onTransitions, NetEdit.onParameters, NetEdit.Mends, Table.get?_modify]
    by_cases heq : id = transition
    · subst heq
      by_cases hrate : rate = .parameter key
      · simp only [hfound, hrate]
        tauto
      · simp [hfound, hrate]
    · simp [heq]
  | setDelay id delay =>
    by_cases heq : id = transition <;>
      simp [NetEdit.onTransitions, NetEdit.onParameters, NetEdit.Mends, Table.get?_modify, heq,
        Function.comp_def]
  | renamePlace old new =>
    cases hfound : net.transitions.get? transition <;>
      simp [NetEdit.onTransitions, NetEdit.onParameters, NetEdit.Mends, Table.get?_map, Table.contains_map,
        hfound, renameInRate_eq_parameter]
  | _ => simp [NetEdit.onTransitions, NetEdit.onParameters, NetEdit.Mends]

/-- A rate that is set to a parameter is refused only when there is no such transition. -/
theorem perform_setRate (htransition : net.transitions.contains transition = true) :
    ∃ after, net.perform (.setRate transition (.parameter key)) = .ok (none, after) := by
  obtain ⟨found, hfound⟩ := Option.isSome_iff_exists.1 htransition
  simp only [perform, changed, setRate, Net.transition, hfound, NetError.required]
  exact ⟨_, rfl⟩

theorem dangles_attempt_iff : (net.attempt edit).Dangles transition key ↔
    (edit = .setRate transition (.parameter key) ∧ net.transitions.contains transition = true ∧
        net.parameters.contains key = false) ∨
      (net.Dangles transition key ∧ (edit.Mends transition key → ∃ cause, net.perform edit = .error cause)) := by
  unfold attempt
  cases hperform : net.perform edit with
  | ok outcome =>
    obtain ⟨removed, after⟩ := outcome
    have heffect := effect_of_perform hperform
    have hset : edit = .setRate transition (.parameter key) → net.transitions.contains transition = true := by
      rintro rfl
      exact heffect.allowed.2
    have hdangles : after.Dangles transition key ↔ _ := dangles_iff_of_effect heffect
    simp only [hdangles, reduceCtorEq, exists_false, imp_false]
    tauto
  | error cause =>
    have hset : edit = .setRate transition (.parameter key) → net.transitions.contains transition ≠ true := by
      rintro rfl htransition
      obtain ⟨after, hafter⟩ : ∃ after, net.perform (.setRate transition (.parameter key)) = .ok (none, after) :=
        perform_setRate htransition
      rw [hafter] at hperform
      cases hperform
    simp only [Except.error.injEq, exists_eq', implies_true, and_true]
    tauto

/-! ## Any number of edits -/

theorem performAll_concat (net : Net) (edits : List NetEdit) (edit : NetEdit) :
    net.performAll (edits ++ [edit]) = (net.performAll edits).attempt edit := by
  rw [performAll, List.foldl_append]
  rfl

/-- An edit of a run, with the net that it meets. -/
def step? (net : Net) (edits : List NetEdit) (i : Nat) : Option (NetEdit × Net) :=
  edits[i]?.map fun edit => (edit, net.performAll (edits.take i))

theorem step?_eq_some {edits : List NetEdit} {i : Nat} {before : Net} :
    net.step? edits i = some (edit, before) ↔
      edits[i]? = some edit ∧ net.performAll (edits.take i) = before := by
  simp [step?]

theorem lt_of_step? {edits : List NetEdit} {i : Nat} {met : NetEdit × Net} (h : net.step? edits i = some met) :
    i < edits.length := by
  obtain ⟨_, hedit, _⟩ := Option.map_eq_some_iff.1 h
  exact (List.getElem?_eq_some_iff.1 hedit).1

theorem step?_concat (net : Net) (edits : List NetEdit) (last : NetEdit) (i : Nat) :
    net.step? (edits ++ [last]) i =
      if i = edits.length then some (last, net.performAll edits) else net.step? edits i := by
  rcases Nat.lt_trichotomy i edits.length with hlt | rfl | hgt
  · rw [if_neg (Nat.ne_of_lt hlt), step?, List.getElem?_append_left hlt,
      List.take_append_of_le_length (Nat.le_of_lt hlt), step?]
  · rw [if_pos rfl, step?, List.getElem?_concat_length, List.take_left, Option.map_some]
  · rw [if_neg (Nat.ne_of_gt hgt), step?, step?, List.getElem?_eq_none (Nat.le_of_lt hgt),
      List.getElem?_eq_none (by rw [List.length_append, List.length_singleton]; exact hgt)]
    rfl

/-- In the run the rate of the transition was set to a parameter that was not there, and nothing has mended this
since. -/
def SetAmiss (net : Net) (edits : List NetEdit) (transition key : String) : Prop :=
  ∃ i before, net.step? edits i = some (.setRate transition (.parameter key), before) ∧
    before.transitions.contains transition = true ∧ before.parameters.contains key = false ∧
    ∀ j edit found, i < j → net.step? edits j = some (edit, found) → edit.Mends transition key →
      ∃ cause, found.perform edit = .error cause

/-- The last edit sets the rate so, or an earlier one did and the last has not mended it. -/
theorem setAmiss_concat_iff {edits : List NetEdit} : net.SetAmiss (edits ++ [edit]) transition key ↔
    (edit = .setRate transition (.parameter key) ∧ (net.performAll edits).transitions.contains transition = true ∧
        (net.performAll edits).parameters.contains key = false) ∨
      (net.SetAmiss edits transition key ∧
        (edit.Mends transition key → ∃ cause, (net.performAll edits).perform edit = .error cause)) := by
  have hlast : net.step? (edits ++ [edit]) edits.length = some (edit, net.performAll edits) := by
    rw [step?_concat, if_pos rfl]
  have hearlier : ∀ i met, net.step? edits i = some met → net.step? (edits ++ [edit]) i = some met := by
    intro i met hmet
    rw [step?_concat, if_neg (Nat.ne_of_lt (lt_of_step? hmet)), hmet]
  constructor
  · rintro ⟨i, before, hset, htransition, hkey, hkept⟩
    rw [step?_concat] at hset
    split at hset
    · cases hset
      exact Or.inl ⟨rfl, htransition, hkey⟩
    · refine Or.inr ⟨⟨i, before, hset, htransition, hkey, fun j other found hj hstep => ?_⟩, ?_⟩
      · exact hkept j other found hj (hearlier j _ hstep)
      · exact hkept edits.length edit _ (lt_of_step? hset) hlast
  · rintro (⟨rfl, htransition, hkey⟩ | ⟨⟨i, before, hset, htransition, hkey, hkept⟩, hmends⟩)
    · refine ⟨edits.length, _, hlast, htransition, hkey, fun j other found hj hstep => ?_⟩
      -- nothing comes after the last edit
      have hrange := lt_of_step? hstep
      rw [List.length_append, List.length_singleton] at hrange
      omega
    · refine ⟨i, before, hearlier i _ hset, htransition, hkey, fun j other found hj hstep => ?_⟩
      rw [step?_concat] at hstep
      split at hstep
      · cases hstep
        exact hmends
      · exact hkept j other found hj hstep

theorem dangles_iff_setAmiss (name : String) (edits : List NetEdit) :
    ((Net.new name).performAll edits).Dangles transition key ↔ (Net.new name).SetAmiss edits transition key := by
  induction edits using List.reverseRecOn with
  | nil =>
    simp [SetAmiss, step?, performAll, Dangles, rate?, Net.new, Table.empty, Table.get?, Table.lookup]
  | append_singleton edits last ih => rw [performAll_concat, dangles_attempt_iff, ih, setAmiss_concat_iff]

/-- After any edits, a transition names a missing rate parameter exactly when at some point its rate was set
so, the parameter was not there then, and whatever could have mended this since was refused. -/
theorem dangles_performAll_iff (name : String) (edits : List NetEdit) (transition key : String) :
    ((Net.new name).performAll edits).Dangles transition key ↔
      ∃ i, edits[i]? = some (.setRate transition (.parameter key)) ∧
        ((Net.new name).performAll (edits.take i)).transitions.contains transition = true ∧
        ((Net.new name).performAll (edits.take i)).parameters.contains key = false ∧
        ∀ j edit, i < j → edits[j]? = some edit → edit.Mends transition key →
          ∃ cause, ((Net.new name).performAll (edits.take j)).perform edit = .error cause := by
  rw [dangles_iff_setAmiss]
  constructor
  · rintro ⟨i, before, hset, htransition, hkey, hkept⟩
    obtain ⟨hedit, rfl⟩ := step?_eq_some.1 hset
    exact ⟨i, hedit, htransition, hkey, fun j edit hj hlater =>
      hkept j edit _ hj (step?_eq_some.2 ⟨hlater, rfl⟩)⟩
  · rintro ⟨i, hset, htransition, hkey, hkept⟩
    refine ⟨i, _, step?_eq_some.2 ⟨hset, rfl⟩, htransition, hkey, fun j edit found hj hstep => ?_⟩
    obtain ⟨hedit, rfl⟩ := step?_eq_some.1 hstep
    exact hkept j edit hj hedit

/-- A transition that is added and then given a rate parameter that nobody has added. -/
theorem dangles_after_setRate : ((Net.new "net").performAll
    [.add (.transition ⟨"T", 1, .immediate, .one, 0, none⟩), .setRate "T" (.parameter "r")]).Dangles "T" "r" :=
  ⟨by decide +kernel, by decide +kernel⟩

end Net

end PetriTree
