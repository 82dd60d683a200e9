import Mathlib.Logic.Relation
import PetriTree.Proofs.Session

/-!
# PetriTree — firing from marking to marking

Which markings a net can reach is defined without a cache, a clock or a search: a transition that the
rule of priorities leaves fires and leads to another marking. Where the candidates of a marking have
no value, nothing fires.

Main results:
* `FlatNet.Fires`, `FlatNet.Steps`, `FlatNet.Reaches` — firing, once and any number of times;
* `FlatNet.targets_spec` — the markings one firing away, each with all the transitions that lead there.
-/

namespace PetriTree.FlatNet

variable {net : FlatNet} {m : Marking}

/-- Does a transition that may fire lead from one marking to another? -/
def Fires (net : FlatNet) (m : Marking) (transition : String) (after : Marking) : Prop :=
  (∃ found, net.candidates m = .ok found ∧ transition ∈ found) ∧ net.fire m transition = .ok after

/-- Does some transition lead from one marking to another? -/
def Steps (net : FlatNet) (m after : Marking) : Prop := ∃ transition, net.Fires m transition after

/-- Do transitions lead, one after the other, from one marking to another? -/
def Reaches (net : FlatNet) : Marking → Marking → Prop := Relation.ReflTransGen net.Steps

/-- The markings one firing away, with the transitions that lead there. -/
def targets (net : FlatNet) (m : Marking) : Except FiringError (SortedMap Marking (SortedSet String)) := do
  let found ← net.candidates m
  EnabledCache.groupByTarget net m SortedMap.empty found.toList

/-! ## Groups of transitions -/

/-- Is a transition in the group of a marking? -/
def Grouped (groups : SortedMap Marking (SortedSet String)) (after : Marking) (transition : String) : Prop :=
  ∃ group, groups.get? after = some group ∧ transition ∈ group

theorem grouped_insert {groups : SortedMap Marking (SortedSet String)} {target : Marking} {t : String}
    (after : Marking) (transition : String) :
    Grouped (groups.insert target (((groups.get? target).getD SortedSet.empty).insert t)) after transition ↔
      Grouped groups after transition ∨ transition = t ∧ target = after := by
  have hempty : transition ∉ (SortedSet.empty : SortedSet String) := by
    intro h
    cases h
  unfold Grouped
  rw [SortedMap.get?_insert]
  by_cases heq : after = target
  · subst heq
    rw [if_pos Std.ReflCmp.compare_self]
    simp only [Option.some.injEq, exists_eq_left', SortedSet.mem_insert, and_true]
    cases groups.get? after with
    | none => simp [hempty]
    | some group => simp [or_comm]
  · rw [if_neg fun h => heq (Std.LawfulEqCmp.eq_of_compare h)]
    simp [Ne.symm heq]

/-- Grouping puts every transition into the group of the marking it leads to, and into no other. -/
theorem groupByTarget_eq_ok {ts : List String} {groups all : SortedMap Marking (SortedSet String)}
    (h : EnabledCache.groupByTarget net m groups ts = .ok all) (after : Marking) (transition : String) :
    Grouped all after transition ↔
      Grouped groups after transition ∨ transition ∈ ts ∧ net.fire m transition = .ok after := by
  induction ts generalizing groups with
  | nil =>
    cases h
    simp
  | cons t rest ih =>
    -- the first transition joins the group of its target, the others follow
    rw [EnabledCache.groupByTarget, bind_eq_ok] at h
    obtain ⟨target, htarget, h⟩ := h
    rw [ih h, grouped_insert, List.mem_cons, or_assoc]
    refine or_congr Iff.rfl ?_
    constructor
    · rintro (⟨rfl, rfl⟩ | ⟨hmem, hfire⟩)
      · exact ⟨Or.inl rfl, htarget⟩
      · exact ⟨Or.inr hmem, hfire⟩
    · rintro ⟨rfl | hmem, hfire⟩
      · rw [htarget] at hfire
        cases hfire
        exact Or.inl ⟨rfl, rfl⟩
      · exact Or.inr ⟨hmem, hfire⟩

theorem groupByTarget_nonempty {ts : List String} {groups all : SortedMap Marking (SortedSet String)}
    (h : EnabledCache.groupByTarget net m groups ts = .ok all)
    (hgroups : ∀ after group, groups.get? after = some group → ∃ transition, transition ∈ group) :
    ∀ after group, all.get? after = some group → ∃ transition, transition ∈ group := by
  induction ts generalizing groups with
  | nil =>
    cases h
    exact hgroups
  | cons t rest ih =>
    rw [EnabledCache.groupByTarget, bind_eq_ok] at h
    obtain ⟨target, _, h⟩ := h
    refine ih h fun after group hgroup => ?_
    rw [SortedMap.get?_insert] at hgroup
    split at hgroup
    · cases hgroup
      exact ⟨t, SortedSet.mem_insert.2 (Or.inl rfl)⟩
    · exact hgroups after group hgroup

/-- The group of a marking holds all the transitions that lead there, and there is one for every marking
that some transition leads to. -/
theorem targets_spec {groups : SortedMap Marking (SortedSet String)} (h : net.targets m = .ok groups) :
    (∀ after group, groups.get? after = some group →
      (∃ transition, transition ∈ group) ∧ ∀ transition, transition ∈ group ↔ net.Fires m transition after) ∧
      ∀ after, net.Steps m after → ∃ group, groups.get? after = some group := by
  rw [targets, bind_eq_ok] at h
  obtain ⟨found, hfound, h⟩ := h
  have hgrouped : ∀ after transition, Grouped groups after transition ↔ net.Fires m transition after := by
    intro after transition
    rw [groupByTarget_eq_ok h, SortedSet.mem_toList]
    constructor
    · rintro (⟨group, hgroup, _⟩ | ⟨hmem, hfire⟩)
      -- grouping starts without groups
      · cases hgroup
      · exact ⟨⟨found, hfound, hmem⟩, hfire⟩
    · rintro ⟨⟨found', hfound', hmem⟩, hfire⟩
      rw [hfound] at hfound'
      cases hfound'
      exact Or.inr ⟨hmem, hfire⟩
  refine ⟨fun after group hgroup => ⟨?_, fun transition => ?_⟩, fun after hsteps => ?_⟩
  · exact groupByTarget_nonempty h (fun _ _ hnone => by cases hnone) after group hgroup
  · rw [← hgrouped]
    constructor
    · exact fun hmem => ⟨group, hgroup, hmem⟩
    · rintro ⟨group', hgroup', hmem⟩
      rw [hgroup] at hgroup'
      cases hgroup'
      exact hmem
  · obtain ⟨transition, hfires⟩ := hsteps
    obtain ⟨group, hgroup, _⟩ := (hgrouped after transition).2 hfires
    exact ⟨group, hgroup⟩

/-- A marking in which nothing may fire leads nowhere. -/
theorem targets_of_isEmpty {found : SortedSet String} (hfound : net.candidates m = .ok found)
    (hempty : found.isEmpty = true) : net.targets m = .ok SortedMap.empty := by
  have hlist : found.toList = [] := by
    rw [SortedSet.toList, SortedMap.keys, List.isEmpty_iff.1 hempty]
    rfl
  rw [targets, hfound]
  show EnabledCache.groupByTarget net m SortedMap.empty found.toList = _
  rw [hlist]
  rfl

end PetriTree.FlatNet
