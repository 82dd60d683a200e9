import PetriTree.Flat.Cycle
import PetriTree.Proofs.Expr

/-!
# PetriTree — definitions in order

The walk along definitions keeps a list of those that are settled. Every definition is put in front of
the list when all that it mentions has been settled, so each one mentions later ones only, and how far
a definition stands from the end of the list is a rank that every mention lowers.

Main results:
* `settle_settled` — a walk that meets no cycle leaves the list settled, with the definition walked from;
* `definitionOrder_settled` — the order holds every definition, each before what it mentions;
* `Settled.rank_lt` — a mention is of lower rank.
-/

namespace PetriTree

/-! ## Settled definitions -/

/-- Looking up in a list that starts with a definition of `key`. -/
theorem lookup_cons_if (id key : String) (e : Expr) (rest : List (String × Expr)) :
    ((key, e) :: rest).lookup id = if id = key then some e else rest.lookup id := by
  rw [List.lookup_cons]
  by_cases h : id = key
  · simp [h]
  · rw [beq_false_of_ne h, if_neg h]

/-- Definitions in an order in which each mentions later ones only. A mention of what is not defined
does not count. -/
inductive Settled (definitions : List (String × Expr)) : List (String × Expr) → Prop
  | nil : Settled definitions []
  | cons {id : String} {e : Expr} {rest : List (String × Expr)} : Settled definitions rest →
      definitions.lookup id = some e → rest.lookup id = none →
      (∀ p ∈ e.parameterMentions, (definitions.lookup p).isSome → (rest.lookup p).isSome) →
      Settled definitions ((id, e) :: rest)

namespace Settled

variable {definitions done : List (String × Expr)}

/-- A settled definition is the one that was given. -/
theorem lookup_eq (h : Settled definitions done) {id : String} {e : Expr}
    (hid : done.lookup id = some e) : definitions.lookup id = some e := by
  induction h with
  | nil => cases hid
  | @cons key value rest _ hkey _ _ ih =>
    rw [lookup_cons_if] at hid
    split at hid
    · rename_i hk
      cases hid
      exact hk ▸ hkey
    · exact ih hid

/-- What a settled definition mentions is settled too. -/
theorem lookup_isSome (h : Settled definitions done) {id p : String} {e : Expr}
    (hid : done.lookup id = some e) (hp : p ∈ e.parameterMentions)
    (hdefined : (definitions.lookup p).isSome) : (done.lookup p).isSome := by
  induction h with
  | nil => cases hid
  | @cons key value rest _ _ _ hlater ih =>
    have hrest : (rest.lookup p).isSome := by
      rw [lookup_cons_if] at hid
      split at hid
      · cases hid
        exact hlater p hp hdefined
      · exact ih hid
    rw [lookup_cons_if]
    split
    · rfl
    · exact hrest

/-- Every entry is the one its id is looked up as. -/
theorem lookup_of_mem (h : Settled definitions done) {id : String} {e : Expr} (hmem : (id, e) ∈ done) :
    done.lookup id = some e := by
  induction h with
  | nil => cases hmem
  | @cons key value rest _ _ hopen _ ih =>
    rw [lookup_cons_if]
    rcases List.mem_cons.1 hmem with heq | hlater
    · cases heq
      rw [if_pos rfl]
    · have hne : id ≠ key := by
        rintro rfl
        rw [ih hlater] at hopen
        cases hopen
      rw [if_neg hne, ih hlater]

theorem congr {definitions' : List (String × Expr)} (h : Settled definitions done)
    (heq : ∀ id, definitions.lookup id = definitions'.lookup id) : Settled definitions' done := by
  induction h with
  | nil => exact .nil
  | cons _ hid hopen hlater ih =>
    exact .cons ih (heq _ ▸ hid) hopen fun p hp hdefined => hlater p hp (heq p ▸ hdefined)

end Settled

/-- What is settled after `key` was still open is not `key`. -/
theorem ne_of_later {definitions rest : List (String × Expr)} {key p : String} {e : Expr}
    (hkey : definitions.lookup key = some e) (hopen : rest.lookup key = none)
    (hlater : (definitions.lookup p).isSome → (rest.lookup p).isSome) : p ≠ key := by
  rintro rfl
  have hsettled := hlater (by rw [hkey]; rfl)
  rw [hopen] at hsettled
  cases hsettled

/-! ## Rank -/

/-- How far the first definition of `id` stands from the end of the list; zero when there is none. -/
def rankIn : List (String × Expr) → String → Nat
  | [], _ => 0
  | (key, _) :: rest, id => if key = id then rest.length + 1 else rankIn rest id

theorem rankIn_le (definitions : List (String × Expr)) (id : String) :
    rankIn definitions id ≤ definitions.length := by
  induction definitions with
  | nil => exact Nat.le_refl _
  | cons d rest ih =>
    rw [rankIn, List.length_cons]
    split <;> omega

/-- A mention is of lower rank than the definition that makes it. -/
theorem Settled.rank_lt {definitions done : List (String × Expr)} (h : Settled definitions done)
    {id p : String} {e : Expr} (hid : done.lookup id = some e) (hp : p ∈ e.parameterMentions) :
    rankIn done p < rankIn done id := by
  induction h with
  | nil => cases hid
  | @cons key value rest hrest hkey hfresh hlater ih =>
    have hmention : p ≠ key → rankIn ((key, value) :: rest) p = rankIn rest p :=
      fun hne => by rw [rankIn, if_neg (Ne.symm hne)]
    rw [lookup_cons_if] at hid
    split at hid
    -- the definition in front, whose rank is that of the whole list
    · rename_i hk
      cases hid
      subst hk
      -- the definition does not mention itself: it was not settled when its mentions were
      have hne : p ≠ id := ne_of_later hkey hfresh (hlater p hp)
      have hle := rankIn_le rest p
      rw [hmention hne, rankIn, if_pos rfl]
      omega
    -- an older one: what it mentions is older too, and no rank has changed
    · rename_i hk
      have hlt := ih hid
      have hne : p ≠ key := ne_of_later hkey hfresh (hrest.lookup_isSome hid hp)
      rw [hmention hne, rankIn, if_neg (Ne.symm hk)]
      exact hlt

/-! ## The walk -/

section Equations

variable {definitions done : List (String × Expr)} {active : List String} {id : String}

theorem settle_known (h : (done.lookup id).isSome) : settle definitions active done id = .ok done := by
  rw [settle, if_pos h]

theorem settle_active (hnew : ¬ (done.lookup id).isSome) (hactive : ¬ active.contains id = false) :
    settle definitions active done id = .error id := by
  rw [settle, if_neg hnew, dif_neg hactive]

theorem settle_undefined (hnew : ¬ (done.lookup id).isSome) (hactive : active.contains id = false)
    (hid : definitions.lookup id = none) : settle definitions active done id = .ok done := by
  rw [settle, if_neg hnew, dif_pos hactive]
  split
  · rfl
  · rename_i e he
    rw [hid] at he
    cases he

theorem settle_defined {e : Expr} (hnew : ¬ (done.lookup id).isSome) (hactive : active.contains id = false)
    (hid : definitions.lookup id = some e) : settle definitions active done id =
      e.mentionedParameters.toList.foldlM (settle definitions (id :: active)) done >>= fun done =>
        .ok ((id, e) :: done) := by
  rw [settle, if_neg hnew, dif_pos hactive]
  split
  · rename_i he
    rw [hid] at he
    cases he
  · rename_i e' he
    rw [hid] at he
    cases he
    rfl

end Equations

/-- What a walk may do to the settled definitions: it adds to them, but nothing that is on its way. -/
structure Extends (definitions : List (String × Expr)) (active : List String)
    (done done' : List (String × Expr)) : Prop where
  settled : Settled definitions done'
  kept : ∀ id, (done.lookup id).isSome → (done'.lookup id).isSome
  fresh : ∀ id ∈ active, done.lookup id = none → done'.lookup id = none

theorem Extends.refl {definitions done : List (String × Expr)} (active : List String)
    (h : Settled definitions done) : Extends definitions active done done :=
  ⟨h, fun _ => id, fun _ _ => id⟩

theorem Extends.trans {definitions a b c : List (String × Expr)} {active : List String}
    (hab : Extends definitions active a b) (hbc : Extends definitions active b c) :
    Extends definitions active a c :=
  ⟨hbc.settled, fun id h => hbc.kept id (hab.kept id h),
    fun id hid h => hbc.fresh id hid (hab.fresh id hid h)⟩

/-- What a walk from `id` leaves behind, given what was settled before. -/
def Walks (definitions : List (String × Expr)) (active : List String) (id : String)
    (done done' : List (String × Expr)) : Prop :=
  Extends definitions active done done' ∧
    ((definitions.lookup id).isSome → (done'.lookup id).isSome)

/-- Walking from several parameters, one after the other, settles all of them. -/
theorem foldlM_settled {definitions : List (String × Expr)} {active : List String}
    (hwalk : ∀ done done' id, Settled definitions done → settle definitions active done id = .ok done' →
      Walks definitions active id done done')
    {ids : List String} {done done' : List (String × Expr)} (hdone : Settled definitions done)
    (hrun : ids.foldlM (settle definitions active) done = .ok done') :
    Extends definitions active done done' ∧
      ∀ id ∈ ids, (definitions.lookup id).isSome → (done'.lookup id).isSome := by
  refine foldlM_invariant (P := fun passed s => Extends definitions active done s ∧
    ∀ id ∈ passed, (definitions.lookup id).isSome → (s.lookup id).isSome) ?_
    ⟨Extends.refl active hdone, by simp⟩ hrun
  intro passed id _ s s' _ ⟨hext, hpassed⟩ hstep
  obtain ⟨hext', hid⟩ := hwalk s s' id hext.settled hstep
  refine ⟨hext.trans hext', fun p hp hdefined => ?_⟩
  rcases List.mem_append.1 hp with hp | hp
  · exact hext'.kept p (hpassed p hp hdefined)
  · cases List.mem_singleton.1 hp
    exact hid hdefined

/-- Putting a definition in front once its mentions are settled. -/
theorem Extends.cons {definitions done done' : List (String × Expr)} {active : List String} {id : String}
    {e : Expr} (hwalk : Extends definitions (id :: active) done done')
    (hmentions : ∀ p ∈ e.parameterMentions, (definitions.lookup p).isSome → (done'.lookup p).isSome)
    (hid : definitions.lookup id = some e) (hnew : done.lookup id = none) (hactive : id ∉ active) :
    Extends definitions active done ((id, e) :: done') where
  settled := .cons hwalk.settled hid (hwalk.fresh id (List.mem_cons_self ..) hnew) hmentions
  kept p hp := by
    rw [lookup_cons_if]
    split
    · rfl
    · exact hwalk.kept p hp
  fresh p hp hnone := by
    have hne : p ≠ id := fun h => hactive (h ▸ hp)
    rw [lookup_cons_if, if_neg hne]
    exact hwalk.fresh p (List.mem_cons_of_mem _ hp) hnone

/-- A walk that meets no cycle leaves the definitions settled, with the one it started from. -/
theorem settle_settled {definitions done done' : List (String × Expr)} {active : List String}
    {id : String} (hdone : Settled definitions done)
    (hrun : settle definitions active done id = .ok done') :
    Walks definitions active id done done' := by
  induction active, done, id using settle.induct definitions generalizing done' with
  -- the parameter was settled before
  | case1 active done id hknown =>
    rw [settle_known hknown] at hrun
    cases hrun
    exact ⟨Extends.refl active hdone, fun _ => hknown⟩
  -- it has no definition, so there is nothing to settle
  | case2 active done id hnew hactive hundefined =>
    rw [settle_undefined hnew hactive hundefined] at hrun
    cases hrun
    exact ⟨Extends.refl active hdone, fun h => by rw [hundefined] at h; cases h⟩
  -- all that its definition mentions is settled first
  | case3 active done id hnew hactive e hid ih =>
    rw [settle_defined hnew hactive hid] at hrun
    obtain ⟨mid, hmid, hrun⟩ := bind_eq_ok.1 hrun
    cases hrun
    obtain ⟨hext, hmentions⟩ := foldlM_settled (fun done done' p hd hr => ih done p hd hr) hdone hmid
    rw [Option.not_isSome_iff_eq_none] at hnew
    have hall : ∀ p ∈ e.parameterMentions, (definitions.lookup p).isSome → (mid.lookup p).isSome :=
      fun p hp => hmentions p (Expr.mem_mentionedParameters.2 hp)
    refine ⟨hext.cons hall hid hnew ?_, fun _ => ?_⟩
    · simpa using hactive
    · rw [lookup_cons_if, if_pos rfl]
      rfl
  -- it is on the way to itself, which ends the run
  | case4 active done id hnew hactive =>
    rw [settle_active hnew hactive] at hrun
    cases hrun

/-- The order holds every definition, each before what it mentions. -/
theorem definitionOrder_settled {definitions order : List (String × Expr)}
    (h : definitionOrder definitions = .ok order) :
    Settled order order ∧ ∀ id, order.lookup id = definitions.lookup id := by
  obtain ⟨hext, hall⟩ := foldlM_settled (fun _ _ _ hd hr => settle_settled hd hr) .nil h
  suffices heq : ∀ id, order.lookup id = definitions.lookup id from
    ⟨hext.settled.congr fun id => (heq id).symm, heq⟩
  intro id
  cases hid : definitions.lookup id with
  | none =>
    cases horder : order.lookup id with
    | none => rfl
    | some e =>
      -- nothing is in the order that was not defined
      rw [hext.settled.lookup_eq horder] at hid
      cases hid
  | some e =>
    have hkey : id ∈ (SortedSet.ofList (definitions.map Prod.fst)).toList :=
      SortedSet.mem_toList.2 (SortedSet.mem_ofList.2 (mem_keys_of_lookup hid))
    obtain ⟨e', he'⟩ := Option.isSome_iff_exists.1 (hall id hkey (by rw [hid]; rfl))
    rw [he', ← hid, hext.settled.lookup_eq he']

end PetriTree
