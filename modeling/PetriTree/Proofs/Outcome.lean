import Mathlib.Data.List.Forall2
import PetriTree.Table

/-!
# PetriTree — runs that may fail

Joining a tree is a chain of steps, each of which may refuse. What is known of a chain is what is
known of a run without a refusal, so the lemmas here take such a run apart.

Main results:
* `bind_eq_ok` — a chain succeeds when both of its parts do;
* `foldlM_invariant` — what every step keeps, with what it has passed, holds at the end;
* `map_foldlM_eq` — a run commutes with maps if each of its steps does;
* `Table.mapExcept_eq_ok` — a table that was mapped without a failure, entry by entry;
* `FailsOnly` — a run whose failures are all of one kind, with a lemma for each way runs are put together.
-/

namespace PetriTree

/-- A chain succeeds when its first part does and the rest does on what that part yields. -/
theorem bind_eq_ok {x : Except ε α} {f : α → Except ε β} {b : β} :
    x >>= f = .ok b ↔ ∃ a, x = .ok a ∧ f a = .ok b := by
  cases x with
  | error e =>
    constructor
    · intro h
      cases h
    · rintro ⟨a, ha, _⟩
      cases ha
  | ok a =>
    constructor
    · intro h
      exact ⟨a, rfl, h⟩
    · rintro ⟨a', ha, h⟩
      cases ha
      exact h

theorem bind_eq_error {x : Except ε α} {f : α → Except ε β} {e : ε} :
    x >>= f = .error e ↔ x = .error e ∨ ∃ a, x = .ok a ∧ f a = .error e := by
  cases x with
  | error e' =>
    constructor
    · intro h
      cases h
      exact Or.inl rfl
    · rintro (h | ⟨a, ha, _⟩)
      · cases h
        rfl
      · cases ha
  | ok a =>
    constructor
    · intro h
      exact Or.inr ⟨a, rfl, h⟩
    · rintro (h | ⟨a', ha, h⟩)
      · cases h
      · cases ha
        exact h

/-- Two chains with the same first part have to agree on what that part yields only. -/
theorem bind_congr_ok {x : Except ε α} {f g : α → Except ε β} (h : ∀ a, x = .ok a → f a = g a) :
    x >>= f = x >>= g := by
  cases x with
  | error e => rfl
  | ok a => exact h a rfl

theorem map_eq_ok {x : Except ε α} {f : α → β} {b : β} : x.map f = .ok b ↔ ∃ a, x = .ok a ∧ f a = b := by
  cases x <;> simp [Except.map]

theorem map_eq_error {x : Except ε α} {f : α → β} {e : ε} : x.map f = .error e ↔ x = .error e := by
  cases x <;> simp [Except.map]

theorem toOption_bind {x : Except ε α} {f : α → Except ε β} :
    (x >>= f).toOption = x.toOption.bind fun a => (f a).toOption := by
  cases x <;> rfl

theorem toOption_eq_some {x : Except ε α} {a : α} : x.toOption = some a ↔ x = .ok a := by
  cases x <;> simp [Except.toOption]

theorem pure_eq_ok {a b : α} : (pure a : Except ε α) = .ok b ↔ a = b :=
  ⟨fun h => by cases h; rfl, fun h => h ▸ rfl⟩

/-- A refusal that did not happen. -/
theorem refusal_eq_ok {c : Prop} [Decidable c] {e : ε} {x : Except ε α} {a : α} :
    (if c then .error e else x) = .ok a ↔ ¬ c ∧ x = .ok a := by
  by_cases h : c <;> simp [h]

theorem guard_eq_ok {c : Prop} [Decidable c] {e : ε} {f : β → Except ε α} {x : Except ε α} {a : α} :
    (if c then (.error e : Except ε β) >>= f else x) = .ok a ↔ ¬ c ∧ x = .ok a := by
  rw [show (Except.error e : Except ε β) >>= f = .error e from rfl]
  exact refusal_eq_ok

private theorem foldlM_invariant_from {step : σ → α → Except ε σ} {P : List α → σ → Prop} {s' : σ} :
    ∀ {passed rest : List α} {s : σ},
      (∀ before x after s s', passed ++ rest = before ++ x :: after → P before s →
        step s x = .ok s' → P (before ++ [x]) s') →
      P passed s → rest.foldlM step s = .ok s' → P (passed ++ rest) s'
  | passed, [], s, _, h, hrun => by
    cases hrun
    simpa using h
  | passed, x :: rest, s, hstep, h, hrun => by
    rw [List.foldlM_cons, bind_eq_ok] at hrun
    obtain ⟨next, hnext, hrun⟩ := hrun
    have hmid : P (passed ++ [x]) next := hstep passed x rest s next rfl h hnext
    have := foldlM_invariant_from (fun before y after s s' heq => hstep before y after s s' (by
      simpa using heq)) hmid hrun
    simpa using this

/-- What every step of a run keeps holds at its end. `P` may speak of the part of the list that the
run has passed. -/
theorem foldlM_invariant {step : σ → α → Except ε σ} {P : List α → σ → Prop} {xs : List α} {s s' : σ}
    (hstep : ∀ before x after s s', xs = before ++ x :: after → P before s → step s x = .ok s' →
      P (before ++ [x]) s')
    (h : P [] s) (hrun : xs.foldlM step s = .ok s') : P xs s' :=
  foldlM_invariant_from hstep h hrun

/-- A run changes nothing that each of its steps leaves alone. -/
theorem foldlM_keeps {step : σ → α → Except ε σ} (f : σ → β) {xs : List α} {s s' : σ}
    (hstep : ∀ s x s', step s x = .ok s' → f s' = f s) (hrun : xs.foldlM step s = .ok s') : f s' = f s :=
  foldlM_invariant (P := fun _ t => f t = f s) (fun _ _ _ _ _ _ h hnext => (hstep _ _ _ hnext).trans h) rfl hrun

/-! ## Two runs in step -/

/-- A chain commutes with maps if its parts do. -/
theorem map_bind_eq {x : Except ε α} {x' : Except ε α'} {f : α → Except ε β} {f' : α' → Except ε β'} {φ : α → α'}
    {ψ : β → β'} (hx : x.map φ = x') (hf : ∀ a, (f a).map ψ = f' (φ a)) : (x >>= f).map ψ = x' >>= f' := by
  subst hx
  cases x with
  | error e => rfl
  | ok a => exact hf a

/-- A chain whose first part is the same on both sides. -/
theorem map_bind_eq_left {x : Except ε α} {f : α → Except ε β} {f' : α → Except ε β'} {ψ : β → β'}
    (hf : ∀ a, (f a).map ψ = f' a) : (x >>= f).map ψ = x >>= f' := by
  cases x with
  | error e => rfl
  | ok a => exact hf a

/-- A check that comes to the same on both sides. -/
theorem map_guard_eq {c c' : Prop} [Decidable c] [Decidable c'] {e : ε} {f : γ → Except ε α} {f' : γ → Except ε β}
    {x : Except ε α} {x' : Except ε β} {ψ : α → β} (hc : c ↔ c') (hx : x.map ψ = x') :
    (if c then (.error e : Except ε γ) >>= f else x).map ψ =
      if c' then (.error e : Except ε γ) >>= f' else x' := by
  by_cases h : c
  · rw [if_pos h, if_pos (hc.1 h)]
    rfl
  · rw [if_neg h, if_neg fun h' => h (hc.2 h')]
    exact hx

/-- A run commutes with maps if each of its steps does. -/
theorem map_foldlM_eq {step : σ → α → Except ε σ} {step' : σ' → α' → Except ε σ'} {φ : σ → σ'} {ψ : α → α'}
    (hstep : ∀ s x, (step s x).map φ = step' (φ s) (ψ x)) (xs : List α) (s : σ) :
    (xs.foldlM step s).map φ = (xs.map ψ).foldlM step' (φ s) := by
  induction xs generalizing s with
  | nil => rfl
  | cons x rest ih =>
    rw [List.foldlM_cons, List.map_cons, List.foldlM_cons]
    exact map_bind_eq (hstep s x) ih

/-- A run over the same list on both sides. -/
theorem map_foldlM_eq_left {step : σ → α → Except ε σ} {step' : σ' → α → Except ε σ'} {φ : σ → σ'}
    (hstep : ∀ s x, (step s x).map φ = step' (φ s) x) (xs : List α) (s : σ) :
    (xs.foldlM step s).map φ = xs.foldlM step' (φ s) := by
  have hrun := map_foldlM_eq (ψ := id) hstep xs s
  rwa [List.map_id] at hrun

/-! ## Relations -/

/-- Two relations between lists, one after the other. -/
theorem forall₂_trans {R : α → β → Prop} {S : β → γ → Prop} {T : α → γ → Prop}
    (h : ∀ a b c, R a b → S b c → T a c) :
    ∀ {as : List α} {bs : List β} {cs : List γ}, List.Forall₂ R as bs → List.Forall₂ S bs cs →
      List.Forall₂ T as cs
  | _, _, _, .nil, .nil => .nil
  | _, _, _, .cons hab habs, .cons hbc hbcs => .cons (h _ _ _ hab hbc) (forall₂_trans h habs hbcs)

theorem exists_left_of_forall₂ {R : α → β → Prop} {as : List α} {bs : List β}
    (h : List.Forall₂ R as bs) {b : β} (hb : b ∈ bs) : ∃ a ∈ as, R a b := by
  induction h with
  | nil => cases hb
  | cons hab _ ih =>
    rcases List.mem_cons.1 hb with rfl | hb
    · exact ⟨_, List.mem_cons_self .., hab⟩
    · obtain ⟨a, ha, hr⟩ := ih hb
      exact ⟨a, List.mem_cons_of_mem _ ha, hr⟩

theorem exists_right_of_forall₂ {R : α → β → Prop} {as : List α} {bs : List β}
    (h : List.Forall₂ R as bs) {a : α} (ha : a ∈ as) : ∃ b ∈ bs, R a b :=
  exists_left_of_forall₂ h.flip ha

/-- What two lists have in common one by one they have in common as lists. -/
theorem map_eq_of_forall₂ {R : α → β → Prop} {f : α → γ} {g : β → γ} {as : List α} {bs : List β}
    (h : List.Forall₂ R as bs) (heq : ∀ a b, R a b → g b = f a) : bs.map g = as.map f := by
  induction h with
  | nil => rfl
  | cons hd _ ih => rw [List.map_cons, List.map_cons, heq _ _ hd, ih]

theorem all_eq_of_forall₂ {R : α → β → Prop} {p : α → Bool} {q : β → Bool} {as : List α} {bs : List β}
    (h : List.Forall₂ R as bs) (heq : ∀ a b, R a b → q b = p a) : bs.all q = as.all p := by
  induction h with
  | nil => rfl
  | cons hd _ ih => rw [List.all_cons, List.all_cons, heq _ _ hd, ih]

/-- Lists of named values that are related one by one name the same things. -/
theorem names_of_forall₂ {R : String × α → String × β → Prop} {as : List (String × α)}
    {bs : List (String × β)} (h : List.Forall₂ (fun e d => d.1 = e.1 ∧ R e d) as bs) :
    bs.map Prod.fst = as.map Prod.fst :=
  map_eq_of_forall₂ h fun _ _ hd => hd.1

/-- Runs over named values, each with one step more. -/
theorem forall₂_foldlM_snoc {step : α → β → Except ε α} {xs : List β} {x : β}
    {as bs cs : List (String × α)}
    (hrun : List.Forall₂ (fun e d => d.1 = e.1 ∧ xs.foldlM step e.2 = .ok d.2) as bs)
    (hlast : List.Forall₂ (fun e d => d.1 = e.1 ∧ step e.2 x = .ok d.2) bs cs) :
    List.Forall₂ (fun e d => d.1 = e.1 ∧ (xs ++ [x]).foldlM step e.2 = .ok d.2) as cs := by
  refine forall₂_trans (fun e d d' hed hdd' => ⟨hdd'.1.trans hed.1, ?_⟩) hrun hlast
  rw [List.foldlM_append, bind_eq_ok]
  refine ⟨d.2, hed.2, ?_⟩
  rw [List.foldlM_cons, bind_eq_ok]
  exact ⟨d'.2, hdd'.2, rfl⟩

namespace Table

/-- The library's look-up in association lists is that of tables. -/
theorem lookup_eq (name : String) : ∀ entries : List (String × α), entries.lookup name = lookup name entries
  | [] => rfl
  | (key, value) :: rest => by
    rw [List.lookup_cons, lookup, lookup_eq name rest]
    by_cases h : key = name
    · simp [h]
    · rw [beq_false_of_ne (Ne.symm h), if_neg h]

variable {f : String → α → Except ε β}

/-- Entries that were mapped without a failure, one by one. -/
theorem mapEntries_eq_ok :
    ∀ {entries : List (String × α)} {mapped : List (String × β)}, mapEntries f entries = .ok mapped ↔
      List.Forall₂ (fun e d => d.1 = e.1 ∧ f e.1 e.2 = .ok d.2) entries mapped
  | [], mapped => by
    rw [mapEntries, List.forall₂_nil_left_iff]
    exact ⟨fun h => by cases h; rfl, fun h => h ▸ rfl⟩
  | (key, value) :: rest, mapped => by
    rw [mapEntries, List.forall₂_cons_left_iff]
    constructor
    · intro h
      split at h
      · cases h
      · rename_i first hfirst
        split at h
        · cases h
        · rename_i others hothers
          cases h
          exact ⟨_, _, ⟨rfl, hfirst⟩, mapEntries_eq_ok.1 hothers, rfl⟩
    · rintro ⟨⟨key', first⟩, others, ⟨hkey, hfirst⟩, hothers, rfl⟩
      cases hkey
      simp only at hfirst
      rw [hfirst, mapEntries_eq_ok.2 hothers]

/-- A table that was mapped without a failure, entry by entry. -/
theorem mapExcept_eq_ok {t : Table α} {mapped : Table β} : t.mapExcept f = .ok mapped ↔
    List.Forall₂ (fun e d => d.1 = e.1 ∧ f e.1 e.2 = .ok d.2) t.entries mapped.entries := by
  rw [← mapEntries_eq_ok, mapExcept]
  split
  · rename_i e he
    simp [he]
  · rename_i entries he
    cases mapped
    simp [he]

end Table

/-! ## Runs that fail in one way -/

/-- Every failure of the run is of the kind `P`. -/
structure FailsOnly (P : ε → Prop) (x : Except ε α) : Prop where
  of_error : ∀ e, x = .error e → P e

namespace FailsOnly

variable {P : ε → Prop}

theorem ok (a : α) : FailsOnly P (.ok a : Except ε α) := ⟨fun _ h => by cases h⟩

theorem error {e : ε} (h : P e) : FailsOnly P (.error e : Except ε α) := ⟨fun _ heq => by
  cases heq
  exact h⟩

theorem bind {x : Except ε α} {f : α → Except ε β} (hx : FailsOnly P x)
    (hf : ∀ a, x = .ok a → FailsOnly P (f a)) : FailsOnly P (x >>= f) := by
  refine ⟨fun e h => ?_⟩
  rcases bind_eq_error.1 h with h | ⟨a, ha, h⟩
  · exact hx.of_error e h
  · exact (hf a ha).of_error e h

/-- A refusal in front of a run. -/
theorem guard {c : Prop} [Decidable c] {e : ε} {f : β → Except ε α} {x : Except ε α} (he : P e)
    (hx : FailsOnly P x) : FailsOnly P (if c then (.error e : Except ε β) >>= f else x) := by
  split
  · exact error he
  · exact hx

/-- A run over a list, of which every step that comes in keeps an invariant. -/
theorem foldlM {step : σ → α → Except ε σ} {I : σ → Prop} {xs : List α} {s : σ}
    (hstep : ∀ s x, x ∈ xs → I s → FailsOnly P (step s x) ∧ ∀ s', step s x = .ok s' → I s') (hs : I s) :
    FailsOnly P (xs.foldlM step s) := by
  induction xs generalizing s with
  | nil => exact ok s
  | cons x rest ih =>
    rw [List.foldlM_cons]
    obtain ⟨hfails, hkeeps⟩ := hstep s x (List.mem_cons_self ..) hs
    refine hfails.bind fun s' hs' => ih (fun s x hx => hstep s x (List.mem_cons_of_mem _ hx)) (hkeeps s' hs')

theorem foldlM_of_forall {step : σ → α → Except ε σ} (hstep : ∀ s x, FailsOnly P (step s x)) (xs : List α)
    (s : σ) : FailsOnly P (xs.foldlM step s) :=
  foldlM (I := fun _ => True) (fun s x _ _ => ⟨hstep s x, fun _ _ => trivial⟩) trivial

theorem mapEntries {f : String → α → Except ε β} (hf : ∀ key value, FailsOnly P (f key value)) :
    ∀ entries : List (String × α), FailsOnly P (Table.mapEntries f entries)
  | [] => ok []
  | (key, value) :: rest => by
    rw [Table.mapEntries]
    split
    · rename_i e he
      exact error ((hf key value).of_error e he)
    · split
      · rename_i e he
        exact error ((mapEntries hf rest).of_error e he)
      · exact ok _

theorem mapExcept {f : String → α → Except ε β} (hf : ∀ key value, FailsOnly P (f key value))
    (t : Table α) : FailsOnly P (t.mapExcept f) := by
  unfold Table.mapExcept
  split
  · rename_i e he
    exact error ((mapEntries hf t.entries).of_error e he)
  · exact ok _

end FailsOnly

end PetriTree
