import Mathlib.Logic.Relation
import PetriTree.Proofs.Cycle

/-!
# PetriTree — definitions without cycles

One rate parameter mentions another, and so on: the parameters are the nodes of a graph, and a definition can be
evaluated when no way along the mentions comes back to where it started. The check walks through this graph depth
first. It settles a parameter at most once, whichever parameter it started from, and it stops when it meets one
that is on its own way.

Of the parameters on the way each leads to the one that the walk has come to, so what it stops at lies on a cycle.
What it settles mentions settled definitions of lower rank only, so where it comes to an end there is no cycle.

The walk is written down a second time as it goes on in memory: one set of what is on the way, which grows and
shrinks, and one set of what is done. There it may be given up below a depth, and it is not where the depth is
greater than the number of definitions.

Main results:
* `Mentions`, `OnCycle` — the graph, and the parameters on its cycles;
* `onCycle_of_settle` — what a walk stops at;
* `not_onCycle_of_definitionOrder` — what it means that no walk stopped;
* `matches_walkFrom` — the walk with its sets does as the other one and is not given up;
* `definitionOrder_exact` — the check is exact.
-/

namespace PetriTree

/-! ## The graph -/

/-- Does the definition of a parameter mention another parameter? -/
def Mentions (definitions : List (String × Expr)) (id other : String) : Prop :=
  ∃ e, definitions.lookup id = some e ∧ other ∈ e.parameterMentions

/-- Do mentions lead from a parameter back to it? -/
def OnCycle (definitions : List (String × Expr)) (id : String) : Prop :=
  Relation.TransGen (Mentions definitions) id id

variable {definitions : List (String × Expr)}

/-- A walk stops at a parameter on a cycle, if everything on the way to it leads to where it is. -/
theorem onCycle_of_settle {active : List String} {done : List (String × Expr)} {id : String}
    (hway : ∀ a ∈ active, Relation.TransGen (Mentions definitions) a id) :
    FailsOnly (OnCycle definitions) (settle definitions active done id) := by
  induction active, done, id using settle.induct definitions with
  | case1 active done id hknown =>
    rw [settle_known hknown]
    exact .ok done
  | case2 active done id hnew hactive hundefined =>
    rw [settle_undefined hnew hactive hundefined]
    exact .ok done
  -- whatever the definition mentions is led to by the parameter itself and all that leads to it
  | case3 active done id hnew hactive e hid ih =>
    have hmentions : ∀ p ∈ e.mentionedParameters.toList, ∀ a ∈ id :: active,
        Relation.TransGen (Mentions definitions) a p := by
      intro p hp a ha
      have hmention : Mentions definitions id p := ⟨e, hid, Expr.mem_mentionedParameters.1 hp⟩
      rcases List.mem_cons.1 ha with rfl | ha
      · exact .single hmention
      · exact (hway a ha).tail hmention
    rw [settle_defined hnew hactive hid]
    refine FailsOnly.bind (.foldlM (I := fun _ => True) ?_ trivial) fun _ _ => .ok _
    exact fun done p hp _ => ⟨ih done p (hmentions p hp), fun _ _ => trivial⟩
  -- the parameter is on the way to itself
  | case4 active done id hnew hactive =>
    rw [settle_active hnew hactive]
    exact .error (hway id (by simpa using hactive))

theorem onCycle_of_definitionOrder : FailsOnly (OnCycle definitions) (definitionOrder definitions) :=
  .foldlM (I := fun _ => True) (fun _ _ _ _ => ⟨onCycle_of_settle (by simp), fun _ _ => trivial⟩) trivial

/-- Where an order was found every mention is of lower rank, so none leads back. -/
theorem not_onCycle_of_definitionOrder {order : List (String × Expr)} (h : definitionOrder definitions = .ok order)
    (id : String) : ¬ OnCycle definitions id := by
  obtain ⟨hsettled, hsame⟩ := definitionOrder_settled h
  have hlower : ∀ p q, Mentions definitions p q → rankIn order q < rankIn order p := by
    rintro p q ⟨e, hp, hq⟩
    exact hsettled.rank_lt ((hsame p).trans hp) hq
  intro hcycle
  have hdescent : Relation.TransGen (fun m n : Nat => n < m) (rankIn order id) (rankIn order id) :=
    hcycle.lift (rankIn order) hlower
  rw [Relation.transGen_eq_self] at hdescent
  exact Nat.lt_irrefl _ hdescent

/-! ## The walk with its sets -/

/-- What a walk keeps: the parameters on the way to where it is, and those that need no further walk. -/
structure Progress where
  active : SortedSet String
  done : SortedSet String

/-- The walk from a parameter. It is given up where it would go deeper than `depth`. -/
def walkFrom (definitions : List (String × Expr)) : Nat → Progress → String → ExceptT String Option Progress
  | 0, _, _ => Option.none (α := Except String Progress)
  | depth + 1, p, id =>
    if id ∈ p.done then pure p
    else if id ∈ p.active then throw id
    else do
      let p := { p with active := p.active.insert id }
      let p ← match definitions.lookup id with
        | none => pure p
        | some e => e.mentionedParameters.toList.foldlM (walkFrom definitions depth) p
      -- from here on it may be met again
      return { active := p.active.erase id, done := p.done.insert id }

/-- A walk on a way of its own, while what was done before stays so. -/
def walkAnew (definitions : List (String × Expr)) (depth : Nat) (done : SortedSet String) (id : String) :
    ExceptT String Option (SortedSet String) :=
  Progress.done <$> walkFrom definitions depth ⟨SortedSet.empty, done⟩ id

/-- The check: walks from all parameters, in the order of their ids. -/
def checkWithin (depth : Nat) (definitions : List (String × Expr)) : ExceptT String Option Unit :=
  (fun _ => ()) <$>
    (SortedSet.ofList (definitions.map Prod.fst)).toList.foldlM (walkAnew definitions depth) SortedSet.empty

/-- Is a run that may be given up not given up, does it refuse what another run refuses, and is its result
related to that of the other one? -/
def Matches (R : σ → τ → Prop) : Except ε σ → ExceptT ε Option τ → Prop
  | .ok s, x => ∃ t, x = (some (.ok t) : Option (Except ε τ)) ∧ R s t
  | .error e, x => x = (some (.error e) : Option (Except ε τ))

theorem Matches.bind {R : σ → τ → Prop} {S : σ' → τ' → Prop} {x : Except ε σ} {y : ExceptT ε Option τ}
    {f : σ → Except ε σ'} {g : τ → ExceptT ε Option τ'} (h : Matches R x y)
    (hnext : ∀ s t, R s t → Matches S (f s) (g t)) : Matches S (x >>= f) (y >>= g) := by
  cases x with
  | error e =>
    rw [Matches] at h
    subst h
    rfl
  | ok s =>
    obtain ⟨t, rfl, hst⟩ := h
    exact hnext s t hst

theorem Matches.map {R : σ → τ → Prop} {S : σ → τ' → Prop} {x : Except ε σ} {y : ExceptT ε Option τ} (g : τ → τ')
    (h : Matches R x y) (hnext : ∀ s t, R s t → S s (g t)) : Matches S x (g <$> y) := by
  cases x with
  | error e =>
    rw [Matches] at h
    subst h
    rfl
  | ok s =>
    obtain ⟨t, rfl, hst⟩ := h
    exact ⟨g t, rfl, hnext s t hst⟩

theorem Matches.foldlM {R : σ → τ → Prop} {step : σ → α → Except ε σ} {step' : τ → α → ExceptT ε Option τ}
    {xs : List α} {s : σ} {t : τ} (hstep : ∀ s t, ∀ x ∈ xs, R s t → Matches R (step s x) (step' t x))
    (h : R s t) : Matches R (xs.foldlM step s) (xs.foldlM step' t) := by
  induction xs generalizing s t with
  | nil => exact ⟨t, rfl, h⟩
  | cons x rest ih =>
    rw [List.foldlM_cons, List.foldlM_cons]
    refine (hstep s t x (List.mem_cons_self ..) h).bind fun s' t' h' => ?_
    exact ih (fun s t x hx => hstep s t x (List.mem_cons_of_mem _ hx)) h'

/-- Do the two sets say what is on the way and what is settled? What has no definition may be done as well. -/
structure Tells (definitions : List (String × Expr)) (active : List String) (done : List (String × Expr))
    (p : Progress) : Prop where
  active : ∀ id, id ∈ p.active ↔ id ∈ active
  settled : ∀ id, (done.lookup id).isSome → id ∈ p.done
  done : ∀ id, (definitions.lookup id).isSome → id ∈ p.done → (done.lookup id).isSome

/-- One parameter more on the way. -/
theorem Tells.enter {active : List String} {done : List (String × Expr)} {p : Progress}
    (hp : Tells definitions active done p) (id : String) :
    Tells definitions (id :: active) done { p with active := p.active.insert id } where
  active other := by rw [SortedSet.mem_insert, hp.active, List.mem_cons]
  settled := hp.settled
  done := hp.done

/-- The way without the parameter that was entered last, which is done from then on, and settled if it is defined. -/
theorem Tells.leave {active : List String} {done done' : List (String × Expr)} {id : String} {p : Progress}
    (hp : Tells definitions (id :: active) done p) (hoff : id ∉ active)
    (hdone : ∀ other, (done'.lookup other).isSome ↔
      other = id ∧ (definitions.lookup id).isSome ∨ (done.lookup other).isSome) :
    Tells definitions active done' { active := p.active.erase id, done := p.done.insert id } where
  active other := by
    rw [SortedSet.mem_erase, hp.active, List.mem_cons]
    constructor
    · rintro ⟨hne, hother | hother⟩
      · exact absurd hother hne
      · exact hother
    · intro hother
      exact ⟨fun h => hoff (h ▸ hother), Or.inr hother⟩
  settled other hother := by
    rw [SortedSet.mem_insert]
    exact ((hdone other).1 hother).imp And.left (hp.settled other)
  done other hdefined hother := by
    rw [hdone]
    rcases SortedSet.mem_insert.1 hother with rfl | hother
    · exact Or.inl ⟨rfl, hdefined⟩
    · exact Or.inr (hp.done other hdefined hother)

/-- The walk with its sets does as the other one, and goes one step deeper at most than there are definitions that
are not on the way. -/
theorem matches_walkFrom {active : List String} {done : List (String × Expr)} {id : String} {p : Progress}
    {depth : Nat} (hactive : ∀ a ∈ active, (definitions.lookup a).isSome) (hp : Tells definitions active done p)
    (hdepth : (unvisited definitions active).length < depth) :
    Matches (Tells definitions active) (settle definitions active done id) (walkFrom definitions depth p id) := by
  obtain ⟨depth, rfl⟩ := Nat.exists_eq_add_one_of_ne_zero (Nat.ne_zero_of_lt hdepth)
  induction active, done, id using settle.induct definitions generalizing p depth with
  | case1 active done id hknown =>
    rw [settle_known hknown, walkFrom, if_pos (hp.settled id hknown)]
    exact ⟨p, rfl, hp⟩
  -- a parameter without a definition is on the way for a moment, and done from then on
  | case2 active done id hnew hfree hundefined =>
    rw [settle_undefined hnew hfree hundefined, walkFrom]
    have hoff : id ∉ active := by simpa using hfree
    split
    · exact ⟨p, rfl, hp⟩
    · rw [if_neg fun h => hoff ((hp.active id).1 h), hundefined]
      exact ⟨_, rfl, (hp.enter id).leave hoff fun other => by simp [hundefined]⟩
  -- the walks from what it mentions match one by one
  | case3 active done id hnew hfree e hid ih =>
    have hoff : id ∉ active := by simpa using hfree
    have hopen : id ∉ p.done := fun h => hnew (hp.done id (by simp [hid]) h)
    rw [settle_defined hnew hfree hid, walkFrom, if_neg hopen, if_neg fun h => hoff ((hp.active id).1 h), hid]
    have hmentions : Matches (Tells definitions (id :: active))
        (e.mentionedParameters.toList.foldlM (settle definitions (id :: active)) done)
        (e.mentionedParameters.toList.foldlM (walkFrom definitions depth) { p with active := p.active.insert id }) := by
      have hdefined : ∀ a ∈ id :: active, (definitions.lookup a).isSome := by
        rintro a (_ | ⟨_, ha⟩)
        · simp [hid]
        · exact hactive a ha
      have hless := unvisited_cons_lt hid hfree
      obtain ⟨depth, rfl⟩ := Nat.exists_eq_add_one_of_ne_zero (by omega : depth ≠ 0)
      exact .foldlM (fun done p other _ hp => ih done other hdefined hp depth (by omega)) (hp.enter id)
    refine hmentions.bind fun done p hp => ⟨_, rfl, hp.leave hoff fun other => ?_⟩
    rw [lookup_cons_if, hid]
    by_cases hother : other = id <;> simp [hother]
  | case4 active done id hnew hmet =>
    have hon : id ∈ active := by simpa using hmet
    have hopen : id ∉ p.done := fun h => hnew (hp.done id (hactive id hon) h)
    rw [settle_active hnew hmet, walkFrom, if_neg hopen, if_pos ((hp.active id).2 hon)]
    rfl

theorem matches_checkWithin {depth : Nat} (hdepth : definitions.length < depth) :
    Matches (fun _ _ => True) (definitionOrder definitions) (checkWithin depth definitions) := by
  have hunvisited : (unvisited definitions []).length < depth := by simpa [unvisited] using hdepth
  -- every walk starts on an empty way, and leaves one
  have hempty : ∀ id : String, id ∈ (SortedSet.empty : SortedSet String) ↔ id ∈ ([] : List String) :=
    fun id => iff_of_false (SortedSet.notMem_empty id) List.not_mem_nil
  have hwalks : Matches (fun done walked => Tells definitions [] done ⟨SortedSet.empty, walked⟩)
      (definitionOrder definitions)
      ((SortedSet.ofList (definitions.map Prod.fst)).toList.foldlM (walkAnew definitions depth) SortedSet.empty) := by
    refine .foldlM (fun done walked id _ hp => ?_) ⟨hempty, by simp, fun id _ h => absurd h (SortedSet.notMem_empty id)⟩
    exact (matches_walkFrom (by simp) hp hunvisited).map _ fun _ _ hp => ⟨hempty, hp.settled, hp.done⟩
  exact hwalks.map _ fun _ _ _ => trivial

/-- The check finds an order of the definitions just when there is no cycle among them, and otherwise answers with a
parameter on a cycle. Kept in two sets, as it goes on in memory, it gives the same answer, and in a recursion no
deeper than the number of definitions and one step more it is never given up. -/
theorem definitionOrder_exact (definitions : List (String × Expr)) :
    ((∃ order, definitionOrder definitions = .ok order) ↔ ∀ id, ¬ OnCycle definitions id) ∧
    (∀ id, definitionOrder definitions = .error id → OnCycle definitions id) ∧
    ∀ depth, definitions.length < depth →
      checkWithin depth definitions = some ((definitionOrder definitions).map fun _ => ()) := by
  refine ⟨⟨?_, fun hnone => ?_⟩, onCycle_of_definitionOrder.of_error, fun depth hdepth => ?_⟩
  · rintro ⟨order, horder⟩
    exact not_onCycle_of_definitionOrder horder
  · cases horder : definitionOrder definitions with
    | ok order => exact ⟨order, rfl⟩
    | error id => exact absurd (onCycle_of_definitionOrder.of_error id horder) (hnone id)
  · have hmatches := matches_checkWithin hdepth
    cases horder : definitionOrder definitions with
    | ok order =>
      rw [horder] at hmatches
      obtain ⟨_, hcheck, _⟩ := hmatches
      exact hcheck
    | error id =>
      rw [horder] at hmatches
      exact hmatches

/-- Two parameters that are defined through each other, and a third one that mentions one of them. -/
def circle : List (String × Expr) :=
  [("c", .parameter "b"), ("a", .binary .add (.parameter "b") (.number 1)),
    ("b", .binary .mul (.parameter "a") (.number 2))]

/-- The walk from the first of the two comes back to it. -/
theorem definitionOrder_exact_circle : definitionOrder circle = .error "a" ∧ OnCycle circle "a" := by
  have hrun : definitionOrder circle = .error "a" :=
    (map_eq_error (f := fun _ => ())).1 (by decide +kernel)
  obtain ⟨_, hcycle, _⟩ := definitionOrder_exact circle
  exact ⟨hrun, hcycle "a" hrun⟩

end PetriTree
