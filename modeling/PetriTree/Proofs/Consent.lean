import PetriTree.Proofs.Simulation

/-!
# PetriTree — what handlers agree to

A handler is asked in the middle of a firing: the marking that the firing leads to is known by then, and
neither the marking nor the schedule has been touched. So a handler can refuse a firing and nothing need be
taken back. But the schedule comes after it. When the schedule cannot follow to the new marking, the firing is
given up, and whatever the handler did when it agreed has been done for nothing.

Both kinds of firings are counted here over whole runs, next to what a handler agreed to, which can be read
off the calls it heard. No firing is made without the consent of the handler, and every consent is for a
firing that is made or for one that is given up.

Main results:
* `Handler.agreed` — to how many firings a handler agreed;
* `Simulation.givesUp_iff`, `agreed_perform` — what one operation adds to it;
* `Simulation.agreed_eq` — consents are firings that were made and firings that were given up;
* `Simulation.agreed_for_nothing` — the latter do occur.
-/

namespace PetriTree

/-! ## Counting consents -/

/-- The number of firings among some calls to which a handler agrees, after the calls it heard before. -/
def Behaviour.agreed (b : Behaviour) (heard : List HandlerCall) : List HandlerCall → Nat
  | [] => 0
  | call :: rest =>
    (if call.isFire && (b heard call).toOption.isSome then 1 else 0) + agreed b (heard ++ [call]) rest

theorem Behaviour.agreed_concat (b : Behaviour) (heard calls : List HandlerCall) (call : HandlerCall) :
    b.agreed heard (calls ++ [call]) =
      b.agreed heard calls + if call.isFire && (b (heard ++ calls) call).toOption.isSome then 1 else 0 := by
  induction calls generalizing heard with
  | nil => simp [agreed]
  | cons first rest ih =>
    rw [List.cons_append, agreed, ih, agreed, List.append_assoc, List.singleton_append, Nat.add_assoc]

namespace Handler

/-- To how many firings did a handler agree? -/
def agreed (h : Handler) : Nat := h.behaviour.agreed [] h.calls

theorem agreed_hear (h : Handler) (call : HandlerCall) :
    (h.hear call).agreed = h.agreed + if call.isFire && (h.answer call).toOption.isSome then 1 else 0 :=
  h.behaviour.agreed_concat [] h.calls call

end Handler

/-- Handlers that were made for a net have agreed to nothing yet. -/
theorem Registry.agreed_makeAll {r : Registry} {made : Table Handler} (ts : List Transition)
    (h : ∀ t handler, made.get? t = some handler → handler.agreed = 0) :
    ∀ t handler, (r.makeAll made ts).1.get? t = some handler → handler.agreed = 0 := by
  induction ts generalizing made with
  | nil => exact h
  | cons first rest ih =>
    rw [makeAll]
    split
    · exact ih h
    · split
      · exact h
      · rename_i name _ handler hmade
        refine ih fun t other hother => ?_
        rw [Table.get?_insert] at hother
        split at hother
        · -- a new handler has heard its context only
          cases hother
          unfold instantiate at hmade
          split at hmade
          · cases hmade
          · split at hmade <;> cases hmade
            rfl
        · exact h t other hother

theorem Registry.agreed_attach {r : Registry} {net : FlatNet} {t : String} {handler : Handler}
    (h : (r.attach net).1.get? t = some handler) : handler.agreed = 0 := by
  have hnone : ∀ t handler, (Table.empty : Table Handler).get? t = some handler → handler.agreed = 0 := by
    intro t handler hget
    cases hget
  have hmade := r.agreed_makeAll (net.transitions.values.map FlatTransition.transition) hnone
  unfold attach at h
  split at h <;> rename_i hall <;> rw [hall] at hmade
  · exact hmade t handler h
  · rw [Table.get?_map, Option.map_eq_some_iff] at h
    obtain ⟨made, hget, rfl⟩ := h
    -- to be told about the net is to be told of no firing
    rw [Handler.agreed_hear, hmade t made hget]
    rfl

/-- The handlers of a net that was just made have agreed to nothing. -/
theorem LiveNet.agreed_of_ofTree {registry : Registry} {instanceId : Nat} {tree : IncludeTree} {live : LiveNet}
    (h : (LiveNet.ofTree registry instanceId tree).2 = .ok live) {t : String} {handler : Handler}
    (hhandler : live.handlers.get? t = some handler) : handler.agreed = 0 := by
  have hattached : (registry.attach live.net).1.get? t = some handler := by
    rw [(LiveNet.made_of_ofTree h).2.1]
    exact hhandler
  exact Registry.agreed_attach hattached

namespace Simulation

variable {sim : Simulation}

/-! ## Asking -/

/-- The simulation with other handlers. -/
def withHandlers (sim : Simulation) (handlers : Table Handler) : Simulation :=
  { sim with live := { sim.live with handlers := handlers } }

/-- A handler that is asked has heard the call, and a refusal is the outcome. -/
theorem askHandler_eq {transition : String} {handler : Handler} (reached : Marking)
    (h : sim.live.handlers.get? transition = some handler) : sim.askHandler transition reached =
      (sim.withHandlers (sim.live.handlers.insert transition (handler.hear (.fire transition reached))),
        (handler.answer (.fire transition reached)).mapError (.handler transition)) := by
  rw [askHandler, h]
  dsimp only
  cases handler.answer (.fire transition reached) <;> rfl

theorem askHandler_of_some {transition : String} {handler : Handler} (reached : Marking)
    (h : sim.live.handlers.get? transition = some handler) :
    (sim.askHandler transition reached).1.live.handlers =
        sim.live.handlers.insert transition (handler.hear (.fire transition reached)) ∧
      (sim.askHandler transition reached).2.toOption.isSome =
        (handler.answer (.fire transition reached)).toOption.isSome := by
  rw [askHandler_eq reached h]
  cases handler.answer (.fire transition reached) <;> exact ⟨rfl, rfl⟩

theorem askHandler_of_none {transition : String} (reached : Marking)
    (h : sim.live.handlers.get? transition = none) : sim.askHandler transition reached = (sim, .ok ()) := by
  rw [askHandler, h]

theorem live_enabled (sim : Simulation) : sim.enabled.1.live = sim.live := by rw [enabled_fst]

theorem get?_told {transition : String} {handler : Handler} (reached : Marking)
    (h : sim.live.handlers.get? transition = some handler) :
    (sim.told transition reached).1.live.handlers.get? transition =
      some (handler.hear (.fire transition reached)) := by
  rw [told, (askHandler_of_some reached (sim.live_enabled.symm ▸ h)).1, Table.get?_insert, if_pos rfl]

theorem answer_told {transition : String} {handler : Handler} (reached : Marking)
    (h : sim.live.handlers.get? transition = some handler) :
    (sim.told transition reached).2.toOption.isSome = (handler.answer (.fire transition reached)).toOption.isSome :=
  (askHandler_of_some reached (sim.live_enabled.symm ▸ h)).2

/-- The other handlers hear nothing. -/
theorem get?_told_of_ne {transition t : String} (reached : Marking) (hne : transition ≠ t) :
    (sim.told transition reached).1.live.handlers.get? t = sim.live.handlers.get? t := by
  rw [← sim.live_enabled, told]
  cases hhandler : sim.enabled.1.live.handlers.get? transition with
  | none => rw [askHandler_of_none reached hhandler]
  | some handler => rw [(askHandler_of_some reached hhandler).1, Table.get?_insert, if_neg hne]

/-! ## Counting firings -/

/-- Is an operation a firing of a transition that is made? -/
def commits (t : String) (sim : Simulation) : Operation → Bool
  | .fire transition => transition == t && (sim.fire transition).2.toOption.isSome
  | .fireBackwards _ | .undo | .reset | .resync | .advance _ => false

/-- Is a firing offered and agreed to, but given up because the schedule cannot follow? -/
def givesUp (sim : Simulation) (transition : String) : Bool :=
  match sim.enabled.2, sim.live.net.fire sim.marking transition with
  | .ok found, .ok reached =>
    sim.live.net.transitions.contains transition && decide (transition ∈ found) &&
      (sim.told transition reached).2.toOption.isSome && (sim.live.net.timed reached).toOption.isNone
  | _, _ => false

/-- Is an operation a firing of a transition that is agreed to and given up? -/
def abandons (t : String) (sim : Simulation) : Operation → Bool
  | .fire transition => transition == t && sim.givesUp transition
  | .fireBackwards _ | .undo | .reset | .resync | .advance _ => false

/-- The number of operations of a run that are of some kind, each in the simulation it is applied to. -/
def tally (kind : Simulation → Operation → Bool) (sim : Simulation) : List Operation → Nat
  | [] => 0
  | operation :: rest => (if kind sim operation then 1 else 0) + tally kind (sim.perform operation).1 rest

theorem givesUp_iff {transition : String} : sim.givesUp transition = true ↔
    ∃ reached e, sim.Offers transition reached ∧ (sim.told transition reached).2 = .ok () ∧
      sim.live.net.timed reached = .error e := by
  constructor
  · intro h
    unfold givesUp at h
    split at h
    · rename_i found reached hfound hreached
      simp only [Bool.and_eq_true, decide_eq_true_eq] at h
      obtain ⟨⟨⟨hknown, hlisted⟩, hanswer⟩, hstrands⟩ := h
      obtain ⟨⟨⟩, hagrees⟩ := Option.isSome_iff_exists.1 hanswer
      cases htimed : sim.live.net.timed reached with
      | error e =>
        have hoffers : sim.Offers transition reached := ⟨hknown, ⟨found, hfound, hlisted⟩, hreached⟩
        exact ⟨reached, e, hoffers, toOption_eq_some.1 hagrees, htimed⟩
      | ok timed =>
        rw [htimed] at hstrands
        cases hstrands
    · cases h
  · rintro ⟨reached, e, ⟨hknown, ⟨found, hfound, hlisted⟩, hreached⟩, hanswer, htimed⟩
    unfold givesUp
    simp [hfound, hreached, hknown, hlisted, hanswer, htimed, Except.toOption]

/-- A firing is not given up when the schedule can follow wherever its handler agrees to go. -/
theorem givesUp_eq_false {transition : String} (h : ∀ reached, sim.Offers transition reached →
    (sim.told transition reached).2 = .ok () → ∃ timed, sim.live.net.timed reached = .ok timed) :
    sim.givesUp transition = false := by
  rw [Bool.eq_false_iff]
  intro hgiven
  obtain ⟨reached, e, hoffers, hanswer, hfails⟩ := givesUp_iff.1 hgiven
  obtain ⟨timed, hfollows⟩ := h reached hoffers hanswer
  rw [hfails] at hfollows
  cases hfollows

theorem Offers.unique {transition : String} {reached other : Marking} (h : sim.Offers transition reached)
    (hother : sim.Offers transition other) : reached = other := by
  have hleads := h.leads
  rw [hother.leads] at hleads
  cases hleads
  rfl

/-! ## One operation -/

/-- What a handler agreed to after it heard of one firing more. -/
theorem agreed_told {transition : String} {handler : Handler} {reached : Marking}
    (h : sim.live.handlers.get? transition = some handler) :
    (handler.hear (.fire transition reached)).agreed = handler.agreed +
      if (sim.told transition reached).2.toOption.isSome then 1 else 0 := by
  rw [Handler.agreed_hear, answer_told reached h]
  rfl

/-- A firing that is asked for makes its handler agree just when it is made or given up. -/
theorem agreed_fire {transition : String} {handler : Handler} (h : sim.live.handlers.get? transition = some handler) :
    ∃ later, (sim.fire transition).1.live.handlers.get? transition = some later ∧ later.agreed = handler.agreed +
      (if (sim.fire transition).2.toOption.isSome then 1 else 0) + if sim.givesUp transition then 1 else 0 := by
  -- one case for each ending: both counts are zero or one, and they are not both one
  have hattempt := sim.attempt_fire transition
  generalize sim.fire transition = outcome at hattempt ⊢
  cases hattempt with
  | refused e hnone =>
    -- the handler was not asked
    have hkept : sim.givesUp transition = false :=
      givesUp_eq_false fun reached hoffers => absurd hoffers (hnone reached)
    refine ⟨handler, h, ?_⟩
    rw [hkept]
    rfl
  | @declined reached e hoffers hanswer =>
    -- it was asked about the one marking that the firing leads to, and did not agree
    have hkept : sim.givesUp transition = false := by
      refine givesUp_eq_false ?_
      intro other hother hagrees
      rw [← hoffers.unique hother, hanswer] at hagrees
      cases hagrees
    refine ⟨_, get?_told reached h, ?_⟩
    rw [agreed_told h, hanswer, hkept]
    rfl
  | @abandoned reached e hoffers hanswer hstrands =>
    -- a consent for nothing
    refine ⟨_, get?_told reached h, ?_⟩
    rw [agreed_told h, hanswer, givesUp_iff.2 ⟨reached, e, hoffers, hanswer, hstrands⟩]
    rfl
  | @made reached timed hoffers hanswer hfollows =>
    have hkept : sim.givesUp transition = false := by
      refine givesUp_eq_false ?_
      intro other hother _
      rw [← hoffers.unique hother]
      exact ⟨timed, hfollows⟩
    refine ⟨_, get?_told reached h, ?_⟩
    rw [agreed_told h, hanswer, hkept]
    rfl

/-- Of the firing of one transition the handlers of others hear nothing. -/
theorem get?_fire_of_ne {transition t : String} (hne : transition ≠ t) :
    (sim.fire transition).1.live.handlers.get? t = sim.live.handlers.get? t := by
  have hattempt := sim.attempt_fire transition
  generalize sim.fire transition = outcome at hattempt ⊢
  cases hattempt with
  | refused => rfl
  | @declined reached => exact get?_told_of_ne reached hne
  | @abandoned reached => exact get?_told_of_ne reached hne
  | @made reached => exact get?_told_of_ne reached hne

/-- Handlers are asked about forward firings only. -/
theorem handlers_perform {operation : Operation} (h : ∀ t, operation ≠ .fire t) :
    (sim.perform operation).1.live.handlers = sim.live.handlers := by
  cases operation with
  | fire t => exact absurd rfl (h t)
  | fireBackwards t =>
    show (sim.fireBackwards t).1.live.handlers = _
    have hrewind := sim.rewind_fireBackwards t
    generalize sim.fireBackwards t = outcome at hrewind ⊢
    cases hrewind <;> rfl
  | undo =>
    show sim.undo.1.live.handlers = _
    have hundoing := sim.undoing_undo
    generalize sim.undo = outcome at hundoing ⊢
    cases hundoing <;> rfl
  | reset =>
    show sim.reset.1.live.handlers = _
    have hrestart := sim.restart_reset
    generalize sim.reset = outcome at hrestart ⊢
    cases hrestart <;> rfl
  | resync =>
    dsimp only [perform]
    split
    · rfl
    · rename_i after hafter
      obtain ⟨s, rfl⟩ := resync_eq_ok hafter
      rfl
  | advance time => rfl

/-- What one operation adds to the consents of a handler. -/
theorem agreed_perform {t : String} {handler : Handler} (h : sim.live.handlers.get? t = some handler)
    (operation : Operation) : ∃ later, (sim.perform operation).1.live.handlers.get? t = some later ∧
      later.agreed = handler.agreed + (if commits t sim operation then 1 else 0) +
        if abandons t sim operation then 1 else 0 := by
  have hsilent : (∀ transition, operation ≠ .fire transition) → commits t sim operation = false →
      abandons t sim operation = false → ∃ later, (sim.perform operation).1.live.handlers.get? t = some later ∧
        later.agreed = handler.agreed + (if commits t sim operation then 1 else 0) +
          if abandons t sim operation then 1 else 0 := by
    intro hother hcommits habandons
    rw [handlers_perform hother, hcommits, habandons]
    exact ⟨handler, h, rfl⟩
  cases operation with
  | fire transition =>
    by_cases hsame : transition = t
    · subst hsame
      obtain ⟨later, hlater, hagreed⟩ := agreed_fire h
      refine ⟨later, hlater, hagreed.trans ?_⟩
      simp [commits, abandons]
    · refine ⟨handler, (get?_fire_of_ne hsame).trans h, ?_⟩
      simp [commits, abandons, hsame]
  | fireBackwards => exact hsilent (by rintro _ ⟨⟩) rfl rfl
  | undo => exact hsilent (by rintro _ ⟨⟩) rfl rfl
  | reset => exact hsilent (by rintro _ ⟨⟩) rfl rfl
  | resync => exact hsilent (by rintro _ ⟨⟩) rfl rfl
  | advance => exact hsilent (by rintro _ ⟨⟩) rfl rfl

/-! ## Runs -/

theorem agreed_performAll {t : String} {handler : Handler} (h : sim.live.handlers.get? t = some handler)
    (operations : List Operation) : ∃ later, (sim.performAll operations).live.handlers.get? t = some later ∧
      later.agreed = handler.agreed + tally (commits t) sim operations + tally (abandons t) sim operations := by
  -- induction on the run, from its start on
  induction operations generalizing sim handler with
  | nil => exact ⟨handler, h, rfl⟩
  | cons operation rest ih =>
    obtain ⟨next, hnext, hstep⟩ := agreed_perform h operation
    obtain ⟨later, hlater, hrest⟩ := ih hnext
    refine ⟨later, hlater, ?_⟩
    rw [hrest, hstep, tally, tally]
    omega

/-- Nothing is given up where the schedule can follow to every marking. -/
theorem tally_abandons_eq_zero {t : String} (h : ∀ m, ∃ timed, sim.live.net.timed m = .ok timed)
    (operations : List Operation) : tally (abandons t) sim operations = 0 := by
  have hnever : ∀ {sim : Simulation}, (∀ m, ∃ timed, sim.live.net.timed m = .ok timed) →
      ∀ operation, abandons t sim operation = false := by
    intro sim hfollows operation
    -- only forward firings are ever given up
    cases operation with
    | fire transition =>
      rw [abandons, givesUp_eq_false fun reached _ _ => hfollows reached, Bool.and_false]
    | fireBackwards | undo | reset | resync | advance => rfl
  induction operations generalizing sim with
  | nil => rfl
  | cons operation rest ih =>
    rw [tally, hnever h operation, ih ((sim.continues_perform operation).net ▸ h)]
    rfl

/-- A firing that is made is one that its handler heard of last, with the marking that is held since, and
agreed to. -/
theorem answer_of_fire {t : String} {handler : Handler} (h : sim.live.handlers.get? t = some handler)
    {firing : Firing} (hfires : (sim.fire t).2 = .ok firing) :
    (sim.fire t).1.live.handlers.get? t = some (handler.hear (.fire t (sim.fire t).1.marking)) ∧
      handler.answer (.fire t (sim.fire t).1.marking) = .ok () := by
  have hattempt := sim.attempt_fire t
  generalize sim.fire t = outcome at hattempt hfires ⊢
  cases hattempt with
  | refused => cases hfires
  | declined => cases hfires
  | abandoned => cases hfires
  | @made reached timed hoffers hanswer hfollows =>
    refine ⟨get?_told reached h, ?_⟩
    have hagrees := answer_told reached h
    rw [hanswer] at hagrees
    obtain ⟨⟨⟩, hok⟩ := Option.isSome_iff_exists.1 hagrees.symm
    exact toOption_eq_some.1 hok

/-- In every run, a handler agrees just to the firings of its transition that are made and to those that are
given up afterwards. There are none of the latter when the schedule can follow to every marking. No firing is
made without the handler: it hears of it once and agrees. -/
theorem agreed_eq {live : LiveNet} {chance : Chance} {startTime : UInt64}
    (hnew : Simulation.new live chance startTime = .ok sim) {t : String} {handler : Handler}
    (hhandler : live.handlers.get? t = some handler) (operations : List Operation) :
    let last := sim.performAll operations
    ∃ later, last.live.handlers.get? t = some later ∧
      later.agreed = handler.agreed + tally (commits t) sim operations + tally (abandons t) sim operations ∧
      ((∀ m, ∃ timed, live.net.timed m = .ok timed) → tally (abandons t) sim operations = 0) ∧
      ∀ firing, (last.fire t).2 = .ok firing →
        (last.fire t).1.live.handlers.get? t = some (later.hear (.fire t (last.fire t).1.marking)) ∧
          later.answer (.fire t (last.fire t).1.marking) = .ok () := by
  intro last
  -- a simulation starts with the net and the handlers that it is given
  have hstart : sim.live.net = live.net ∧ sim.live.handlers.get? t = some handler := by
    obtain ⟨timed, _, rfl⟩ := new_eq_ok.1 hnew
    exact ⟨rfl, hhandler⟩
  obtain ⟨hnet, hfirst⟩ := hstart
  obtain ⟨later, hlater, hagreed⟩ := agreed_performAll hfirst operations
  refine ⟨later, hlater, hagreed, fun hfollows => ?_, fun firing hfires => answer_of_fire hlater hfires⟩
  exact tally_abandons_eq_zero (hnet.symm ▸ hfollows) operations

/-! ## Consents for nothing -/

/-- A transition with a handler takes tokens of which a timed transition asks for its share. -/
def deserting (tokens : Nat) : IncludeTree := Sample.single
  [Sample.place "P" tokens, .transition ⟨"T", 1, .immediate, Rate.one, 0, some "h"⟩,
    .transition ⟨"X", 1, .timed, Rate.one, 5, none⟩, Sample.arc "a" "P" "T" .placeToTransition "1",
    Sample.arc "b" "P" "X" .placeToTransition "1 / #(P)"]

/-- A registry with one handler, which agrees to everything. -/
def willing : Registry := Table.empty.insert "h" ⟨.null, .ok Behaviour.agreeing⟩

/-- Two firings are agreed to. The first one is made, and the second one is given up, for it takes the last
token. -/
theorem agreed_eq_deserting : ∃ live sim handler later,
    Simulation.new live ⟨fun _ => 0, 0⟩ 0 = .ok sim ∧ live.handlers.get? "T" = some handler ∧
    (sim.performAll [.fire "T", .fire "T"]).live.handlers.get? "T" = some later ∧
    handler.agreed = 0 ∧ later.agreed = 2 ∧ tally (commits "T") sim [.fire "T", .fire "T"] = 1 ∧
    tally (abandons "T") sim [.fire "T", .fire "T"] = 1 := by
  have hrun : (LiveNet.ofTree willing 0 (deserting 2)).2.map (fun live =>
      (Simulation.new live ⟨fun _ => 0, 0⟩ 0).toOption.map fun sim =>
        ((live.handlers.get? "T").isSome, tally (commits "T") sim [.fire "T", .fire "T"],
          tally (abandons "T") sim [.fire "T", .fire "T"])) = .ok (some (true, 1, 1)) := by
    decide +kernel
  obtain ⟨live, hlive, houtcome⟩ := map_eq_ok.1 hrun
  simp only [Option.map_eq_some_iff, toOption_eq_some, Prod.mk.injEq] at houtcome
  obtain ⟨sim, hnew, hsome, hmade, hgiven⟩ := houtcome
  obtain ⟨handler, hhandler⟩ := Option.isSome_iff_exists.1 hsome
  obtain ⟨later, hlater, hagreed, _⟩ := agreed_eq hnew hhandler [.fire "T", .fire "T"]
  have hfresh := LiveNet.agreed_of_ofTree hlive hhandler
  refine ⟨live, sim, handler, later, hnew, hhandler, hlater, hfresh, ?_, hmade, hgiven⟩
  rw [hagreed, hfresh, hmade, hgiven]

/-- A handler has agreed to a firing, and no firing was made. -/
theorem agreed_for_nothing : ∃ live sim, (LiveNet.ofTree willing 0 (deserting 1)).2 = .ok live ∧
    Simulation.new live ⟨fun _ => 0, 0⟩ 0 = .ok sim ∧
    ((sim.performAll [.fire "T"]).live.handlers.get? "T").map Handler.agreed = some 1 ∧
    tally (commits "T") sim [.fire "T"] = 0 := by
  have hrun : (LiveNet.ofTree willing 0 (deserting 1)).2.map (fun live =>
      (Simulation.new live ⟨fun _ => 0, 0⟩ 0).toOption.map fun sim =>
        (((sim.performAll [.fire "T"]).live.handlers.get? "T").map Handler.agreed,
          tally (commits "T") sim [.fire "T"])) = .ok (some (some 1, 0)) := by
    decide +kernel
  obtain ⟨live, hlive, houtcome⟩ := map_eq_ok.1 hrun
  simp only [Option.map_eq_some_iff, toOption_eq_some, Prod.mk.injEq] at houtcome
  obtain ⟨sim, hnew, hagreed, hmade⟩ := houtcome
  exact ⟨live, sim, hlive, hnew, Option.map_eq_some_iff.2 hagreed, hmade⟩

end Simulation

end PetriTree
