import PetriTree.Proofs.InStep
import PetriTree.Proofs.Undo

/-!
# PetriTree — rewinds that are refused

Three operations move the marking and then bring the schedule in step, and that may fail: whether a timed
transition is enabled depends on weights, and a weight may have no value in the marking that was reached. A
firing is taken back in this case, with marking and schedule as they were. The two rewinds are not. What
they leave is said here exactly, for everything that can be done to a simulation.

A refused backward firing leaves everything as it was when there was no marking to go back to. Otherwise the
marking has moved, and the schedule and the history have not. A refused undoing has moved the marking and lost
the record as well, so that trying again takes another firing back. From either marking nothing can be fired,
since the question what may fire meets the same weight. Starting anew is the one way out that is always open.

An undoing is refused only when something was fired backwards before: other runs hold the markings of their
histories, to all of which the schedule could follow once.

Main results:
* `Simulation.Stranded`, `stranded_of_timed` — where the schedule cannot follow, nothing fires;
* `Simulation.rewind_strands` — what a refused rewind leaves;
* `Simulation.rewind_loses` — that need not be what was there before;
* `Simulation.inStep_of_forward` — without backward firings the schedule is in step all the time.
-/

namespace PetriTree

/-! ## Asking for timed transitions only -/

/-- When every transition can be asked, the timed ones can. -/
theorem LiveNet.enabledAmong_of_enabledOf {net : FlatNet} {m : Marking} {ts enabled : List Transition}
    (h : net.enabledOf m ts = .ok enabled) : ∃ timed, enabledAmong net m ts = .ok timed := by
  induction ts generalizing enabled with
  | nil => exact ⟨[], rfl⟩
  | cons t rest ih =>
    rw [FlatNet.enabledOf, bind_eq_ok] at h
    obtain ⟨b, hb, h⟩ := h
    -- the others can be asked whether or not this one is enabled
    have hrest : ∃ timed, enabledAmong net m rest = .ok timed := by
      cases b with
      | false => exact ih h
      | true =>
        obtain ⟨others, hothers, _⟩ := bind_eq_ok.1 h
        exact ih hothers
    obtain ⟨timed, htimed⟩ := hrest
    rw [enabledAmong, hb, htimed]
    split
    · exact ⟨timed, rfl⟩
    · cases b with
      | false => exact ⟨timed, rfl⟩
      | true => exact ⟨(t.id, t.delay) :: timed, rfl⟩

theorem FlatNet.timed_of_candidates {net : FlatNet} {m : Marking} {found : SortedSet String}
    (h : net.candidates m = .ok found) : ∃ timed, net.timed m = .ok timed := by
  rw [FlatNet.candidates, bind_eq_ok] at h
  obtain ⟨enabled, henabled, _⟩ := h
  exact LiveNet.enabledAmong_of_enabledOf henabled

namespace Simulation

variable {sim : Simulation}

/-! ## Where the schedule cannot follow -/

/-- Is a simulation in a marking to which its schedule cannot follow? Nothing can be fired there, but it can
be started anew. -/
structure Stranded (sim : Simulation) : Prop where
  strands : ∃ e, sim.live.net.timed sim.marking = .error e
  silent : ∀ t, ∃ e, (sim.fire t).2 = .error e
  recovers : sim.reset.2 = .ok ()

/-- Starting anew is refused only when the schedule cannot follow to the initial marking. -/
theorem reset_of_timed {timed : List (String × UInt64)}
    (h : sim.live.net.timed sim.live.net.initial = .ok timed) : sim.reset.2 = .ok () := by
  have hrestart := sim.restart_reset
  generalize sim.reset = outcome at hrestart ⊢
  cases hrestart with
  | stranded hstrands =>
    rw [hstrands] at h
    cases h
  | made => rfl

theorem stranded_of_timed (htrusted : sim.cache.Trusted sim.live)
    (hinitial : ∃ timed, sim.live.net.timed sim.live.net.initial = .ok timed) {e : FiringError}
    (h : sim.live.net.timed sim.marking = .error e) : sim.Stranded where
  strands := ⟨e, h⟩
  silent t := by
    have hattempt := sim.attempt_fire t
    generalize sim.fire t = outcome at hattempt ⊢
    cases hattempt with
    | refused e => exact ⟨e, rfl⟩
    | @declined _ e => exact ⟨e, rfl⟩
    | @abandoned _ e => exact ⟨e, rfl⟩
    | made hoffers =>
      -- what may fire is known only when the timed transitions could be asked
      obtain ⟨⟨_, hcandidates, _⟩, _⟩ := hoffers.fires htrusted
      obtain ⟨timed, htimed⟩ := FlatNet.timed_of_candidates hcandidates
      rw [h] at htimed
      cases htimed
  recovers := by
    obtain ⟨timed, htimed⟩ := hinitial
    exact reset_of_timed htimed

/-! ## Refused rewinds -/

/-- A backward firing that is refused was not possible, or it has moved the marking. -/
theorem left_of_fireBackwards (htrusted : sim.cache.Trusted sim.live)
    (hinitial : ∃ timed, sim.live.net.timed sim.live.net.initial = .ok timed) {t : String} {e : FiringError}
    (h : (sim.fireBackwards t).2 = .error e) :
    ((∀ before, ¬ sim.Rewinds t before) ∧ (sim.fireBackwards t).1 = sim) ∨
      ∃ before, sim.Rewinds t before ∧ (sim.fireBackwards t).1 = sim.withMarking before ∧
        (sim.withMarking before).Stranded := by
  have hrewind := sim.rewind_fireBackwards t
  generalize sim.fireBackwards t = outcome at h hrewind ⊢
  cases hrewind with
  | refused _ hnone => exact Or.inl ⟨hnone, rfl⟩
  | @stranded before _ hrewinds hstrands =>
    have hmoved : (sim.withMarking before).cache.Trusted (sim.withMarking before).live :=
      trusted_of_same htrusted rfl rfl
    exact Or.inr ⟨before, hrewinds, rfl, stranded_of_timed hmoved hinitial hstrands⟩
  | made => cases h

/-- An undoing that is refused has moved the marking, and the record is gone. -/
theorem left_of_undo (htrusted : sim.cache.Trusted sim.live)
    (hinitial : ∃ timed, sim.live.net.timed sim.live.net.initial = .ok timed) {e : FiringError}
    (h : sim.undo.2 = .error e) : ∃ firing, sim.history.getLast? = some firing ∧
      sim.undo.1 = sim.unwound firing ∧ (sim.unwound firing).Stranded := by
  have hundoing := sim.undoing_undo
  generalize sim.undo = outcome at h hundoing ⊢
  cases hundoing with
  | idle => cases h
  | @stranded firing _ hlast hstrands =>
    have hmoved : (sim.unwound firing).cache.Trusted (sim.unwound firing).live :=
      trusted_of_same htrusted rfl rfl
    exact ⟨firing, hlast, rfl, stranded_of_timed hmoved hinitial hstrands⟩
  | made => cases h

/-- A refused backward firing leaves everything, when there is no marking to go back to, or has moved the
marking to one where the simulation is stranded. A refused undoing has moved the marking to such a one and
lost the record, and that happens only after a backward firing. -/
theorem rewind_strands {live : LiveNet} (hnet : live.net.Served) {chance : Chance} {startTime : UInt64}
    (hnew : Simulation.new live chance startTime = .ok sim) (operations : List Operation) :
    let last := sim.performAll operations
    (∀ t e, (last.fireBackwards t).2 = .error e →
      ((∀ before, ¬ last.Rewinds t before) ∧ (last.fireBackwards t).1 = last) ∨
        ∃ before, last.Rewinds t before ∧ (last.fireBackwards t).1 = last.withMarking before ∧
          (last.withMarking before).Stranded) ∧
    (∀ e, last.undo.2 = .error e → ∃ firing, last.history.getLast? = some firing ∧
      last.undo.1 = last.unwound firing ∧ (last.unwound firing).Stranded ∧
        ∃ operation ∈ operations, operation.isForward = false) := by
  intro last
  have htrusted : last.cache.Trusted last.live := trusted_performAll (Tracks.new hnew).trusted operations
  have hinitial : ∃ timed, last.live.net.timed last.live.net.initial = .ok timed := by
    obtain ⟨timed, htimed, rfl⟩ := new_eq_ok.1 hnew
    exact ⟨timed, (net_performAll _ operations).symm ▸ htimed⟩
  refine ⟨fun t e he => left_of_fireBackwards htrusted hinitial he, fun e he => ?_⟩
  obtain ⟨firing, hlast, hleft, hstranded⟩ := left_of_undo htrusted hinitial he
  refine ⟨firing, hlast, hleft, hstranded, ?_⟩
  -- without a backward firing the undoing is not refused
  by_contra hnone
  have hforward : ∀ operation ∈ operations, operation.isForward = true := by
    intro operation hoperation
    by_contra hback
    exact hnone ⟨operation, hoperation, Bool.eq_false_iff.2 hback⟩
  obtain ⟨held, hstands⟩ := (Stands.new hnet hnew).performAll hforward
  rw [hstands.undo.2.2] at he
  cases he

/-! ## What is lost -/

/-- A timed transition asks for its share of the tokens, which is one divided by their number. Two others
only give tokens. -/
def sharing : IncludeTree := Sample.single
  [Sample.place "P" 0, Sample.place "Q" 1, Sample.transition "B" Rate.one, Sample.transition "C" Rate.one,
    .transition ⟨"X", 1, .timed, Rate.one, 5, none⟩,
    Sample.arc "a" "P" "B" .transitionToPlace "1", Sample.arc "b" "Q" "C" .transitionToPlace "1",
    Sample.arc "c" "P" "X" .placeToTransition "1 / (#(P) + #(Q))"]

/-- The simulation after two firings, a forward and a backward one, both carried out. -/
def shared (sim : Simulation) : Simulation := sim.performAll [.fire "B", .fireBackwards "C"]

/-- Rewinds of this net are refused, with a token less afterwards, and an undoing with a record less. -/
theorem refused_sharing : ∃ live sim, (LiveNet.ofTree Registry.empty 0 sharing).2 = .ok live ∧
    Simulation.new live ⟨fun _ => 0, 0⟩ 0 = .ok sim ∧
    ((∃ e, (sim.fireBackwards "C").2 = .error e) ∧ sim.marking.tokens "Q" defaultColor = Count.ofNat 1 ∧
      (sim.fireBackwards "C").1.marking.tokens "Q" defaultColor = Count.zero) ∧
    ((∃ e, (shared sim).undo.2 = .error e) ∧ (shared sim).marking.tokens "P" defaultColor = Count.ofNat 1 ∧
      (shared sim).undo.1.marking.tokens "P" defaultColor = Count.zero ∧
      (shared sim).history.length = 1 ∧ (shared sim).undo.1.history.length = 0) := by
  have hrun : (LiveNet.ofTree Registry.empty 0 sharing).2.map (fun live =>
      (Simulation.new live ⟨fun _ => 0, 0⟩ 0).toOption.map fun sim =>
        let back := sim.fireBackwards "C"
        let undone := (shared sim).undo
        ([back.2.toOption.isSome, undone.2.toOption.isSome],
          [sim.marking.tokens "Q" defaultColor, back.1.marking.tokens "Q" defaultColor,
            (shared sim).marking.tokens "P" defaultColor, undone.1.marking.tokens "P" defaultColor],
          [(shared sim).history.length, undone.1.history.length])) =
      .ok (some ([false, false], [Count.ofNat 1, Count.zero, Count.ofNat 1, Count.zero], [1, 0])) := by
    decide +kernel
  obtain ⟨live, hlive, houtcome⟩ := map_eq_ok.1 hrun
  simp only [Option.map_eq_some_iff, toOption_eq_some, Prod.mk.injEq, List.cons.injEq, and_true] at houtcome
  obtain ⟨sim, hnew, ⟨hback, hundo⟩, ⟨hbefore, hafter, hheld, hleft⟩, hone, hnone⟩ := houtcome
  have hfails : ∀ {α : Type} {x : Except FiringError α}, x.toOption.isSome = false → ∃ e, x = .error e := by
    intro α x hnone
    cases x with
    | error e => exact ⟨e, rfl⟩
    | ok a => cases hnone
  exact ⟨live, sim, hlive, hnew, ⟨hfails hback, hbefore, hafter⟩, hfails hundo, hheld, hleft, hone, hnone⟩

/-- There is a token less than before a backward firing was refused, and a token and a record less than
before an undoing was refused. -/
theorem rewind_loses : ∃ live sim, (LiveNet.ofTree Registry.empty 0 sharing).2 = .ok live ∧
    Simulation.new live ⟨fun _ => 0, 0⟩ 0 = .ok sim ∧
    (∃ e, (sim.fireBackwards "C").2 = .error e ∧ (sim.fireBackwards "C").1.marking ≠ sim.marking) ∧
    (∃ e, (shared sim).undo.2 = .error e ∧ (shared sim).undo.1.marking ≠ (shared sim).marking ∧
      (shared sim).undo.1.history ≠ (shared sim).history) := by
  obtain ⟨live, sim, hlive, hnew, ⟨⟨e, hback⟩, hbefore, hafter⟩, ⟨e', hundo⟩, hheld, hleft, hone, hnone⟩ :=
    refused_sharing
  refine ⟨live, sim, hlive, hnew, ⟨e, hback, fun hsame => ?_⟩, e', hundo, fun hsame => ?_, fun hsame => ?_⟩
  · rw [hsame, hbefore] at hafter
    exact absurd hafter (by decide)
  · rw [hsame, hheld] at hleft
    exact absurd hleft (by decide)
  · rw [hsame, hone] at hnone
    cases hnone

/-- Both rewinds leave the simulation stranded. -/
theorem rewind_strands_sharing : ∃ live sim, FlatNet.Served live.net ∧
    Simulation.new live ⟨fun _ => 0, 0⟩ 0 = .ok sim ∧
    (∃ e, (sim.fireBackwards "C").2 = .error e) ∧ (sim.fireBackwards "C").1.Stranded ∧
    (∃ e, (shared sim).undo.2 = .error e) ∧ (shared sim).undo.1.Stranded := by
  obtain ⟨live, sim, hlive, hnew, ⟨⟨e, hback⟩, hbefore, hafter⟩, ⟨e', hundo⟩, _⟩ := refused_sharing
  have hserved : FlatNet.Served live.net := .ofTree (LiveNet.net_of_ofTree hlive)
  obtain ⟨hbackward, _⟩ := rewind_strands hserved hnew []
  obtain ⟨_, hundoing⟩ := rewind_strands hserved hnew [.fire "B", .fireBackwards "C"]
  refine ⟨live, sim, hserved, hnew, ⟨e, hback⟩, ?_, ⟨e', hundo⟩, ?_⟩
  · rcases hbackward "C" e hback with ⟨_, hsame⟩ | ⟨before, _, hmoved, hstranded⟩
    · -- the marking did move
      replace hsame : (sim.fireBackwards "C").1 = sim := hsame
      rw [hsame, hbefore] at hafter
      exact absurd hafter (by decide)
    · exact (hmoved : (sim.fireBackwards "C").1 = _) ▸ hstranded
  · obtain ⟨firing, _, hmoved, hstranded, _⟩ := hundoing e' hundo
    exact (hmoved : (shared sim).undo.1 = _) ▸ hstranded

/-! ## Runs without backward firings -/

/-- Without a backward firing no operation is refused halfway. -/
theorem Stands.orderly {net : FlatNet} {held : Nat → Marking} (h : Stands net held sim) {operations : List Operation}
    (hforward : ∀ operation ∈ operations, operation.isForward = true) : sim.Orderly operations := by
  -- induction on the run, from its start on
  induction operations generalizing sim held with
  | nil => trivial
  | cons operation rest ih =>
    have hfirst := hforward operation (List.mem_cons_self ..)
    obtain ⟨held', hstep⟩ := h.perform hfirst
    refine ⟨?_, ih hstep fun later hlater => hforward later (List.mem_cons_of_mem _ hlater)⟩
    cases operation with
    | fire t =>
      cases hanswer : (sim.fire t).2 with
      | error e => exact Or.inr (stays_of_fire hanswer)
      | ok firing => exact Or.inl ⟨some firing, map_eq_ok.2 ⟨firing, hanswer, rfl⟩⟩
    | fireBackwards t => cases hfirst
    | undo => exact Or.inl ⟨_, h.undo.2.2⟩
    | reset =>
      -- the schedule followed to the initial marking when the run started
      obtain ⟨timed, htimed⟩ := h.follows 0 (Nat.zero_le _)
      rw [h.traces.initial, ← h.runs] at htimed
      refine Or.inl ⟨none, map_eq_ok.2 ⟨(), ?_, rfl⟩⟩
      exact reset_of_timed htimed
    | resync =>
      dsimp only [Simulation.perform]
      split
      · exact Or.inr ⟨rfl, rfl, rfl⟩
      · exact Or.inl ⟨none, rfl⟩
    | advance time => exact Or.inl ⟨none, rfl⟩

/-- Without a backward firing the schedule is in step with the marking all the time. -/
theorem inStep_of_forward {live : LiveNet} (hnet : live.net.Served) {chance : Chance} {startTime : UInt64}
    (hnew : Simulation.new live chance startTime = .ok sim) {operations : List Operation}
    (hforward : ∀ operation ∈ operations, operation.isForward = true) : (sim.performAll operations).InStep := by
  have hstarts := Run.starts_new hnew
  have hkeyed : sim.live.net.Keyed := hstarts.net ▸ hnet.keyed
  exact (hstarts.inStep hnet.keyed).performAll hkeyed ((Stands.new hnet hnew).orderly hforward)

end Simulation

end PetriTree
