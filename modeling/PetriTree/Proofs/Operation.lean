import PetriTree.Proofs.Outcome
import PetriTree.Proofs.Schedule
import PetriTree.Simulation.Operation

/-!
# PetriTree — what operations leave behind

Operations are long chains: a firing asks what may fire, computes the marking that it leads to, asks the
handler, takes its transition out of the schedule and brings the schedule in step. Any link may refuse, and
the links before it have done their work then. Each operation is read here once, ending by ending, with the
whole simulation that each ending leaves. What is proved of operations elsewhere goes by these endings.

The link that matters most is the last one. A schedule follows to a marking when no test of a timed
transition fails there, and nobody looks at that before the marking is in place. A firing that comes to
nothing there is taken back, although its handler has agreed; a rewind is not.

Main results:
* `FlatNet.timed`, `resync_eq` — a schedule follows to a marking, or the marking refuses it;
* `Simulation.Offers`, `Simulation.Attempt`, `attempt_fire` — the four endings of a firing;
* `Simulation.Rewind`, `rewind_fireBackwards`, `Simulation.Undoing`, `undoing_undo` — those of the rewinds;
* `Simulation.Restart`, `restart_reset`, `new_eq_ok` — starting, anew and at all;
* `Simulation.Continues`, `continues_perform` — what no operation changes.
-/

namespace PetriTree

/-- The timed transitions that are enabled in a marking, each with its delay. -/
def FlatNet.timed (net : FlatNet) (m : Marking) : Except FiringError (List (String × UInt64)) :=
  LiveNet.enabledAmong net m (net.transitions.values.map FlatTransition.transition)

namespace Simulation

variable {sim after : Simulation}

/-! ## Following to a marking -/

/-- A marking with a schedule that was brought in step with it. -/
def follow (sim : Simulation) (m : Marking) (s : Schedule) (timed : List (String × UInt64)) : Simulation :=
  (sim.withMarking m).withSchedule (s.rebuild timed)

theorem resync_eq (sim : Simulation) : sim.resync =
    (sim.live.net.timed sim.marking).map (sim.follow sim.marking sim.live.schedule) := by
  unfold resync
  show (sim.live.net.timed sim.marking >>= fun timed => pure (sim.withSchedule _)) = _
  cases sim.live.net.timed sim.marking <;> rfl

theorem resync_eq_ok (h : sim.resync = .ok after) : ∃ s, after = sim.withSchedule s := by
  rw [resync_eq, map_eq_ok] at h
  obtain ⟨timed, _, rfl⟩ := h
  exact ⟨_, rfl⟩

/-- Does an operation leave the marking, the schedule and the history as they are? -/
structure Stays (sim after : Simulation) : Prop where
  marking : after.marking = sim.marking
  schedule : after.live.schedule = sim.live.schedule
  history : after.history = sim.history

/-! ## Firing -/

/-- Asking what may fire changes the cache only. -/
theorem enabled_fst (sim : Simulation) :
    sim.enabled.1 = { sim with cache := (sim.cache.candidates sim.live sim.marking).1 } := by
  unfold enabled
  split <;> rename_i h <;> rw [h]

/-- Asking a handler changes the handlers only. -/
theorem askHandler_fst (sim : Simulation) (transition : String) (after : Marking) :
    ∃ handlers, (sim.askHandler transition after).1 =
      { sim with live := { sim.live with handlers := handlers } } := by
  unfold askHandler
  split
  · exact ⟨sim.live.handlers, rfl⟩
  · dsimp only
    split <;> exact ⟨_, rfl⟩

/-- May a transition fire now, and does that lead to a marking? -/
structure Offers (sim : Simulation) (transition : String) (reached : Marking) : Prop where
  known : sim.live.net.transitions.contains transition = true
  listed : ∃ found, sim.enabled.2 = .ok found ∧ transition ∈ found
  leads : sim.live.net.fire sim.marking transition = .ok reached

/-- The handler's answer to a firing, and the simulation in which it was asked what may fire and told of it. -/
def told (sim : Simulation) (transition : String) (reached : Marking) : Simulation × Except FiringError Unit :=
  sim.enabled.1.askHandler transition reached

theorem told_fst (sim : Simulation) (transition : String) (reached : Marking) :
    ∃ handlers, (sim.told transition reached).1 =
      { sim with
        cache := (sim.cache.candidates sim.live sim.marking).1
        live := { sim.live with handlers := handlers } } := by
  obtain ⟨handlers, hasked⟩ := askHandler_fst sim.enabled.1 transition reached
  rw [told, hasked, enabled_fst]
  exact ⟨handlers, rfl⟩

/-- Whatever the handler answers, it has moved nothing. -/
theorem stays_told (sim : Simulation) (transition : String) (reached : Marking) :
    sim.Stays (sim.told transition reached).1 := by
  obtain ⟨handlers, htold⟩ := sim.told_fst transition reached
  rw [htold]
  exact ⟨rfl, rfl, rfl⟩

/-- The schedule that a firing leaves to be brought in step: a timed transition waits anew. -/
def left (sim : Simulation) (transition : String) : Schedule :=
  if sim.live.net.isTimed transition then sim.live.schedule.dequeue transition else sim.live.schedule

/-- The record of a firing. -/
def record (sim : Simulation) (transition : String) (reached : Marking) : Firing :=
  ⟨transition, sim.now, TokenChange.diff sim.marking reached⟩

theorem now_left (sim : Simulation) (transition : String) : (sim.left transition).now = sim.now := by
  unfold left
  split
  · exact Schedule.now_dequeue ..
  · rfl

/-- The simulation that a firing which was agreed to leaves to be brought in step. -/
theorem withSchedule_left (sim : Simulation) (transition : String) (reached : Marking) :
    (if sim.live.net.isTimed transition then
      (sim.withMarking reached).withSchedule (sim.live.schedule.dequeue transition)
      else sim.withMarking reached) = (sim.withMarking reached).withSchedule (sim.left transition) := by
  unfold left
  split <;> rfl

/-- A firing that was agreed to is given up when the schedule cannot follow. -/
theorem commit_of_error {transition : String} {reached : Marking} {e : FiringError}
    (h : sim.live.net.timed reached = .error e) : sim.commit transition reached = (sim, .error e) := by
  have hfired : ((sim.withMarking reached).withSchedule (sim.left transition)).resync = .error e := by
    rw [resync_eq, map_eq_error]
    exact h
  unfold commit
  dsimp only
  rw [sim.withSchedule_left, hfired]

/-- It is recorded otherwise. -/
theorem commit_of_ok {transition : String} {reached : Marking} {timed : List (String × UInt64)}
    (h : sim.live.net.timed reached = .ok timed) : sim.commit transition reached =
      ({ sim.follow reached (sim.left transition) timed with
        history := sim.history ++ [sim.record transition reached] }, .ok (sim.record transition reached)) := by
  have hfired : ((sim.withMarking reached).withSchedule (sim.left transition)).resync =
      .ok (sim.follow reached (sim.left transition) timed) := by
    rw [resync_eq, map_eq_ok]
    exact ⟨timed, h, rfl⟩
  -- the clock does not move while a firing is made
  have hnow : ((sim.left transition).rebuild timed).now = sim.now :=
    (Schedule.now_rebuild ..).trans (sim.now_left transition)
  unfold commit
  dsimp only
  rw [sim.withSchedule_left, hfired, record, ← hnow]
  rfl

/-- How a firing that was asked for ends: with the simulation that is left and the outcome. -/
inductive Attempt (sim : Simulation) (transition : String) : Simulation × Except FiringError Firing → Prop
  /-- Nobody was told, because the transition may not fire now or leads to no marking. -/
  | refused {cache : EnabledCache} (e : FiringError)
      (offers : ∀ reached, ¬ sim.Offers transition reached)
      (remembers : cache = sim.cache ∨ cache = (sim.cache.candidates sim.live sim.marking).1) :
      Attempt sim transition ({ sim with cache := cache }, .error e)
  /-- The handler refused. -/
  | declined {reached : Marking} {e : FiringError}
      (offers : sim.Offers transition reached)
      (answer : (sim.told transition reached).2 = .error e) :
      Attempt sim transition ((sim.told transition reached).1, .error e)
  /-- The handler agreed, but the schedule could not follow. -/
  | abandoned {reached : Marking} {e : FiringError}
      (offers : sim.Offers transition reached)
      (answer : (sim.told transition reached).2 = .ok ())
      (strands : sim.live.net.timed reached = .error e) :
      Attempt sim transition ((sim.told transition reached).1, .error e)
  /-- The firing was made and recorded. -/
  | made {reached : Marking} {timed : List (String × UInt64)}
      (offers : sim.Offers transition reached)
      (answer : (sim.told transition reached).2 = .ok ())
      (follows : sim.live.net.timed reached = .ok timed) :
      Attempt sim transition
        ({ (sim.told transition reached).1.follow reached (sim.left transition) timed with
          history := sim.history ++ [sim.record transition reached] }, .ok (sim.record transition reached))

/-- Once it is told, a firing ends as the handler and the schedule have it. -/
theorem attempt_told {transition : String} {reached : Marking} (h : sim.Offers transition reached) :
    sim.Attempt transition (match sim.told transition reached with
      | (told, .error e) => (told, .error e)
      | (told, .ok ()) => told.commit transition reached) := by
  obtain ⟨handlers, htold⟩ := sim.told_fst transition reached
  cases hanswer : (sim.told transition reached).2 with
  | error e =>
    have hcase : sim.told transition reached = ((sim.told transition reached).1, .error e) := Prod.ext rfl hanswer
    rw [hcase]
    exact .declined h hanswer
  | ok u =>
    cases u
    have hcase : sim.told transition reached = ((sim.told transition reached).1, .ok ()) := Prod.ext rfl hanswer
    rw [hcase]
    show sim.Attempt transition ((sim.told transition reached).1.commit transition reached)
    -- what the handler was told changes neither the net nor what is recorded
    have hnet : (sim.told transition reached).1.live.net = sim.live.net := by rw [htold]
    cases htimed : sim.live.net.timed reached with
    | error e =>
      rw [commit_of_error (hnet ▸ htimed)]
      exact .abandoned h hanswer htimed
    | ok timed =>
      rw [commit_of_ok (hnet ▸ htimed)]
      have hleft : (sim.told transition reached).1.left transition = sim.left transition := by rw [htold]; rfl
      have hrecord : (sim.told transition reached).1.record transition reached = sim.record transition reached := by
        rw [htold]
        rfl
      have hhistory : (sim.told transition reached).1.history = sim.history := by rw [htold]
      rw [hleft, hrecord, hhistory]
      exact .made h hanswer htimed

theorem attempt_fire (sim : Simulation) (transition : String) : sim.Attempt transition (sim.fire transition) := by
  unfold fire
  split
  · rename_i hunknown
    refine .refused _ ?_ (Or.inl rfl)
    intro reached hoffers
    simp [hoffers.known] at hunknown
  · rename_i hknown
    cases hanswer : sim.enabled.2 with
    | error e =>
      have hcase : sim.enabled = (sim.enabled.1, .error e) := Prod.ext rfl hanswer
      rw [hcase, enabled_fst]
      refine .refused e ?_ (Or.inr rfl)
      intro reached hoffers
      obtain ⟨found, hfound, _⟩ := hoffers.listed
      rw [hanswer] at hfound
      cases hfound
    | ok found =>
      have hcase : sim.enabled = (sim.enabled.1, .ok found) := Prod.ext rfl hanswer
      rw [hcase]
      dsimp only
      split
      · rename_i hunlisted
        rw [enabled_fst]
        refine .refused _ ?_ (Or.inr rfl)
        intro reached hoffers
        obtain ⟨listed, hlisted, hmem⟩ := hoffers.listed
        rw [hanswer] at hlisted
        cases hlisted
        exact hunlisted hmem
      · rename_i hlisted
        -- the marking that was asked about is the one that is held
        have hfire : sim.enabled.1.live.net.fire sim.enabled.1.marking transition =
            sim.live.net.fire sim.marking transition := by
          rw [enabled_fst]
          rfl
        rw [hfire]
        cases hreached : sim.live.net.fire sim.marking transition with
        | error e =>
          rw [enabled_fst]
          refine .refused e ?_ (Or.inr rfl)
          intro reached hoffers
          have hleads := hoffers.leads
          rw [hreached] at hleads
          cases hleads
        | ok reached =>
          exact attempt_told ⟨by simpa using hknown, ⟨found, hanswer, Classical.not_not.1 hlisted⟩, hreached⟩

/-! ## Rewinding -/

/-- Does firing a transition backwards lead to a marking? -/
structure Rewinds (sim : Simulation) (transition : String) (before : Marking) : Prop where
  known : sim.live.net.transitions.contains transition = true
  leads : sim.live.net.fireBackwards sim.marking transition = .ok before

/-- How a backward firing that was asked for ends. -/
inductive Rewind (sim : Simulation) (transition : String) : Simulation × Except FiringError Firing → Prop
  /-- There is no marking to go back to. -/
  | refused (e : FiringError) (rewinds : ∀ before, ¬ sim.Rewinds transition before) :
      Rewind sim transition (sim, .error e)
  /-- The schedule cannot follow, and the marking has moved. -/
  | stranded {before : Marking} {e : FiringError}
      (rewinds : sim.Rewinds transition before)
      (strands : sim.live.net.timed before = .error e) :
      Rewind sim transition (sim.withMarking before, .error e)
  | made {before : Marking} {timed : List (String × UInt64)}
      (rewinds : sim.Rewinds transition before)
      (follows : sim.live.net.timed before = .ok timed) :
      Rewind sim transition
        ({ sim.follow before sim.live.schedule timed with history := dropLast sim.history transition },
          .ok (sim.record transition before))

theorem rewind_fireBackwards (sim : Simulation) (transition : String) :
    sim.Rewind transition (sim.fireBackwards transition) := by
  unfold fireBackwards
  split
  · rename_i hunknown
    refine .refused _ ?_
    intro before hrewinds
    simp [hrewinds.known] at hunknown
  · rename_i hknown
    cases hbefore : sim.live.net.fireBackwards sim.marking transition with
    | error e =>
      refine .refused e ?_
      intro before hrewinds
      have hleads := hrewinds.leads
      rw [hbefore] at hleads
      cases hleads
    | ok before =>
      have hrewinds : sim.Rewinds transition before := ⟨by simpa using hknown, hbefore⟩
      dsimp only
      rw [resync_eq]
      cases htimed : sim.live.net.timed before with
      | error e =>
        have hcase : (sim.withMarking before).live.net.timed (sim.withMarking before).marking = .error e := htimed
        rw [hcase]
        exact .stranded hrewinds htimed
      | ok timed =>
        have hcase : (sim.withMarking before).live.net.timed (sim.withMarking before).marking = .ok timed := htimed
        rw [hcase]
        have hnow : (sim.live.schedule.rebuild timed).now = sim.now := Schedule.now_rebuild ..
        have hmade := Rewind.made hrewinds htimed
        rw [record, ← hnow] at hmade
        exact hmade

/-- The simulation with its last firing taken back, its schedule left alone. -/
def unwound (sim : Simulation) (last : Firing) : Simulation :=
  { sim.withMarking (restore sim.marking last.changes) with history := sim.history.dropLast }

/-- How taking the last firing back ends. -/
inductive Undoing (sim : Simulation) : Simulation × Except FiringError (Option Firing) → Prop
  /-- Nothing was fired. -/
  | idle (history : sim.history = []) : Undoing sim (sim, .ok none)
  /-- The schedule cannot follow, the marking has moved, and the record is gone. -/
  | stranded {last : Firing} {e : FiringError}
      (recorded : sim.history.getLast? = some last)
      (strands : sim.live.net.timed (restore sim.marking last.changes) = .error e) :
      Undoing sim (sim.unwound last, .error e)
  | made {last : Firing} {timed : List (String × UInt64)}
      (recorded : sim.history.getLast? = some last)
      (follows : sim.live.net.timed (restore sim.marking last.changes) = .ok timed) :
      Undoing sim ((sim.unwound last).withSchedule (sim.live.schedule.rebuild timed), .ok (some last))

theorem undoing_undo (sim : Simulation) : sim.Undoing sim.undo := by
  unfold undo
  split
  · rename_i hnone
    exact .idle (List.getLast?_eq_none_iff.1 hnone)
  · rename_i last hlast
    dsimp only
    rw [← unwound, resync_eq]
    cases htimed : sim.live.net.timed (restore sim.marking last.changes) with
    | error e =>
      have hcase : (sim.unwound last).live.net.timed (sim.unwound last).marking = .error e := htimed
      rw [hcase]
      exact .stranded hlast htimed
    | ok timed =>
      have hcase : (sim.unwound last).live.net.timed (sim.unwound last).marking = .ok timed := htimed
      rw [hcase]
      exact .made hlast htimed

/-! ## Starting anew -/

/-- How a reset that was asked for ends. -/
inductive Restart (sim : Simulation) : Simulation × Except FiringError Unit → Prop
  /-- The schedule cannot follow, and the marking and the history are the initial ones. -/
  | stranded {e : FiringError} (strands : sim.live.net.timed sim.live.net.initial = .error e) :
      Restart sim ({ sim.withMarking sim.live.net.initial with history := [] }, .error e)
  | made {timed : List (String × UInt64)} (follows : sim.live.net.timed sim.live.net.initial = .ok timed) :
      Restart sim
        ({ (sim.withMarking sim.live.net.initial).withSchedule (Schedule.reset sim.startTime timed) with
          history := [] }, .ok ())

theorem resetTiming_eq (live : LiveNet) (now : UInt64) : live.resetTiming now =
    (live.net.timed live.marking).map fun timed => { live with schedule := Schedule.reset now timed } := by
  show (live.net.timed live.marking >>= fun timed => pure _) = _
  cases live.net.timed live.marking <;> rfl

theorem restart_reset (sim : Simulation) : sim.Restart sim.reset := by
  unfold reset
  dsimp only
  rw [resetTiming_eq]
  cases htimed : sim.live.net.timed sim.live.net.initial with
  | error e =>
    have hcase : (sim.withMarking sim.live.net.initial).live.net.timed
        (sim.withMarking sim.live.net.initial).live.marking = .error e := htimed
    rw [hcase]
    exact .stranded htimed
  | ok timed =>
    have hcase : (sim.withMarking sim.live.net.initial).live.net.timed
        (sim.withMarking sim.live.net.initial).live.marking = .ok timed := htimed
    rw [hcase]
    exact .made htimed

/-- A simulation starts when the schedule can follow to the initial marking. -/
theorem new_eq_ok {live : LiveNet} {chance : Chance} {startTime : UInt64} :
    Simulation.new live chance startTime = .ok sim ↔ ∃ timed, live.net.timed live.net.initial = .ok timed ∧
      sim = ⟨{ live with marking := live.net.initial, schedule := Schedule.reset startTime timed },
        EnabledCache.empty, chance, startTime, []⟩ := by
  have hrestart := restart_reset ⟨live, EnabledCache.empty, chance, startTime, []⟩
  unfold Simulation.new
  generalize reset _ = outcome at hrestart ⊢
  cases hrestart with
  | @stranded e hstrands =>
    replace hstrands : live.net.timed live.net.initial = .error e := hstrands
    simp [hstrands]
  | @made timed hfollows =>
    replace hfollows : live.net.timed live.net.initial = .ok timed := hfollows
    simp only [hfollows, Except.ok.injEq, exists_eq_left', eq_comm (b := sim)]
    rfl

/-! ## What no operation changes -/

/-- The structure stays, and of the cache no more is changed than a question does. -/
structure Continues (sim after : Simulation) : Prop where
  net : after.live.net = sim.live.net
  stamp : after.live.stamp = sim.live.stamp
  cache : after.cache = sim.cache ∨ after.cache = (sim.cache.candidates sim.live sim.marking).1

theorem Continues.refl (sim : Simulation) : sim.Continues sim := ⟨rfl, rfl, Or.inl rfl⟩

theorem continues_fire (sim : Simulation) (transition : String) : sim.Continues (sim.fire transition).1 := by
  have htold : ∀ reached, sim.Continues (sim.told transition reached).1 := by
    intro reached
    obtain ⟨handlers, htold⟩ := sim.told_fst transition reached
    rw [htold]
    exact ⟨rfl, rfl, Or.inr rfl⟩
  have hattempt := sim.attempt_fire transition
  generalize sim.fire transition = outcome at hattempt
  cases hattempt with
  | refused e _ hcache => exact ⟨rfl, rfl, hcache⟩
  | @declined reached e _ _ => exact htold reached
  | @abandoned reached e _ _ _ => exact htold reached
  | @made reached timed _ _ _ => exact ⟨(htold reached).net, (htold reached).stamp, (htold reached).cache⟩

theorem continues_perform (sim : Simulation) (operation : Operation) :
    sim.Continues (sim.perform operation).1 := by
  have hsame : ∀ after : Simulation, after.live.net = sim.live.net → after.live.stamp = sim.live.stamp →
      after.cache = sim.cache → sim.Continues after :=
    fun after hnet hstamp hcache => ⟨hnet, hstamp, Or.inl hcache⟩
  cases operation with
  | fire transition => exact sim.continues_fire transition
  | fireBackwards transition =>
    show sim.Continues (sim.fireBackwards transition).1
    have hrewind := sim.rewind_fireBackwards transition
    generalize sim.fireBackwards transition = outcome at hrewind ⊢
    cases hrewind <;> exact hsame _ rfl rfl rfl
  | undo =>
    show sim.Continues sim.undo.1
    have hundoing := sim.undoing_undo
    generalize sim.undo = outcome at hundoing ⊢
    cases hundoing <;> exact hsame _ rfl rfl rfl
  | reset =>
    show sim.Continues sim.reset.1
    have hrestart := sim.restart_reset
    generalize sim.reset = outcome at hrestart ⊢
    cases hrestart <;> exact hsame _ rfl rfl rfl
  | resync =>
    dsimp only [perform]
    split
    · exact .refl sim
    · rename_i after hafter
      obtain ⟨s, rfl⟩ := resync_eq_ok hafter
      exact hsame _ rfl rfl rfl
  | advance time => exact hsame _ rfl rfl rfl

/-- Whatever is done, the net stays the same. -/
theorem net_performAll (sim : Simulation) (operations : List Operation) :
    (sim.performAll operations).live.net = sim.live.net := by
  induction operations generalizing sim with
  | nil => rfl
  | cons operation rest ih => exact (ih _).trans (sim.continues_perform operation).net

end Simulation

end PetriTree
