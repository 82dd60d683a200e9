import PetriTree.Proofs.Simulation

/-!
# PetriTree — no timed transition fires early

A timed transition fires when the schedule says that it is due, and the schedule says so from the time on
that it was given when the transition was queued. Between the two the marking changes, transitions are
disabled and enabled again, delays are changed, and the clock goes forward or, when the simulation is
reset, back to its start. That a transition has waited is a statement about all these steps and not about
the schedule alone, so runs are kept here with everything they went through.

The invariant is that each queued transition can be followed back to the step that queued it, and that it
was enabled and did not fire ever since: a step that changes the marking drops from the schedule what it
disables, and what fires is queued anew.

Main results:
* `Simulation.Moves`, `moves_fire` — what an operation that is not refused does to marking and schedule;
* `Step.cases` — the same for any step, as far as the schedule is concerned;
* `Run.kept` — every queued transition has waited since it was queued, and histories are in order;
* `Run.never_early` — what fires has waited for its delay.
-/

namespace PetriTree

/-! ## Transitions and their delays -/

namespace FlatNet

variable {net after : FlatNet}

/-- The nets that trees are joined into, whatever delays their transitions were given since. -/
inductive Served : FlatNet → Prop
  | ofTree {tree : IncludeTree} {net : FlatNet} : FlatNet.ofTree tree = .ok net → Served net
  | setDelay {net after : FlatNet} {transition : String} {delay : UInt64} : Served net →
      net.setDelay transition delay = .ok after → Served after

/-- Transitions are filed under their ids. -/
def Keyed (net : FlatNet) : Prop := ∀ id t, net.transitions.get? id = some t → t.transition.id = id

/-- The delay of a transition. -/
def delay? (net : FlatNet) (id : String) : Option UInt64 :=
  (net.transitions.get? id).map fun t => t.transition.delay

/-- A delay is all that changes, and for one transition. -/
theorem get?_setDelay {transition : String} {delay : UInt64} (h : net.setDelay transition delay = .ok after)
    (id : String) : after.transitions.get? id = if transition = id then
      (net.transitions.get? id).map fun t => { t with transition := { t.transition with delay := delay } }
      else net.transitions.get? id := by
  rw [FlatNet.setDelay, bind_eq_ok] at h
  obtain ⟨_, _, h⟩ := h
  cases h
  exact Table.get?_modify ..

theorem Keyed.setDelay (hkeyed : net.Keyed) {transition : String} {delay : UInt64}
    (h : net.setDelay transition delay = .ok after) : after.Keyed := by
  intro id t ht
  rw [get?_setDelay h] at ht
  split at ht
  · obtain ⟨before, hbefore, rfl⟩ := Option.map_eq_some_iff.1 ht
    exact hkeyed id before hbefore
  · exact hkeyed id t ht

theorem Served.keyed (h : net.Served) : net.Keyed := by
  induction h with
  | ofTree htree => exact fun id t ht => transition_id htree (id, t) (Table.get?_eq_some_iff.1 ht)
  | setDelay _ hdelay ih => exact ih.setDelay hdelay

/-- The enabling test does not look at delays. -/
theorem isEnabled_setDelay {transition : String} {delay : UInt64}
    (h : net.setDelay transition delay = .ok after) (m : Marking) (id : String) :
    after.isEnabled m id = net.isEnabled m id := by
  have hknown : after.transitions.contains id = net.transitions.contains id := by
    rw [Table.contains, Table.contains, get?_setDelay h]
    split
    · rw [Option.isSome_map]
    · rfl
  have halike : net.Alike after := by
    rw [FlatNet.setDelay, bind_eq_ok] at h
    obtain ⟨_, _, h⟩ := h
    cases h
    exact ⟨rfl, rfl, rfl⟩
  exact halike.isEnabled hknown

end FlatNet

namespace LiveNet

/-- What is listed is timed and enabled, and comes with its delay. -/
theorem mem_enabledAmong {net : FlatNet} {m : Marking} {ts : List Transition} {timed : List (String × UInt64)}
    (h : enabledAmong net m ts = .ok timed) {e : String × UInt64} (he : e ∈ timed) :
    ∃ t ∈ ts, t.kind.isTimed = true ∧ net.isEnabled m t.id = .ok true ∧ e = (t.id, t.delay) := by
  induction ts generalizing timed with
  | nil =>
    cases h
    cases he
  | cons t rest ih =>
    -- found further down the list
    have hrest : ∀ {others}, enabledAmong net m rest = .ok others → e ∈ others →
        ∃ u ∈ t :: rest, u.kind.isTimed = true ∧ net.isEnabled m u.id = .ok true ∧ e = (u.id, u.delay) := by
      intro others hothers hmem
      obtain ⟨u, hu, hfound⟩ := ih hothers hmem
      exact ⟨u, List.mem_cons_of_mem _ hu, hfound⟩
    rw [enabledAmong] at h
    split at h
    · exact hrest h he
    · rename_i hkind
      obtain ⟨b, htest, h⟩ := bind_eq_ok.1 h
      cases b with
      | false => exact hrest h he
      | true =>
        obtain ⟨others, hothers, h⟩ := bind_eq_ok.1 h
        cases h
        rcases List.mem_cons.1 he with rfl | hmem
        · exact ⟨t, List.mem_cons_self .., by simpa using hkind, htest, rfl⟩
        · exact hrest hothers hmem

end LiveNet

/-- What is queued when the schedule follows to a marking. -/
theorem FlatNet.of_lookup_timed {net : FlatNet} {m : Marking} (hkeyed : net.Keyed)
    {timed : List (String × UInt64)} (h : net.timed m = .ok timed) {id : String} {delay : UInt64}
    (hlookup : timed.lookup id = some delay) :
    net.isEnabled m id = .ok true ∧ net.isTimed id = true ∧ net.delay? id = some delay := by
  rw [Table.lookup_eq] at hlookup
  obtain ⟨t, ht, htimed, htest, heq⟩ := LiveNet.mem_enabledAmong h (Table.mem_of_lookup hlookup)
  obtain ⟨flat, hflat, rfl⟩ := List.mem_map.1 ht
  obtain ⟨⟨key, _⟩, hentry, rfl⟩ := List.mem_map.1 hflat
  have hkey := Table.get?_eq_some_iff.2 hentry
  obtain ⟨rfl, rfl⟩ := Prod.mk.inj heq
  -- the id under which it is listed is the one it is filed under
  rw [hkeyed key _ hkey] at htest ⊢
  exact ⟨htest, by simp [FlatNet.isTimed, hkey, htimed], by simp [FlatNet.delay?, hkey]⟩

namespace Simulation

variable {sim after : Simulation}

/-! ## Operations that are not refused -/

/-- The simulation has come from another one, and its schedule is what `s` becomes when it is brought in
step with the marking. -/
structure Moves (sim : Simulation) (s : Schedule) (after : Simulation) : Prop where
  net : after.live.net = sim.live.net
  startTime : after.startTime = sim.startTime
  follows : ∃ timed, after.live.enabledTimed = .ok timed ∧ after.live.schedule = s.rebuild timed

theorem Moves.now {s : Schedule} (h : sim.Moves s after) : after.now = s.now := by
  obtain ⟨timed, _, hschedule⟩ := h.follows
  rw [Simulation.now, hschedule, Schedule.now_rebuild]

theorem moves_resync (h : sim.resync = .ok after) :
    sim.Moves sim.live.schedule after ∧ after.history = sim.history := by
  rw [resync_eq, map_eq_ok] at h
  obtain ⟨timed, htimed, rfl⟩ := h
  exact ⟨⟨rfl, rfl, timed, htimed, rfl⟩, rfl⟩

/-- What is offered is allowed by the clock. -/
theorem Offers.mayFireNow {transition : String} {reached : Marking} (h : sim.Offers transition reached) :
    sim.live.mayFireNow transition = true := by
  obtain ⟨found, hfound, hmem⟩ := h.listed
  unfold enabled at hfound
  split at hfound
  · cases hfound
  · cases hfound
    rw [SortedSet.mem_ofList, List.mem_filter] at hmem
    exact hmem.2

/-- A firing that is made was offered. -/
theorem moves_fire {transition : String} {firing : Firing} (h : sim.fire transition = (after, .ok firing)) :
    (∃ reached, sim.Offers transition reached) ∧ sim.Moves (sim.left transition) after ∧
      after.history = sim.history ++ [firing] ∧ firing.time = after.now := by
  have hattempt := sim.attempt_fire transition
  rw [h] at hattempt
  cases hattempt with
  | @made reached timed hoffers _ hfollows =>
    obtain ⟨handlers, htold⟩ := sim.told_fst transition reached
    -- what was asked and told is neither net nor schedule
    have hmoves : sim.Moves (sim.left transition)
        { (sim.told transition reached).1.follow reached (sim.left transition) timed with
          history := sim.history ++ [sim.record transition reached] } := by
      rw [htold]
      exact ⟨rfl, rfl, timed, hfollows, rfl⟩
    exact ⟨⟨reached, hoffers⟩, hmoves, rfl, (hmoves.now.trans (sim.now_left transition)).symm⟩

theorem dropLast_sublist (history : List Firing) (transition : String) :
    (dropLast history transition).Sublist history := by
  unfold dropLast
  split
  · exact List.dropLast_sublist history
  · exact List.Sublist.refl history

theorem moves_fireBackwards {transition : String} {firing : Firing}
    (h : sim.fireBackwards transition = (after, .ok firing)) :
    sim.Moves sim.live.schedule after ∧ after.history.Sublist sim.history := by
  have hrewind := sim.rewind_fireBackwards transition
  rw [h] at hrewind
  cases hrewind with
  | @made before timed _ hfollows => exact ⟨⟨rfl, rfl, timed, hfollows, rfl⟩, dropLast_sublist ..⟩

/-- Without a firing to take back nothing happens. -/
theorem moves_undo {firing : Option Firing} (h : sim.undo = (after, .ok firing)) :
    after = sim ∨ sim.Moves sim.live.schedule after ∧ after.history.Sublist sim.history := by
  have hundoing := sim.undoing_undo
  rw [h] at hundoing
  cases hundoing with
  | idle => exact Or.inl rfl
  | @made last timed _ hfollows =>
    exact Or.inr ⟨⟨rfl, rfl, timed, hfollows, rfl⟩, List.dropLast_sublist _⟩

/-- The simulation has its schedule anew from the start time, and nothing is recorded. -/
structure Starts (sim after : Simulation) : Prop where
  net : after.live.net = sim.live.net
  history : after.history = []
  anew : ∃ timed, after.live.enabledTimed = .ok timed ∧
    after.live.schedule = Schedule.reset sim.startTime timed

theorem starts_reset (h : sim.reset = (after, .ok ())) : sim.Starts after := by
  have hrestart := sim.restart_reset
  rw [h] at hrestart
  cases hrestart with
  | @made timed hfollows => exact ⟨rfl, rfl, timed, hfollows, rfl⟩

/-! ## Runs -/

/-- What a run is made of: it starts, goes on by operations, and delays are changed meanwhile. -/
inductive Deed where
  | start
  | operate (operation : Operation)
  | setDelay (transition : String) (delay : UInt64)

/-- A deed that is not refused leads from one simulation to the next. -/
inductive Step (sim : Simulation) : Deed → Simulation → Prop
  | operate {operation : Operation} {after : Simulation} {answer : Option Firing} :
      sim.perform operation = (after, .ok answer) → Step sim (.operate operation) after
  | setDelay {transition : String} {delay : UInt64} {live : LiveNet} :
      sim.live.setDelay transition delay = .ok live →
      Step sim (.setDelay transition delay) { sim with live := live }

theorem Step.perform {operation : Operation} {answer : Option Firing}
    (h : (sim.perform operation).2 = .ok answer) : sim.Step (.operate operation) (sim.perform operation).1 :=
  .operate (Prod.ext rfl h)

theorem Step.advance (sim : Simulation) (time : UInt64) :
    sim.Step (.operate (.advance time)) (sim.advance time) := .operate rfl

/-- A deed and the simulation after it. -/
structure Moment where
  deed : Deed
  sim : Simulation

/-- The moments of a run, the last one first. -/
inductive Run (live : LiveNet) (chance : Chance) (startTime : UInt64) : List Moment → Prop
  | start {sim : Simulation} : Simulation.new live chance startTime = .ok sim →
      Run live chance startTime [⟨.start, sim⟩]
  | step {moment : Moment} {earlier : List Moment} {deed : Deed} {after : Simulation} :
      Run live chance startTime (moment :: earlier) → moment.sim.Step deed after →
      Run live chance startTime (⟨deed, after⟩ :: moment :: earlier)

/-- A deed other than a reset leaves the schedule alone but for the clock, or brings it in step with the
marking. Only a firing takes a transition out before. -/
inductive Passes (sim : Simulation) (deed : Deed) (after : Simulation) : Prop
  | idle
      (keyed : sim.live.net.Keyed → after.live.net.Keyed)
      (enabled : ∀ m t, after.live.net.isEnabled m t = sim.live.net.isEnabled m t)
      (marking : after.marking = sim.marking)
      (fireTime : ∀ t, after.live.schedule.fireTime t = sim.live.schedule.fireTime t)
      (now : sim.now ≤ after.now)
      (history : after.history = sim.history)
      (unfired : ∀ t, deed ≠ .operate (.fire t)) : Passes sim deed after
  | moves {s : Schedule}
      (moves : sim.Moves s after)
      (now : s.now = sim.now)
      (kept : ∀ t time, s.fireTime t = some time → sim.live.schedule.fireTime t = some time ∧
        (deed = .operate (.fire t) → sim.live.net.isTimed t = false))
      (dropped : ∀ t, s.fireTime t = none →
        sim.live.schedule.fireTime t = none ∨ deed = .operate (.fire t))
      (history : after.history.Sublist sim.history ∨
        ∃ firing, after.history = sim.history ++ [firing] ∧ firing.time = after.now) : Passes sim deed after

theorem Passes.keyed {deed : Deed} (h : sim.Passes deed after) (hkeyed : sim.live.net.Keyed) :
    after.live.net.Keyed := by
  cases h with
  | idle hnet _ _ _ _ _ _ => exact hnet hkeyed
  | moves hmoves _ _ _ _ => exact hmoves.net ▸ hkeyed

theorem Moves.passes {deed : Deed} (h : sim.Moves sim.live.schedule after)
    (hdeed : ∀ t, deed ≠ .operate (.fire t)) (hhistory : after.history.Sublist sim.history) :
    sim.Passes deed after :=
  .moves h rfl (fun t _ htime => ⟨htime, fun hfire => absurd hfire (hdeed t)⟩) (fun _ hnone => Or.inl hnone)
    (Or.inl hhistory)

theorem passes_fire {transition : String} {firing : Firing} (h : sim.fire transition = (after, .ok firing)) :
    sim.Passes (.operate (.fire transition)) after := by
  obtain ⟨_, hmoves, hhistory, htime⟩ := moves_fire h
  refine .moves hmoves ?_ (fun t time hqueued => ?_) (fun t hnone => ?_) (Or.inr ⟨firing, hhistory, htime⟩)
  -- the clock stands still
  · exact sim.now_left transition
  -- what is queued still is not what fired, unless that is not timed
  · unfold left at hqueued
    split at hqueued
    · rw [Schedule.fireTime_dequeue] at hqueued
      split at hqueued
      · cases hqueued
      · rename_i hother
        exact ⟨hqueued, fun hsame => absurd (by cases hsame; rfl) hother⟩
    · rename_i himmediate
      refine ⟨hqueued, fun hsame => ?_⟩
      cases hsame
      simpa using himmediate
  -- what fired is the one entry that may be missing
  · unfold left at hnone
    split at hnone
    · rw [Schedule.fireTime_dequeue] at hnone
      split at hnone
      · rename_i hsame
        exact Or.inr (by rw [hsame])
      · exact Or.inl hnone
    · exact Or.inl hnone

/-- What a step does, as far as the clock, the schedule and the history are concerned. -/
theorem Step.cases {deed : Deed} (h : sim.Step deed after) :
    (deed = .operate .reset ∧ sim.Starts after) ∨ (deed ≠ .operate .reset ∧ sim.Passes deed after) := by
  cases h with
  | setDelay hdelay =>
    rw [LiveNet.setDelay, bind_eq_ok] at hdelay
    obtain ⟨net, hnet, hlive⟩ := hdelay
    cases hlive
    refine Or.inr ⟨by rintro ⟨⟩, .idle (fun hkeyed => hkeyed.setDelay hnet)
      (FlatNet.isEnabled_setDelay hnet) rfl (fun _ => rfl) ?_ rfl ?_⟩
    · exact UInt64.le_refl _
    · rintro t ⟨⟩
  | @operate operation _ answer hperform =>
    cases operation with
    | fire t =>
      obtain ⟨hafter, hanswer⟩ := Prod.mk.inj hperform
      obtain ⟨firing, hfiring, _⟩ := map_eq_ok.1 hanswer
      exact Or.inr ⟨by rintro ⟨⟩, passes_fire (Prod.ext hafter hfiring)⟩
    | fireBackwards t =>
      obtain ⟨hafter, hanswer⟩ := Prod.mk.inj hperform
      obtain ⟨firing, hfiring, _⟩ := map_eq_ok.1 hanswer
      obtain ⟨hmoves, hhistory⟩ := moves_fireBackwards (Prod.ext hafter hfiring)
      exact Or.inr ⟨by rintro ⟨⟩, hmoves.passes (by rintro t ⟨⟩) hhistory⟩
    | undo =>
      refine Or.inr ⟨by rintro ⟨⟩, ?_⟩
      rcases moves_undo hperform with rfl | ⟨hmoves, hhistory⟩
      · refine .idle id (fun _ _ => rfl) rfl (fun _ => rfl) (UInt64.le_refl _) rfl ?_
        rintro t ⟨⟩
      · exact hmoves.passes (by rintro t ⟨⟩) hhistory
    | reset =>
      obtain ⟨hafter, hanswer⟩ := Prod.mk.inj hperform
      obtain ⟨⟨⟩, hreset, _⟩ := map_eq_ok.1 hanswer
      exact Or.inl ⟨rfl, starts_reset (Prod.ext hafter hreset)⟩
    | resync =>
      dsimp only [Simulation.perform] at hperform
      split at hperform
      · cases hperform
      · rename_i done hdone
        cases hperform
        obtain ⟨hmoves, hhistory⟩ := moves_resync hdone
        refine Or.inr ⟨by rintro ⟨⟩, hmoves.passes (by rintro t ⟨⟩) ?_⟩
        rw [hhistory]
    | advance time =>
      cases hperform
      refine Or.inr ⟨by rintro ⟨⟩, .idle id (fun _ _ => rfl) rfl (Schedule.fireTime_advance _ time) ?_ rfl ?_⟩
      · exact Schedule.now_le_advance ..
      · rintro t ⟨⟩

/-! ## Waiting -/

/-- At the moment a transition is queued for the delay that it has then: everything is queued anew, or the
transition was not in the schedule before, or it is the one that fires. -/
structure Queues (transition : String) (delay : UInt64) (moment : Moment) (before : List Moment) : Prop where
  given : moment.sim.live.net.delay? transition = some delay
  time : moment.sim.live.schedule.fireTime transition = some (saturatingAdd moment.sim.now delay)
  anew : moment.deed = .start ∨ moment.deed = .operate .reset ∨ moment.deed = .operate (.fire transition) ∨
    ∀ m ∈ before.head?, m.sim.live.schedule.fireTime transition = none

/-- Among the moments, the last one first, is one at which the transition was queued for the delay. It was
enabled at that moment and at all moments since, and did not fire. -/
structure Waits (transition : String) (delay : UInt64) (since : List Moment) (queued : Moment)
    (before : List Moment) : Prop where
  queues : Queues transition delay queued before
  enabled : ∀ held ∈ since ++ [queued], held.sim.live.net.isEnabled held.sim.marking transition = .ok true
  unfired : ∀ passed ∈ since, passed.deed ≠ .operate (.fire transition)

/-- A transition that is queued now has waited for no time yet. -/
theorem waits_of_queues {transition : String} {delay : UInt64} {moment : Moment} {before : List Moment}
    (h : Queues transition delay moment before)
    (henabled : moment.sim.live.net.isEnabled moment.sim.marking transition = .ok true) :
    Waits transition delay [] moment before where
  queues := h
  enabled held hheld := by
    rw [List.nil_append, List.mem_singleton] at hheld
    rw [hheld]
    exact henabled
  unfired passed hpassed := by cases hpassed

/-- One moment more. -/
theorem Waits.cons {transition : String} {delay : UInt64} {since before : List Moment} {queued moment : Moment}
    (h : Waits transition delay since queued before)
    (henabled : moment.sim.live.net.isEnabled moment.sim.marking transition = .ok true)
    (hdeed : moment.deed ≠ .operate (.fire transition)) :
    Waits transition delay (moment :: since) queued before where
  queues := h.queues
  enabled held hheld := by
    rw [List.cons_append] at hheld
    rcases List.mem_cons.1 hheld with rfl | hheld
    · exact henabled
    · exact h.enabled held hheld
  unfired passed hpassed := by
    rcases List.mem_cons.1 hpassed with rfl | hpassed
    · exact hdeed
    · exact h.unfired passed hpassed

/-- The last moment is one of those at which the transition was enabled. -/
theorem Waits.enabled_head {transition : String} {delay : UInt64} {since before earlier : List Moment}
    {queued moment : Moment} (h : Waits transition delay since queued before)
    (hsplit : moment :: earlier = since ++ queued :: before) :
    moment.sim.live.net.isEnabled moment.sim.marking transition = .ok true := by
  refine h.enabled moment ?_
  cases since with
  | nil =>
    cases hsplit
    exact List.mem_singleton_self _
  | cons first rest =>
    cases hsplit
    exact List.mem_cons_self ..

/-- Every queued transition has waited since it was queued, for the time at which it may fire. -/
def Patient (moments : List Moment) : Prop :=
  ∀ m ∈ moments.head?, ∀ transition time, m.sim.live.schedule.fireTime transition = some time →
    ∃ since queued before delay, moments = since ++ queued :: before ∧
      Waits transition delay since queued before ∧ time = saturatingAdd queued.sim.now delay

/-- When everything is queued anew, every transition is queued at this moment. -/
theorem patient_of_starts {before : Simulation} {earlier : List Moment} {moment : Moment}
    (h : before.Starts moment.sim) (hkeyed : moment.sim.live.net.Keyed)
    (hdeed : moment.deed = .start ∨ moment.deed = .operate .reset) : Patient (moment :: earlier) := by
  intro m hm t time htime
  cases hm
  obtain ⟨timed, htimed, hschedule⟩ := h.anew
  have hnow : moment.sim.now = before.startTime := by
    rw [now, hschedule, Schedule.now_reset]
  have hqueued := htime
  rw [hschedule, Schedule.fireTime_reset, Option.map_eq_some_iff] at htime
  obtain ⟨delay, hdelay, rfl⟩ := htime
  obtain ⟨henabled, _, hdelay⟩ := FlatNet.of_lookup_timed hkeyed htimed hdelay
  rw [← hnow] at hqueued ⊢
  exact ⟨[], moment, earlier, delay, rfl,
    waits_of_queues ⟨hdelay, hqueued, hdeed.imp_right Or.inl⟩ henabled, rfl⟩

/-- A step that brings the schedule in step drops what is not enabled any more, and queues at this moment
what was not queued before. -/
theorem Patient.step {moment : Moment} {earlier : List Moment} {deed : Deed} (h : Patient (moment :: earlier))
    (hkeyed : after.live.net.Keyed) (hpasses : moment.sim.Passes deed after) :
    Patient (⟨deed, after⟩ :: moment :: earlier) := by
  intro m hm t time htime
  cases hm
  dsimp only at htime
  cases hpasses with
  -- the schedule and the marking are as they were, so the wait goes on
  | idle _ henabled hmarking hsame _ _ hdeed =>
    rw [hsame] at htime
    obtain ⟨since, queued, before, delay, hsplit, hwaits, rfl⟩ := h moment rfl t time htime
    have hstill : after.live.net.isEnabled after.marking t = .ok true := by
      rw [henabled, hmarking]
      exact hwaits.enabled_head hsplit
    exact ⟨⟨deed, after⟩ :: since, queued, before, delay, congrArg _ hsplit, hwaits.cons hstill (hdeed t), rfl⟩
  | @moves s hmoves hnow hkept hnew _ =>
    obtain ⟨timed, htimed, hschedule⟩ := hmoves.follows
    have hqueued := htime
    rw [hschedule, Schedule.fireTime_rebuild, Option.map_eq_some_iff] at htime
    obtain ⟨delay, hlookup, htime⟩ := htime
    obtain ⟨henabled, hkind, hdelay⟩ := FlatNet.of_lookup_timed hkeyed htimed hlookup
    cases hbefore : s.fireTime t with
    | some waiting =>
      -- it was in the schedule, and still is
      rw [hbefore, Option.getD_some] at htime
      subst htime
      obtain ⟨hwaiting, hfired⟩ := hkept t waiting hbefore
      obtain ⟨since, queued, before, delay, hsplit, hwaits, rfl⟩ := h moment rfl t waiting hwaiting
      have hdeed : deed ≠ .operate (.fire t) := fun hfire => by
        rw [hmoves.net, hfired hfire] at hkind
        cases hkind
      exact ⟨⟨deed, after⟩ :: since, queued, before, delay, congrArg _ hsplit, hwaits.cons henabled hdeed, rfl⟩
    | none =>
      -- it is queued at this moment, with the delay that it has now
      rw [hbefore, Option.getD_none, ← hmoves.now] at htime
      subst htime
      refine ⟨[], ⟨deed, after⟩, moment :: earlier, delay, rfl,
        waits_of_queues ⟨hdelay, hqueued, ?_⟩ henabled, rfl⟩
      rcases hnew t hbefore with hnone | hfire
      · refine Or.inr (Or.inr (Or.inr fun m hm => ?_))
        cases hm
        exact hnone
      · exact Or.inr (Or.inr (Or.inl hfire))

/-- Histories are in the order of time, and nothing is recorded that is yet to come. -/
structure InOrder (sim : Simulation) : Prop where
  ascending : sim.history.Pairwise fun a b => a.time ≤ b.time
  past : ∀ firing ∈ sim.history, firing.time ≤ sim.now

theorem Starts.inOrder (h : sim.Starts after) : after.InOrder where
  ascending := by
    rw [h.history]
    exact List.Pairwise.nil
  past firing hfiring := by
    rw [h.history] at hfiring
    cases hfiring

theorem InOrder.step {deed : Deed} (h : sim.InOrder) (hpasses : sim.Passes deed after) : after.InOrder := by
  cases hpasses with
  | idle _ _ _ _ hnow hhistory _ =>
    refine ⟨by rw [hhistory]; exact h.ascending, fun firing hfiring => ?_⟩
    rw [hhistory] at hfiring
    exact UInt64.le_trans (h.past firing hfiring) hnow
  | moves hmoves hnow _ _ hhistory =>
    have hsame : after.now = sim.now := hmoves.now.trans hnow
    rcases hhistory with hfewer | ⟨firing, hmore, htime⟩
    -- a firing was taken back at most
    · refine ⟨h.ascending.sublist hfewer, fun firing hfiring => ?_⟩
      rw [hsame]
      exact h.past firing (hfewer.subset hfiring)
    -- what fires now is later than all that is recorded
    · rw [hsame] at htime
      refine ⟨?_, fun other hother => ?_⟩
      · rw [hmore, List.pairwise_append]
        refine ⟨h.ascending, List.pairwise_singleton .., fun other hother last hlast => ?_⟩
        rw [List.mem_singleton.1 hlast, htime]
        exact h.past other hother
      · rw [hmore] at hother
        rw [hsame]
        rcases List.mem_append.1 hother with hother | hlast
        · exact h.past other hother
        · rw [List.mem_singleton.1 hlast, htime]
          exact UInt64.le_refl _

/-! ## Whole runs -/

namespace Run

variable {live : LiveNet} {chance : Chance} {startTime : UInt64} {moment : Moment} {earlier : List Moment}

theorem starts_new (h : Simulation.new live chance startTime = .ok sim) :
    Starts ⟨live, EnabledCache.empty, chance, startTime, []⟩ sim := by
  obtain ⟨timed, htimed, rfl⟩ := new_eq_ok.1 h
  exact ⟨rfl, rfl, timed, htimed, rfl⟩

/-- What every moment of a run keeps. -/
theorem kept (hrun : Run live chance startTime (moment :: earlier)) (hkeyed : live.net.Keyed) :
    moment.sim.live.net.Keyed ∧ Patient (moment :: earlier) ∧ moment.sim.InOrder := by
  generalize hmoments : moment :: earlier = moments at hrun
  -- induction on the run, from its start on
  induction hrun generalizing moment earlier with
  | @start sim hnew =>
    cases hmoments
    have hstarts := starts_new hnew
    have hnet : sim.live.net.Keyed := by
      rw [hstarts.net]
      exact hkeyed
    exact ⟨hnet, patient_of_starts hstarts hnet (Or.inl rfl), hstarts.inOrder⟩
  | @step before _ deed after _ hstep ih =>
    cases hmoments
    obtain ⟨hbefore, hpatient, horder⟩ := ih rfl
    rcases hstep.cases with ⟨hdeed, hstarts⟩ | ⟨_, hpasses⟩
    · have hnet : after.live.net.Keyed := by
        rw [hstarts.net]
        exact hbefore
      exact ⟨hnet, patient_of_starts hstarts hnet (Or.inr hdeed), hstarts.inOrder⟩
    · have hnet := hpasses.keyed hbefore
      exact ⟨hnet, hpatient.step hnet hpasses, horder.step hpasses⟩

/-- A timed transition that fires was queued at an earlier moment, for the delay it had then, and that delay
has passed. It was enabled and did not fire in between. Histories are in the order of time. -/
theorem never_early (hnet : live.net.Served) (hrun : Run live chance startTime (moment :: earlier)) :
    (moment.sim.history.Pairwise fun a b => a.time ≤ b.time) ∧
    ∀ transition, moment.deed = .operate (.fire transition) →
      moment.sim.live.net.isTimed transition = true →
      ∃ since queued before delay, earlier = since ++ queued :: before ∧
        Waits transition delay since queued before ∧
        min (queued.sim.now.toNat + delay.toNat) (UInt64.size - 1) ≤ moment.sim.now.toNat := by
  refine ⟨(hrun.kept hnet.keyed).2.2.ascending, fun t hdeed htimed => ?_⟩
  cases hrun with
  | start _ => cases hdeed
  | @step before earlier deed after hrun hstep =>
    cases hdeed
    cases hstep with
    | operate hperform =>
      obtain ⟨hafter, hanswer⟩ := Prod.mk.inj hperform
      obtain ⟨firing, hfiring, _⟩ := map_eq_ok.1 hanswer
      have hfire : before.sim.fire t = (after, .ok firing) := Prod.ext hafter hfiring
      obtain ⟨⟨reached, hoffers⟩, hmoves, _⟩ := moves_fire hfire
      -- a timed transition is offered when it is due
      have hdue : before.sim.live.schedule.isDue t = true := by
        have hmay := hoffers.mayFireNow
        rw [hmoves.net] at htimed
        simpa [LiveNet.mayFireNow, htimed] using hmay
      obtain ⟨time, htime, hle⟩ := Schedule.isDue_iff _ |>.1 hdue
      obtain ⟨since, queued, earliest, delay, hsplit, hwaits, rfl⟩ :=
        (hrun.kept hnet.keyed).2.1 before rfl t time htime
      refine ⟨since, queued, earliest, delay, hsplit, hwaits, ?_⟩
      -- firing takes no time
      have hclock : after.now = before.sim.live.schedule.now := by
        rw [hmoves.now, now_left]
        rfl
      rw [← toNat_saturatingAdd]
      exact UInt64.le_iff_toNat_le.1 (hclock ▸ hle)

/-- A transition that puts back what it takes, five steps of the clock later. -/
def metronome : IncludeTree := Sample.single
  [Sample.place "P" 1, .transition ⟨"T", 1, .timed, Rate.one, 5, none⟩,
    Sample.arc "a" "P" "T" .placeToTransition "1", Sample.arc "b" "P" "T" .transitionToPlace "1"]

/-- The transition is queued for time five. Its delay is changed to seven meanwhile, so that it is queued
for time twelve when it has fired, and fires then. -/
theorem never_early_metronome : ∃ live moment earlier, FlatNet.Served live.net ∧
    Run live ⟨fun _ => 0, 0⟩ 0 (moment :: earlier) ∧ moment.deed = .operate (.fire "T") ∧
    moment.sim.live.net.isTimed "T" = true ∧ moment.sim.now = 12 ∧
    ∃ since queued before delay, earlier = since ++ queued :: before ∧ Waits "T" delay since queued before ∧
      min (queued.sim.now.toNat + delay.toNat) (UInt64.size - 1) ≤ moment.sim.now.toNat := by
  have hrun : (LiveNet.ofTree Registry.empty 0 metronome).2.map (fun live =>
      (StateSpace.started live).toOption.bind fun first => (first.live.setDelay "T" 7).toOption.map fun slower =>
        let third := Simulation.perform (Simulation.advance { first with live := slower } 5) (.fire "T")
        let last := (third.1.advance 12).perform (.fire "T")
        (third.2.toOption.isSome, last.2.toOption.isSome, last.1.live.net.isTimed "T", last.1.now)) =
      .ok (some (true, true, true, 12)) := by
    decide +kernel
  obtain ⟨live, hlive, houtcome⟩ := map_eq_ok.1 hrun
  simp only [Option.bind_eq_some_iff, Option.map_eq_some_iff, toOption_eq_some, Prod.mk.injEq] at houtcome
  obtain ⟨first, hfirst, slower, hslower, hthird, hlast, htimed, hnow⟩ := houtcome
  obtain ⟨fired, hfired⟩ := Option.isSome_iff_exists.1 hthird
  obtain ⟨again, hagain⟩ := Option.isSome_iff_exists.1 hlast
  have hserved : FlatNet.Served live.net := .ofTree (LiveNet.net_of_ofTree hlive)
  have hwaiting := ((Run.start hfirst).step (.setDelay hslower)).step (.advance _ 5)
  have honce := hwaiting.step (.perform (toOption_eq_some.1 hfired))
  have htwice := (honce.step (.advance _ 12)).step (.perform (toOption_eq_some.1 hagain))
  obtain ⟨_, hwaits⟩ := never_early hserved htwice
  exact ⟨live, _, _, hserved, htwice, rfl, htimed, hnow, hwaits "T" rfl htimed⟩

end Run

end Simulation

end PetriTree
