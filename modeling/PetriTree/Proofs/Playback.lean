import PetriTree.Proofs.InStep
import PetriTree.Proofs.NextTime
import PetriTree.Proofs.Rollback
import PetriTree.Simulation.Playback

/-!
# PetriTree — playback comes to an end

Playback goes round in a loop that nobody has to stop. With a budget it ends nevertheless, but not because something
fires in every round: there are rounds in which nothing happens but that the clock moves on. Such a round is made as
long as something is scheduled for later, and it cannot be made for ever, because the clock moves on by one at least
and there is a last time. So the rounds that are left are counted by what is left of the budget and of time.

At the last time this is not enough. The clock stands still there, and the schedule still announces what is queued for
that time as something to come. The loop would wait for it for ever if it could not fire. That it can is what the
schedule has to be in step with the marking for: what is queued is enabled, what is queued for the last time is due
then, and no priority keeps it back.

Main results:
* `Simulation.Arises`, `Arises.sound` — what a simulation has that comes about, whatever was done with it;
* `Simulation.RoundEnd`, `Ready.playRound` — the four endings of a round, and what each of them leaves;
* `playFrom_of_le` — rounds that are not needed change nothing;
* `Ready.playFrom` — the rounds up to the end, with what they record;
* `Arises.playback_ends` — playback ends within its budget, and ends early only when nothing is left to fire.
-/

namespace PetriTree

/-! ## Times -/

theorem le_saturatingAdd (a b : UInt64) : a ≤ saturatingAdd a b := by
  have hsum := toNat_saturatingAdd a b
  have ha := a.toNat_lt_size
  rw [UInt64.le_iff_toNat_le, hsum]
  omega

/-- The clock moves on unless it stands at the last time. -/
theorem lt_saturatingAdd {a b : UInt64} (ha : a ≠ lastTime) (hb : 1 ≤ b) : a < saturatingAdd a b := by
  have hsum := toNat_saturatingAdd a b
  have hlt := a.toNat_lt_size
  have hsize : UInt64.size = 18446744073709551616 := rfl
  have hlast : lastTime.toNat = 18446744073709551615 := rfl
  have hone : (1 : UInt64).toNat = 1 := rfl
  rw [Ne, ← UInt64.toNat_inj, hlast] at ha
  rw [UInt64.le_iff_toNat_le, hone] at hb
  rw [UInt64.lt_iff_toNat_lt, hsum]
  omega

theorem le_lastTime (time : UInt64) : time ≤ lastTime := by
  have hlt := time.toNat_lt
  have hlast : lastTime.toNat = 18446744073709551615 := rfl
  rw [UInt64.le_iff_toNat_le]
  omega

namespace Simulation

variable {sim after : Simulation}

/-! ## Simulations that come about -/

/-- Is the net one that trees are joined into, does the cache know nothing wrong about it, and do the indexes of the
schedule say the same? -/
structure Sound (sim : Simulation) : Prop where
  served : sim.live.net.Served
  trusted : sim.cache.Trusted sim.live
  indexed : sim.live.schedule.Indexed

/-- The simulations that come about. One is made for a net, and then it is handled, asked for a transition that may fire,
made to forget what may fire, or its schedule and its handlers are changed by hand. -/
inductive Arises : Simulation → Prop
  | new {live : LiveNet} {chance : Chance} {startTime : UInt64} {sim : Simulation} :
      live.net.Served → Simulation.new live chance startTime = .ok sim → Arises sim
  | handle {sim : Simulation} (handling : Handling) : Arises sim → Arises (sim.handle handling)
  | pick {sim : Simulation} : Arises sim → Arises sim.pick.1
  | forget {sim : Simulation} : Arises sim → Arises { sim with cache := EnabledCache.empty }
  | schedule {sim : Simulation} (command : ScheduleCommand) :
      Arises sim → Arises (sim.withSchedule (sim.live.schedule.perform command))
  | handlers {sim : Simulation} (handlers : Table Handler) :
      Arises sim → Arises { sim with live := { sim.live with handlers := handlers } }

/-- An edit leaves the net as it is, but for a delay, or makes it anew with its schedule. -/
theorem edited_served {live : LiveNet} (hserved : live.net.Served) (hindexed : live.schedule.Indexed)
    (edit : LiveEdit) : (live.edited edit).net.Served ∧ (live.edited edit).schedule.Indexed := by
  let Kept := fun after : LiveNet => after.net.Served ∧ after.schedule.Indexed
  have hkept : Kept live := ⟨hserved, hindexed⟩
  cases edit with
  | setTokens place color n =>
    refine LiveNet.orKeep_of Kept hkept fun after hafter => ?_
    simp only [LiveNet.setTokens, bind_eq_ok, pure_eq_ok] at hafter
    obtain ⟨_, _, _, _, rfl⟩ := hafter
    exact hkept
  | setMarking m => exact hkept
  | setDelay transition delay =>
    refine LiveNet.orKeep_of Kept hkept fun after hafter => ?_
    simp only [LiveNet.setDelay, bind_eq_ok, pure_eq_ok] at hafter
    obtain ⟨net, hnet, rfl⟩ := hafter
    exact ⟨hserved.setDelay hnet, hindexed⟩
  | requireRefresh => exact hkept
  | pull tree =>
    refine LiveNet.orKeep_of Kept hkept fun after hafter => ?_
    simp only [LiveNet.pull, bind_eq_ok, pure_eq_ok] at hafter
    obtain ⟨m, _, rfl⟩ := hafter
    exact hkept
  | refresh tree =>
    refine LiveNet.orKeep_of Kept hkept fun after hafter => ?_
    obtain ⟨fresh, timed, hfresh, rfl⟩ := LiveNet.refresh_eq_ok hafter
    have hserved : fresh.net.Served := .ofTree (LiveNet.net_of_ofTree hfresh)
    exact ⟨hserved, Schedule.indexed_reset ..⟩

/-- No operation leaves the schedule other than it was, advanced, brought in step, or made anew. -/
theorem indexed_perform (h : sim.live.schedule.Indexed) (operation : Operation) :
    (sim.perform operation).1.live.schedule.Indexed := by
  cases operation with
  | fire t =>
    show (sim.fire t).1.live.schedule.Indexed
    have hattempt := sim.attempt_fire t
    generalize sim.fire t = outcome at hattempt ⊢
    cases hattempt with
    | refused => exact h
    | declined => exact (sim.stays_told t _).schedule ▸ h
    | abandoned => exact (sim.stays_told t _).schedule ▸ h
    | made => exact (indexed_left h t).rebuild _
  | fireBackwards t =>
    show (sim.fireBackwards t).1.live.schedule.Indexed
    have hrewind := sim.rewind_fireBackwards t
    generalize sim.fireBackwards t = outcome at hrewind ⊢
    cases hrewind with
    | refused => exact h
    | stranded => exact h
    | made => exact h.rebuild _
  | undo =>
    show sim.undo.1.live.schedule.Indexed
    have hundoing := sim.undoing_undo
    generalize sim.undo = outcome at hundoing ⊢
    cases hundoing with
    | idle => exact h
    | stranded => exact h
    | made => exact h.rebuild _
  | reset =>
    show sim.reset.1.live.schedule.Indexed
    have hrestart := sim.restart_reset
    generalize sim.reset = outcome at hrestart ⊢
    cases hrestart with
    | stranded => exact h
    | made => exact Schedule.indexed_reset ..
  | resync =>
    show (sim.perform .resync).1.live.schedule.Indexed
    rw [perform, resync_eq]
    cases sim.live.net.timed sim.marking with
    | error e => exact h
    | ok timed => exact h.rebuild timed
  | advance time => exact h.advance time

theorem Sound.handle (h : sim.Sound) (handling : Handling) : (sim.handle handling).Sound where
  served := by
    cases handling with
    | operate operation => exact (sim.continues_perform operation).net ▸ h.served
    | edit edit => exact (edited_served h.served h.indexed edit).1
  trusted := trusted_handle h.trusted handling
  indexed := by
    cases handling with
    | operate operation => exact indexed_perform h.indexed operation
    | edit edit => exact (edited_served h.served h.indexed edit).2

/-! ## Asking for a transition -/

/-- A transition is picked among those that may fire now, and the cache remembers them. -/
theorem pick_of_ok {found : SortedSet String} (h : sim.enabled.2 = .ok found) :
    sim.pick = ({ sim with
      cache := (sim.cache.candidates sim.live sim.marking).1
      chance := (sim.chance.choose found.toList).2 }, .ok (sim.chance.choose found.toList).1) := by
  have hasked : sim.enabled = ({ sim with cache := (sim.cache.candidates sim.live sim.marking).1 }, .ok found) :=
    Prod.ext sim.enabled_fst h
  unfold pick
  rw [hasked]

theorem pick_of_error {e : FiringError} (h : sim.enabled.2 = .error e) :
    sim.pick = ({ sim with cache := (sim.cache.candidates sim.live sim.marking).1 }, .error e) := by
  have hasked : sim.enabled = ({ sim with cache := (sim.cache.candidates sim.live sim.marking).1 }, .error e) :=
    Prod.ext sim.enabled_fst h
  unfold pick
  rw [hasked]

theorem Sound.pick (h : sim.Sound) : sim.pick.1.Sound := by
  have htrusted := h.trusted.candidates (Or.inl rfl) sim.marking
  cases hfound : sim.enabled.2 with
  | error e =>
    rw [pick_of_error hfound]
    exact ⟨h.served, htrusted, h.indexed⟩
  | ok found =>
    rw [pick_of_ok hfound]
    exact ⟨h.served, htrusted, h.indexed⟩

/-- Whatever was done with a simulation, it is sound. -/
theorem Arises.sound (h : sim.Arises) : sim.Sound := by
  induction h with
  | new hnet hnew =>
    have htracks := Tracks.new hnew
    have hstarts := Run.starts_new hnew
    obtain ⟨timed, _, hschedule⟩ := hstarts.anew
    exact ⟨htracks.runs.symm ▸ hnet, htracks.trusted, hschedule ▸ Schedule.indexed_reset ..⟩
  | handle handling _ ih => exact ih.handle handling
  | pick _ ih => exact ih.pick
  | forget _ ih => exact ⟨ih.served, EnabledCache.trusted_empty _, ih.indexed⟩
  | schedule command _ ih => exact ⟨ih.served, trusted_of_same ih.trusted rfl rfl, ih.indexed.perform command⟩
  | handlers handlers _ ih => exact ⟨ih.served, trusted_of_same ih.trusted rfl rfl, ih.indexed⟩

/-! ## One round -/

/-- Is the simulation sound, and is its schedule in step with the marking? -/
structure Ready (sim : Simulation) : Prop where
  sound : sim.Sound
  inStep : sim.InStep

/-- May nothing fire, and is nothing queued that could fire later? -/
structure AtRest (sim : Simulation) : Prop where
  idle : ∃ found, sim.enabled.2 = .ok found ∧ ∀ t, t ∉ found
  unqueued : ∀ t, sim.live.schedule.isScheduled t = false

/-- The simulation with its clock moved on by a step. -/
def ticked (sim : Simulation) (step : UInt64) : Simulation := sim.advance (saturatingAdd sim.now step)

theorem now_ticked (sim : Simulation) (step : UInt64) : (sim.ticked step).now = saturatingAdd sim.now step := by
  have hforward : ¬ saturatingAdd sim.now step < sim.live.schedule.now := UInt64.not_lt.2 (le_saturatingAdd sim.now step)
  show (sim.live.schedule.advance (saturatingAdd sim.now step)).now = saturatingAdd sim.now step
  rw [Schedule.advance, if_neg hforward]

theorem Ready.ticked (h : sim.Ready) (step : UInt64) : (sim.ticked step).Ready where
  sound := h.sound.handle (.operate (.advance _))
  inStep := by
    have hok : sim.perform (.advance (saturatingAdd sim.now step)) = (sim.ticked step, .ok none) := rfl
    exact h.inStep.perform_ok h.sound.served.keyed hok

/-- What was asked and drawn makes no difference to a schedule. -/
theorem Ready.pick (h : sim.Ready) : sim.pick.1.Ready := by
  refine ⟨h.sound.pick, ?_⟩
  cases hfound : sim.enabled.2 with
  | error e =>
    rw [pick_of_error hfound]
    exact ⟨h.inStep.queued, h.inStep.indexed⟩
  | ok found =>
    rw [pick_of_ok hfound]
    exact ⟨h.inStep.queued, h.inStep.indexed⟩

theorem Ready.fire (h : sim.Ready) {transition : String} {firing : Firing}
    (hfires : sim.fire transition = (after, .ok firing)) : after.Ready where
  sound := by
    have hsound := h.sound.handle (.operate (.fire transition))
    have hsame : sim.handle (.operate (.fire transition)) = after := congrArg Prod.fst hfires
    exact hsame ▸ hsound
  inStep := by
    have hok : sim.perform (.fire transition) = (after, .ok (some firing)) := by
      rw [perform, hfires]
      rfl
    exact h.inStep.perform_ok h.sound.served.keyed hok

/-- When nothing may fire, whatever is queued is queued for a time to come. -/
theorem Ready.waits (h : sim.Ready) {found : SortedSet String} (hfound : sim.enabled.2 = .ok found)
    (hnone : ∀ t, t ∉ found) {t : String} {time : UInt64} (htime : sim.live.schedule.fireTime t = some time) :
    sim.now < time := by
  have hqueued : sim.live.schedule.isScheduled t = true := by
    rw [Schedule.isScheduled_iff, htime]
    rfl
  obtain ⟨htimed, _⟩ := (h.inStep.queued t).1 hqueued
  have hdue := h.inStep.mem_enabled_iff h.sound.served.keyed h.sound.trusted hfound htimed htime
  rw [← UInt64.not_le, ← hdue]
  exact hnone t

/-- How a round ends. -/
inductive RoundEnd (sim : Simulation) : Simulation × Except FiringError Round → Prop
  /-- It could not be told what may fire, or the transition that was picked did not fire. -/
  | failed {after : Simulation} (e : FiringError) (history : after.history = sim.history) :
      RoundEnd sim (after, .error e)
  | finished {after : Simulation} (rests : after.AtRest) (history : after.history = sim.history) :
      RoundEnd sim (after, .ok .finished)
  /-- The clock moved on. -/
  | waited {after : Simulation} (ready : after.Ready) (history : after.history = sim.history)
      (later : sim.now < after.now) : RoundEnd sim (after, .ok .waited)
  | fired {after : Simulation} (ready : after.Ready) (record : Firing)
      (history : after.history = sim.history ++ [record]) (notBefore : sim.now ≤ after.now) :
      RoundEnd sim (after, .ok .fired)

/-- A firing that is refused is not recorded. -/
theorem history_of_refused {transition : String} {e : FiringError} (h : sim.fire transition = (after, .error e)) :
    after.history = sim.history := by
  have hstays := stays_of_fire (congrArg Prod.snd h)
  rw [h] at hstays
  exact hstays.history

/-- A round in which nothing may fire ends playback, or moves the clock. -/
theorem Ready.idleRound (h : sim.Ready) {step : UInt64} (hpos : 1 ≤ step) (found : SortedSet String)
    (hfound : (sim.ticked step).enabled.2 = .ok found) (hnone : found.toList = []) :
    RoundEnd sim ((sim.ticked step).pick.1,
      .ok (if (sim.ticked step).pick.1.live.schedule.next.isNone then .finished else .waited)) := by
  have hticked := h.ticked step
  have hready := hticked.pick
  have hempty : ∀ t, t ∉ found := by
    intro t ht
    rw [← SortedSet.mem_toList, hnone] at ht
    cases ht
  -- asking does not touch the net, so its clock, schedule and history are those of the moved clock
  have hlive : (sim.ticked step).pick.1.live = (sim.ticked step).live := by rw [pick_of_ok hfound]
  have hhistory : (sim.ticked step).pick.1.history = sim.history := by
    rw [pick_of_ok hfound]
    rfl
  have hagain : (sim.ticked step).pick.1.enabled.2 = .ok found := by
    rw [enabled_snd hready.sound.trusted, marking, hlive, ← hfound, enabled_snd hticked.sound.trusted, marking]
  have hwaits : ∀ t time, (sim.ticked step).pick.1.live.schedule.fireTime t = some time →
      (sim.ticked step).pick.1.now < time := fun t time htime => hready.waits hagain hempty htime
  generalize (sim.ticked step).pick.1 = last at *
  have hnow : last.now = saturatingAdd sim.now step := by rw [now, hlive, ← now_ticked, now]
  have hnext := hready.inStep.indexed.exists_next_iff
  split
  · rename_i hnone
    -- what is queued at all is queued for later, and would have been found
    refine .finished ⟨⟨found, hagain, hempty⟩, fun t => ?_⟩ hhistory
    by_contra hqueued
    rw [Bool.not_eq_false, Schedule.isScheduled_iff] at hqueued
    obtain ⟨time, htime⟩ := Option.isSome_iff_exists.1 hqueued
    have hlate : saturatingAdd last.live.schedule.now 1 ≤ time :=
      (saturatingAdd_one_le_iff ..).2 (Or.inl (hwaits t time htime))
    obtain ⟨answer, hanswer⟩ := hnext.2 ⟨time, ⟨t, htime⟩, hlate⟩
    rw [hanswer] at hnone
    cases hnone
  · rename_i hsome
    refine .waited hready hhistory ?_
    obtain ⟨answer, hanswer⟩ := Option.ne_none_iff_exists'.1 (mt Option.isNone_iff_eq_none.2 hsome)
    obtain ⟨time, ⟨t, htime⟩, _⟩ := hnext.1 ⟨answer, hanswer⟩
    -- something is to come, so the clock has not reached the last time
    have hbefore := hwaits t time htime
    rw [hnow] at hbefore ⊢
    refine lt_saturatingAdd ?_ hpos
    intro hlast
    have hpast : time ≤ saturatingAdd sim.now step :=
      UInt64.le_trans (le_lastTime time) (hlast ▸ le_saturatingAdd sim.now step)
    exact UInt64.not_lt.2 hpast hbefore

theorem Ready.playRound (h : sim.Ready) {step : UInt64} (hpos : 1 ≤ step) : RoundEnd sim (sim.playRound step) := by
  have hticked := h.ticked step
  have hready := hticked.pick
  have hidle := h.idleRound hpos
  have hnow := now_ticked sim step
  have hle := le_saturatingAdd sim.now step
  have hhistory : (sim.ticked step).history = sim.history := rfl
  unfold Simulation.playRound
  rw [← Simulation.ticked]
  generalize sim.ticked step = moved at *
  cases hfound : moved.enabled.2 with
  | error e =>
    rw [pick_of_error hfound]
    exact .failed e hhistory
  | ok found =>
    have hpick := pick_of_ok hfound
    cases hchosen : (moved.chance.choose found.toList).1 with
    | none =>
      have hend := hidle found hfound (Chance.choose_eq_none_iff.1 hchosen)
      rw [hpick, hchosen]
      rw [hpick] at hend
      exact hend
    | some transition =>
      rw [hpick, hchosen]
      rw [hpick] at hready
      dsimp only at hready ⊢
      generalize hasked : ({ moved with
        cache := (moved.cache.candidates moved.live moved.marking).1
        chance := (moved.chance.choose found.toList).2 } : Simulation) = asked at hready ⊢
      have hsame : asked.history = sim.history ∧ sim.now ≤ asked.now := by
        subst hasked
        exact ⟨hhistory, hnow.symm ▸ hle⟩
      split
      · rename_i after e hfires
        exact .failed e ((history_of_refused hfires).trans hsame.1)
      · rename_i after firing hfires
        obtain ⟨_, hmoves, hrecorded, _⟩ := moves_fire hfires
        -- a firing takes no time
        have hclock : after.now = asked.now := hmoves.now.trans (asked.now_left transition)
        exact .fired (hready.fire hfires) firing (hsame.1 ▸ hrecorded) (hclock ▸ hsame.2)

/-! ## The rounds up to the end -/

/-- Rounds that are not needed change nothing. -/
theorem playFrom_of_le {step : UInt64} {budget : Option Nat} {told : Nat → Bool} {fired round rounds more : Nat}
    {outcome : Except FiringError Nat} (h : playFrom step budget told fired round rounds sim = (after, some outcome))
    (hle : rounds ≤ more) : playFrom step budget told fired round more sim = (after, some outcome) := by
  induction rounds generalizing sim fired round more with
  | zero => cases h
  | succ rounds ih =>
    obtain ⟨more, rfl⟩ := Nat.exists_eq_add_one_of_ne_zero (Nat.ne_zero_of_lt hle)
    have hle := Nat.le_of_succ_le_succ hle
    rw [playFrom] at h ⊢
    by_cases htold : told round = true
    · rw [if_pos htold] at h ⊢
      exact h
    · rw [if_neg htold] at h ⊢
      by_cases hspent : (budget.any fun most => decide (most ≤ fired)) = true
      · rw [if_pos hspent] at h ⊢
        exact h
      · rw [if_neg hspent] at h ⊢
        -- the round is the same, and what comes after it does not need the rounds that are left over
        cases hround : sim.playRound step with
        | mk next outcome =>
          rw [hround] at h
          cases outcome with
          | error e => exact h
          | ok ending =>
            cases ending with
            | finished => exact h
            | waited => exact ih h hle
            | fired => exact ih h hle

/-- What has become of a simulation when playback ends, `fired` firings having come before: what it fired is recorded
and stays within the budget, it is counted in a number that is answered, and if the number is less than the budget and
nobody asked to stop, nothing is left to fire. -/
structure Accounted (sim last : Simulation) (most fired : Nat) (told : Nat → Bool) (outcome : Except FiringError Nat)
    (made : List Firing) : Prop where
  history : last.history = sim.history ++ made
  within : made.length ≤ most - fired
  counted : ∀ total, outcome = .ok total → total = fired + made.length
  rests : ∀ total, outcome = .ok total → total < most → (∀ round, told round = false) → last.AtRest

/-- Every round that is not the last one uses up some of the budget or of the time that is left. -/
theorem Ready.playFrom (h : sim.Ready) {step : UInt64} (hpos : 1 ≤ step) {most : Nat} (told : Nat → Bool)
    (fired round : Nat) {rounds : Nat} (hrounds : most - fired + (lastTime.toNat - sim.now.toNat) < rounds) :
    ∃ last outcome made, Simulation.playFrom step (some most) told fired round rounds sim = (last, some outcome) ∧
      sim.Accounted last most fired told outcome made := by
  induction rounds generalizing sim fired round with
  | zero => exact absurd hrounds (Nat.not_lt_zero _)
  | succ rounds ih =>
    rw [Simulation.playFrom]
    split
    · rename_i htold
      refine ⟨sim, .ok fired, [], rfl, (List.append_nil _).symm, Nat.zero_le _, ?_, ?_⟩
      · rintro total ⟨⟩
        rfl
      · intro total _ _ hnever
        rw [hnever round] at htold
        cases htold
    · split
      · rename_i hspent
        have hspent : most ≤ fired := by simpa using hspent
        refine ⟨sim, .ok fired, [], rfl, (List.append_nil _).symm, Nat.zero_le _, ?_, ?_⟩
        · rintro total ⟨⟩
          rfl
        · rintro total ⟨⟩ hless
          omega
      · rename_i hleft
        have hleft : fired < most := by simpa using hleft
        have hend := h.playRound hpos
        generalize sim.playRound step = ending at hend ⊢
        cases hend with
        | @failed after e hhistory =>
          refine ⟨after, .error e, [], rfl, ?_, Nat.zero_le _, ?_, ?_⟩
          · rw [hhistory, List.append_nil]
          · rintro total ⟨⟩
          · rintro total ⟨⟩
        | @finished after hrests hhistory =>
          refine ⟨after, .ok fired, [], rfl, ?_, Nat.zero_le _, ?_, fun _ _ _ _ => hrests⟩
          · rw [hhistory, List.append_nil]
          · rintro total ⟨⟩
            rfl
        | @waited after hready hhistory hlater =>
          -- nothing fired, but there is less time left
          have hless : most - fired + (lastTime.toNat - after.now.toNat) < rounds := by
            have hbound := UInt64.le_iff_toNat_le.1 (le_lastTime after.now)
            rw [UInt64.lt_iff_toNat_lt] at hlater
            omega
          obtain ⟨last, outcome, made, hplays, haccount⟩ := ih hready fired (round + 1) hless
          refine ⟨last, outcome, made, hplays, ?_, haccount.within, haccount.counted, haccount.rests⟩
          rw [haccount.history, hhistory]
        | @fired after hready record hhistory hnotBefore =>
          have hless : most - (fired + 1) + (lastTime.toNat - after.now.toNat) < rounds := by
            rw [UInt64.le_iff_toNat_le] at hnotBefore
            omega
          obtain ⟨last, outcome, made, hplays, haccount⟩ := ih hready (fired + 1) (round + 1) hless
          have hwithin := haccount.within
          refine ⟨last, outcome, record :: made, hplays, ?_, ?_, ?_, haccount.rests⟩
          · rw [haccount.history, hhistory, List.append_assoc, List.singleton_append]
          · rw [List.length_cons]
            omega
          · intro total htotal
            rw [haccount.counted total htotal, List.length_cons]
            omega

/-- Playback with a budget ends by itself: there are no more rounds than the budget and the time that is left allow,
whichever transitions chance picks, whether or not it is told to stop, and whatever step the clock makes. By then no
more has fired than the budget allows, and all of it is recorded. If a number of firings is answered, it is the number of
those. If it is less than the budget although nobody asked to stop, nothing may fire and nothing is queued for later. All
of this rests on a schedule that is in step with the marking at the beginning. -/
theorem Arises.playback_ends (h : sim.Arises)
    (hqueued : ∀ t, sim.live.schedule.isScheduled t = true ↔
      sim.live.net.isTimed t = true ∧ sim.live.net.isEnabled sim.marking t = .ok true)
    {step : UInt64} (hpos : 1 ≤ step) (most : Nat) (told : Nat → Bool) : ∃ last outcome made,
      (∀ rounds, most + (lastTime.toNat - sim.now.toNat) < rounds →
        sim.playUntil told step (some most) rounds = (last, some outcome)) ∧
      last.history = sim.history ++ made ∧ made.length ≤ most ∧
      ∀ fired, outcome = .ok fired → fired = made.length ∧
        (fired < most → (∀ round, told round = false) →
          (∃ found, last.enabled.2 = .ok found ∧ ∀ t, t ∉ found) ∧
            ∀ t, last.live.schedule.isScheduled t = false) := by
  have hsound := h.sound
  have hready : sim.Ready := ⟨hsound, hqueued, hsound.indexed⟩
  obtain ⟨last, outcome, made, hplays, haccount⟩ :=
    hready.playFrom hpos told 0 0 (Nat.lt_succ_self _)
  refine ⟨last, outcome, made, fun rounds hrounds => playFrom_of_le hplays hrounds, haccount.history, haccount.within, ?_⟩
  intro fired hfired
  refine ⟨(haccount.counted fired hfired).trans (Nat.zero_add _), fun hless hnever => ?_⟩
  have hrests := haccount.rests fired hfired hless hnever
  exact ⟨hrests.idle, hrests.unqueued⟩

/-- A transition that takes the only token after a delay. -/
def fuse : IncludeTree := Sample.single
  [Sample.place "P" 1, .transition ⟨"T", 1, .timed, Rate.one, 3, none⟩, Sample.arc "a" "P" "T" .placeToTransition "1"]

/-- It is waited for, it fires, and then there is nothing left although more might have fired. -/
theorem playback_ends_fuse : ∃ live sim last, FlatNet.Served live.net ∧
    Simulation.new live ⟨fun _ => 0, 0⟩ 0 = .ok sim ∧
    sim.playUntil (fun _ => false) 2 (some 3) 4 = (last, some (.ok 1)) ∧ last.history.length = 1 ∧
    (∃ found, last.enabled.2 = .ok found ∧ ∀ t, t ∉ found) ∧ ∀ t, last.live.schedule.isScheduled t = false := by
  have hrun : (LiveNet.ofTree Registry.empty 0 fuse).2.map (fun live =>
      (Simulation.new live ⟨fun _ => 0, 0⟩ 0).toOption.map fun sim =>
        (sim.playUntil (fun _ => false) 2 (some 3) 4).2.map Except.toOption) = .ok (some (some (some 1))) := by
    decide +kernel
  obtain ⟨live, hlive, houtcome⟩ := map_eq_ok.1 hrun
  simp only [Option.map_eq_some_iff, toOption_eq_some] at houtcome
  obtain ⟨sim, hnew, outcome, houtcome, hone⟩ := houtcome
  have hserved : FlatNet.Served live.net := .ofTree (LiveNet.net_of_ofTree hlive)
  have hstart := (Run.starts_new hnew).inStep hserved.keyed
  obtain ⟨last, answer, made, hplays, hhistory, -, hcounts⟩ :=
    (Arises.new hserved hnew).playback_ends hstart.queued (show (1 : UInt64) ≤ 2 by decide) 3 fun _ => false
  -- four rounds will do, so more of them end in the same way
  have hshort : sim.playUntil (fun _ => false) 2 (some 3) 4 =
      ((sim.playUntil (fun _ => false) 2 (some 3) 4).1, some (.ok 1)) := Prod.ext rfl (by rw [houtcome, hone])
  have hlong := playFrom_of_le hshort (Nat.le_add_right 4 (3 + (lastTime.toNat - sim.now.toNat)))
  have hmore : 3 + (lastTime.toNat - sim.now.toNat) < 4 + (3 + (lastTime.toNat - sim.now.toNat)) :=
    Nat.lt_add_of_pos_left (by decide)
  obtain ⟨hlast, hanswer⟩ := Prod.mk.inj ((hplays _ hmore).symm.trans hlong)
  obtain ⟨hmade, hrests⟩ := hcounts 1 (Option.some.inj hanswer)
  refine ⟨live, sim, last, hserved, hnew, hlast ▸ hshort, ?_, hrests (by decide) fun _ => rfl⟩
  rw [hhistory, (Run.starts_new hnew).history, List.nil_append]
  exact hmade.symm

end Simulation

end PetriTree
