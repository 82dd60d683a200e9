import PetriTree.Proofs.Buckets
import PetriTree.Proofs.Timing

/-!
# PetriTree — the schedule is in step with the marking

Nothing in a simulation says that its schedule fits its marking. They are two fields, and each operation has
to bring them together again: a firing, after its transition was taken out of the queue; a backward firing
and an undoing, after the marking was changed in quite another way; a reset, anew.

A schedule that does not fit would be noticed only when the clock gets there, by a transition that never
becomes due, or by one that waits although it is disabled. So the two are compared after every operation. As
long as no operation is refused halfway, what is queued is what is timed and enabled. Halfway means that the
marking has moved and the schedule could not follow; it does not include a firing that was given up.

Main results:
* `FlatNet.isSome_lookup_timed` — what the schedule is told is what is timed and enabled;
* `Simulation.InStep`, `InStep.perform_ok` — an operation that is not refused brings the two in step;
* `Simulation.queued_iff_enabled` — the schedule fits the marking, and what may fire now follows from it.
-/

namespace PetriTree

/-! ## What the schedule is told -/

/-- Whatever is timed and enabled is listed. -/
theorem LiveNet.enabledAmong_of_mem {net : FlatNet} {m : Marking} {ts : List Transition}
    {timed : List (String × UInt64)} (h : enabledAmong net m ts = .ok timed) {t : Transition} (ht : t ∈ ts)
    (hkind : t.kind.isTimed = true) (htest : net.isEnabled m t.id = .ok true) : (t.id, t.delay) ∈ timed := by
  induction ts generalizing timed with
  | nil => cases ht
  | cons first rest ih =>
    rw [enabledAmong] at h
    split at h
    · -- an immediate transition is passed over
      rename_i himmediate
      rcases List.mem_cons.1 ht with rfl | hrest
      · simp [hkind] at himmediate
      · exact ih h hrest
    · obtain ⟨b, hb, h⟩ := bind_eq_ok.1 h
      cases b with
      | false =>
        rcases List.mem_cons.1 ht with rfl | hrest
        · rw [htest] at hb
          cases hb
        · exact ih h hrest
      | true =>
        obtain ⟨others, hothers, h⟩ := bind_eq_ok.1 h
        cases h
        rcases List.mem_cons.1 ht with rfl | hrest
        · exact List.mem_cons_self ..
        · exact List.mem_cons_of_mem _ (ih hothers hrest)

namespace FlatNet

variable {net : FlatNet} {m : Marking}

/-- The schedule is told of just the transitions that are timed and enabled. -/
theorem isSome_lookup_timed (hkeyed : net.Keyed) {timed : List (String × UInt64)} (h : net.timed m = .ok timed)
    (id : String) : (timed.lookup id).isSome ↔ net.isTimed id = true ∧ net.isEnabled m id = .ok true := by
  constructor
  · intro hsome
    obtain ⟨delay, hdelay⟩ := Option.isSome_iff_exists.1 hsome
    obtain ⟨htest, htimed, _⟩ := of_lookup_timed hkeyed h hdelay
    exact ⟨htimed, htest⟩
  · rintro ⟨htimed, htest⟩
    cases hget : net.transitions.get? id with
    | none => simp [isTimed, hget] at htimed
    | some flat =>
      have hkind : flat.transition.kind.isTimed = true := by simpa [isTimed, hget] using htimed
      have hid := hkeyed id flat hget
      have hmem : flat.transition ∈ net.transitions.values.map FlatTransition.transition :=
        List.mem_map_of_mem (List.mem_map_of_mem (Table.get?_eq_some_iff.1 hget))
      have hlisted := LiveNet.enabledAmong_of_mem h hmem hkind (hid.symm ▸ htest)
      -- the id is listed, so the look-up finds something
      rw [Option.isSome_iff_ne_none, Ne, List.lookup_eq_none_iff]
      intro hnone
      have hne := hnone _ hlisted
      simp [hid] at hne

end FlatNet

namespace Simulation

variable {sim after : Simulation}

/-! ## Schedule and marking -/

/-- Are the queued transitions just those that are timed and enabled, and do both indexes say so? -/
structure InStep (sim : Simulation) : Prop where
  queued : ∀ t, sim.live.schedule.isScheduled t = true ↔
    sim.live.net.isTimed t = true ∧ sim.live.net.isEnabled sim.marking t = .ok true
  indexed : sim.live.schedule.Indexed

/-- A schedule that was brought in step with a marking fits it, whatever it was before. -/
theorem inStep_of_rebuild {s : Schedule} {timed : List (String × UInt64)} (hkeyed : after.live.net.Keyed)
    (hindexed : s.Indexed) (hfollows : after.live.net.timed after.marking = .ok timed)
    (hschedule : after.live.schedule = s.rebuild timed) : after.InStep where
  queued t := by
    rw [hschedule, Schedule.isScheduled_iff, Schedule.fireTime_rebuild, Option.isSome_map]
    exact FlatNet.isSome_lookup_timed hkeyed hfollows t
  indexed := hschedule ▸ hindexed.rebuild timed

theorem inStep_of_reset {now : UInt64} {timed : List (String × UInt64)} (hkeyed : after.live.net.Keyed)
    (hfollows : after.live.net.timed after.marking = .ok timed)
    (hschedule : after.live.schedule = Schedule.reset now timed) : after.InStep where
  queued t := by
    rw [hschedule, Schedule.isScheduled_iff, Schedule.fireTime_reset, Option.isSome_map]
    exact FlatNet.isSome_lookup_timed hkeyed hfollows t
  indexed := hschedule ▸ Schedule.indexed_reset now timed

theorem Stays.inStep (h : sim.Stays after) (hnet : after.live.net = sim.live.net) (hstep : sim.InStep) :
    after.InStep where
  queued t := by
    rw [h.schedule, h.marking, hnet]
    exact hstep.queued t
  indexed := h.schedule ▸ hstep.indexed

theorem Starts.inStep (h : sim.Starts after) (hkeyed : sim.live.net.Keyed) : after.InStep := by
  obtain ⟨timed, hfollows, hschedule⟩ := h.anew
  exact inStep_of_reset (h.net ▸ hkeyed) hfollows hschedule

theorem indexed_left (h : sim.live.schedule.Indexed) (transition : String) :
    (sim.left transition).Indexed := by
  unfold left
  split
  · exact h.dequeue transition
  · exact h

/-- The schedule is in step again after every operation that is not refused. -/
theorem InStep.perform_ok (h : sim.InStep) (hkeyed : sim.live.net.Keyed) {operation : Operation}
    {answer : Option Firing} (hok : sim.perform operation = (after, .ok answer)) : after.InStep := by
  -- whatever schedule an operation leaves to be brought in step
  have hmoved : ∀ {s : Schedule}, s.Indexed → sim.Moves s after → after.InStep := by
    intro s hindexed hmoves
    obtain ⟨timed, hfollows, hschedule⟩ := hmoves.follows
    exact inStep_of_rebuild (hmoves.net ▸ hkeyed) hindexed hfollows hschedule
  cases operation with
  | fire t =>
    obtain ⟨hafter, hanswer⟩ := Prod.mk.inj hok
    obtain ⟨firing, hfiring, _⟩ := map_eq_ok.1 hanswer
    obtain ⟨_, hmoves, _⟩ := moves_fire (Prod.ext hafter hfiring)
    exact hmoved (indexed_left h.indexed t) hmoves
  | fireBackwards t =>
    obtain ⟨hafter, hanswer⟩ := Prod.mk.inj hok
    obtain ⟨firing, hfiring, _⟩ := map_eq_ok.1 hanswer
    exact hmoved h.indexed (moves_fireBackwards (Prod.ext hafter hfiring)).1
  | undo =>
    rcases moves_undo hok with rfl | ⟨hmoves, _⟩
    · exact h
    · exact hmoved h.indexed hmoves
  | reset =>
    obtain ⟨hafter, hanswer⟩ := Prod.mk.inj hok
    obtain ⟨⟨⟩, hreset, _⟩ := map_eq_ok.1 hanswer
    exact (starts_reset (Prod.ext hafter hreset)).inStep hkeyed
  | resync =>
    dsimp only [perform] at hok
    split at hok
    · cases hok
    · rename_i done hdone
      cases hok
      exact hmoved h.indexed (moves_resync hdone).1
  | advance time =>
    cases hok
    -- the clock says nothing about what is queued
    refine ⟨fun t => ?_, h.indexed.advance time⟩
    show (sim.live.schedule.advance time).isScheduled t = true ↔ _
    rw [Schedule.isScheduled_iff, Schedule.fireTime_advance]
    exact h.queued t

/-! ## Runs -/

/-- Is no operation of a run refused halfway? Each is carried out, or leaves everything as it was. -/
def Orderly (sim : Simulation) : List Operation → Prop
  | [] => True
  | operation :: rest =>
    ((∃ answer, (sim.perform operation).2 = .ok answer) ∨ sim.Stays (sim.perform operation).1) ∧
      (sim.perform operation).1.Orderly rest

/-- A firing that is refused leaves everything as it was, also when its handler has agreed. -/
theorem stays_of_fire {transition : String} {e : FiringError} (h : (sim.fire transition).2 = .error e) :
    sim.Stays (sim.fire transition).1 := by
  have hattempt := sim.attempt_fire transition
  generalize sim.fire transition = outcome at h hattempt ⊢
  cases hattempt with
  | refused => exact ⟨rfl, rfl, rfl⟩
  | declined => exact sim.stays_told ..
  | abandoned => exact sim.stays_told ..
  | made => cases h

theorem InStep.performAll (h : sim.InStep) (hkeyed : sim.live.net.Keyed) {operations : List Operation}
    (horderly : sim.Orderly operations) : (sim.performAll operations).InStep := by
  -- induction on the run, from its start on
  induction operations generalizing sim with
  | nil => exact h
  | cons operation rest ih =>
    obtain ⟨hnow, hlater⟩ := horderly
    have hnet := (sim.continues_perform operation).net
    refine ih ?_ (hnet ▸ hkeyed) hlater
    rcases hnow with ⟨answer, hok⟩ | hstays
    · exact h.perform_ok hkeyed (Prod.ext rfl hok)
    · exact hstays.inStep hnet h

/-- Something timed that is queued may fire now when it is enabled and its time has come. -/
theorem InStep.mem_enabled_iff (h : sim.InStep) (hkeyed : sim.live.net.Keyed)
    (htrusted : sim.cache.Trusted sim.live) {found : SortedSet String} (hfound : sim.enabled.2 = .ok found)
    {t : String} (htimed : sim.live.net.isTimed t = true) {time : UInt64}
    (htime : sim.live.schedule.fireTime t = some time) : t ∈ found ↔ time ≤ sim.now := by
  rw [mem_found_iff htrusted hfound]
  -- what is queued is enabled, and no priority keeps a timed transition back
  have hpermitted : sim.live.net.Permitted sim.marking t := by
    have hqueued : sim.live.schedule.isScheduled t = true := by
      rw [Schedule.isScheduled_iff, htime]
      rfl
    obtain ⟨_, henabled⟩ := (h.queued t).1 hqueued
    cases hget : sim.live.net.transitions.get? t with
    | none => simp [FlatNet.isTimed, hget] at htimed
    | some flat =>
      refine ⟨flat, List.mem_map_of_mem (Table.get?_eq_some_iff.1 hget), hkeyed t flat hget, henabled, Or.inl ?_⟩
      simpa [FlatNet.isTimed, hget] using htimed
  have hdue : sim.live.mayFireNow t = true ↔ time ≤ sim.now := by
    rw [LiveNet.mayFireNow, htimed, Bool.not_true, Bool.false_or, Schedule.isDue_iff]
    simp [htime, now]
  rw [hdue]
  exact and_iff_right hpermitted

/-- As long as no operation is refused halfway, what is queued is what is timed and enabled. Whatever is said
to fire now is enabled then, and a timed transition that is enabled is said to fire now unless it waits for a
time to come. Nothing is said at all only when an enabling test of the marking fails. -/
theorem queued_iff_enabled {live : LiveNet} (hnet : live.net.Served) {chance : Chance} {startTime : UInt64}
    (hnew : Simulation.new live chance startTime = .ok sim) {operations : List Operation}
    (horderly : sim.Orderly operations) :
    let last := sim.performAll operations
    let enabled := fun t => last.live.net.isEnabled last.marking t = .ok true
    (∀ t, last.live.schedule.isScheduled t = true ↔ last.live.net.isTimed t = true ∧ enabled t) ∧
    (∀ found, last.enabled.2 = .ok found → ∀ t ∈ found, enabled t) ∧
    (∀ t, last.live.net.isTimed t = true → enabled t →
      ∃ time, last.live.schedule.fireTime t = some time ∧ time ∈ last.live.schedule.pending ∧
        ∀ found, last.enabled.2 = .ok found → (t ∉ found ↔ last.now < time)) ∧
    (∀ e, last.enabled.2 = .error e → last.live.net.enabled last.marking = .error e) := by
  intro last enabled
  have hstarts := Run.starts_new hnew
  have hkeyed : sim.live.net.Keyed := hstarts.net ▸ hnet.keyed
  have hstep : last.InStep := (hstarts.inStep hnet.keyed).performAll hkeyed horderly
  have hlast : last.live.net.Keyed := net_performAll sim operations ▸ hkeyed
  have htrusted : last.cache.Trusted last.live := trusted_performAll (Tracks.new hnew).trusted operations
  refine ⟨hstep.queued, ?_, ?_, ?_⟩
  · intro found hfound t ht
    rw [enabled_snd htrusted, map_eq_ok] at hfound
    obtain ⟨all, hall, rfl⟩ := hfound
    rw [SortedSet.mem_ofList, List.mem_filter, SortedSet.mem_toList, FlatNet.mem_candidates_iff hall] at ht
    obtain ⟨⟨_, _, _, henabled, _⟩, _⟩ := ht
    exact henabled
  · intro t htimed henabled
    have hqueued := (hstep.queued t).2 ⟨htimed, henabled⟩
    rw [Schedule.isScheduled_iff] at hqueued
    obtain ⟨time, htime⟩ := Option.isSome_iff_exists.1 hqueued
    refine ⟨time, htime, hstep.indexed.mem_pending_iff.2 ⟨t, htime⟩, fun found hfound => ?_⟩
    rw [hstep.mem_enabled_iff hlast htrusted hfound htimed htime]
    exact UInt64.not_le
  · intro e he
    rw [enabled_snd htrusted, map_eq_error, FlatNet.candidates, bind_eq_error] at he
    rcases he with hfails | ⟨_, _, hpure⟩
    · exact hfails
    · cases hpure

/-- The metronome is not due at first, so that its firing is refused. Later it fires, and waits again. -/
theorem queued_iff_enabled_metronome : ∃ live sim, FlatNet.Served live.net ∧
    Simulation.new live ⟨fun _ => 0, 0⟩ 0 = .ok sim ∧ sim.Orderly [.fire "T", .advance 5, .fire "T"] ∧
    let last := sim.performAll [.fire "T", .advance 5, .fire "T"]
    last.history.length = 1 ∧ last.live.schedule.isScheduled "T" = true ∧
      last.live.net.isEnabled last.marking "T" = .ok true := by
  have hrun : (LiveNet.ofTree Registry.empty 0 Run.metronome).2.map (fun live =>
      (Simulation.new live ⟨fun _ => 0, 0⟩ 0).toOption.map fun sim =>
        let early := sim.perform (.fire "T")
        let last := (early.1.advance 5).perform (.fire "T")
        (early.2.toOption.isSome, last.2.toOption.isSome, last.1.history.length,
          last.1.live.schedule.isScheduled "T")) = .ok (some (false, true, 1, true)) := by
    decide +kernel
  obtain ⟨live, hlive, houtcome⟩ := map_eq_ok.1 hrun
  simp only [Option.map_eq_some_iff, toOption_eq_some, Prod.mk.injEq] at houtcome
  obtain ⟨sim, hnew, hearly, hfires, hhistory, hqueued⟩ := houtcome
  have hserved : FlatNet.Served live.net := .ofTree (LiveNet.net_of_ofTree hlive)
  have horderly : sim.Orderly [.fire "T", .advance 5, .fire "T"] := by
    -- the first firing is refused and moves nothing
    have hrefused : sim.Stays (sim.fire "T").1 := by
      cases hanswer : (sim.fire "T").2 with
      | error e => exact stays_of_fire hanswer
      | ok firing =>
        rw [perform, hanswer] at hearly
        cases hearly
    obtain ⟨firing, hfiring⟩ := Option.isSome_iff_exists.1 hfires
    exact ⟨Or.inr hrefused, Or.inl ⟨none, rfl⟩, Or.inl ⟨firing, toOption_eq_some.1 hfiring⟩, trivial⟩
  obtain ⟨hsame, _⟩ := queued_iff_enabled hserved hnew horderly
  exact ⟨live, sim, hserved, hnew, horderly, hhistory, hqueued, ((hsame "T").1 hqueued).2⟩

end Simulation

end PetriTree
