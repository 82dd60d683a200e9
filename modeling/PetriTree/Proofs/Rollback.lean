import PetriTree.Proofs.Consent
import PetriTree.Simulation.Handling

/-!
# PetriTree — firings that fail

A firing can fail at six points: the transition is unknown, it cannot be determined what may fire, the transition
is not among that, its weights have no values, its handler refuses, and the schedule cannot follow. At the last
point the marking has been replaced already, and the transition has been taken out of the queue.

Wherever it fails, marking, schedule and history are left as they were. What is left behind is in two places that
nobody sees: the cache may have learned an answer, and a handler that was asked has heard of the firing. The
first makes no difference ever after. A firing that failed before any handler was asked can be struck out of a run,
and nothing that is done later shows it.

Main results:
* `Simulation.fire_eq_error` — all that a failed firing leaves behind;
* `Simulation.failed_firing_stays` — marking, schedule and history are what they were;
* `Simulation.handleAll_withCache` — what the cache remembers makes no difference to a run;
* `Simulation.failed_firing_unnoticed` — a failed firing of which no handler heard can be struck out.
-/

namespace PetriTree.Simulation

variable {sim after : Simulation} {transition : String} {e : FiringError}

/-! ## What is left behind -/

/-- The simulation with another cache. -/
def withCache (sim : Simulation) (cache : EnabledCache) : Simulation := { sim with cache := cache }

/-- Did the handler of a transition hear of a firing that failed? Either it refused, or it agreed and the schedule
could not follow. -/
def HeardInVain (sim : Simulation) (transition : String) (e : FiringError) (before after : Handler) : Prop :=
  ∃ reached, sim.live.net.fire sim.marking transition = .ok reached ∧
    after = before.hear (.fire transition reached) ∧
    ((∃ text, before.answer (.fire transition reached) = .error text ∧ e = .handler transition text) ∨
      before.answer (.fire transition reached) = .ok () ∧ sim.live.net.timed reached = .error e)

theorem told_of_none (reached : Marking) (h : sim.live.handlers.get? transition = none) :
    sim.told transition reached =
      (sim.withCache (sim.cache.candidates sim.live sim.marking).1, .ok ()) := by
  rw [told, askHandler_of_none reached (sim.live_enabled.symm ▸ h), enabled_fst]
  rfl

theorem told_of_some {handler : Handler} (reached : Marking)
    (h : sim.live.handlers.get? transition = some handler) : sim.told transition reached =
      ((sim.withCache (sim.cache.candidates sim.live sim.marking).1).withHandlers
          (sim.live.handlers.insert transition (handler.hear (.fire transition reached))),
        (handler.answer (.fire transition reached)).mapError (.handler transition)) := by
  rw [told, enabled_fst]
  exact askHandler_eq reached h

/-- All that a failed firing leaves behind. -/
theorem fire_eq_error (h : (sim.fire transition).2 = .error e) :
    ∃ cache handlers, (sim.fire transition).1 = (sim.withCache cache).withHandlers handlers ∧
      (cache = sim.cache ∨ cache = (sim.cache.candidates sim.live sim.marking).1) ∧
      (handlers = sim.live.handlers ∨ ∃ before after, sim.live.handlers.get? transition = some before ∧
        handlers = sim.live.handlers.insert transition after ∧ sim.HeardInVain transition e before after) := by
  have hattempt := sim.attempt_fire transition
  generalize sim.fire transition = outcome at h hattempt ⊢
  cases hattempt with
  | refused _ _ hcache => exact ⟨_, sim.live.handlers, rfl, hcache, Or.inl rfl⟩
  | @declined reached _ hoffers hanswer =>
    cases h
    cases hhandler : sim.live.handlers.get? transition with
    | none =>
      -- without a handler nobody refuses
      rw [told_of_none reached hhandler] at hanswer
      cases hanswer
    | some handler =>
      rw [told_of_some reached hhandler] at hanswer ⊢
      cases htext : handler.answer (.fire transition reached) with
      | ok =>
        rw [htext] at hanswer
        cases hanswer
      | error text =>
        rw [htext] at hanswer
        cases hanswer
        exact ⟨_, _, rfl, Or.inr rfl, Or.inr ⟨handler, _, rfl, rfl, reached, hoffers.leads, rfl,
          Or.inl ⟨text, htext, rfl⟩⟩⟩
  | @abandoned reached _ hoffers hanswer hstrands =>
    cases h
    cases hhandler : sim.live.handlers.get? transition with
    | none =>
      rw [told_of_none reached hhandler]
      exact ⟨_, sim.live.handlers, rfl, Or.inr rfl, Or.inl rfl⟩
    | some handler =>
      rw [told_of_some reached hhandler] at hanswer ⊢
      cases hagrees : handler.answer (.fire transition reached) with
      | error text =>
        rw [hagrees] at hanswer
        cases hanswer
      | ok =>
        exact ⟨_, _, rfl, Or.inr rfl, Or.inr ⟨handler, _, rfl, rfl, reached, hoffers.leads, rfl,
          Or.inr ⟨hagrees, hstrands⟩⟩⟩
  | made => cases h

/-- A cache that was asked what may fire, or was not, can be trusted as before. -/
theorem trusted_of_asked {cache : EnabledCache} (h : sim.cache.Trusted sim.live)
    (hcache : cache = sim.cache ∨ cache = (sim.cache.candidates sim.live sim.marking).1) :
    cache.Trusted sim.live := by
  rcases hcache with rfl | rfl
  · exact h
  · exact h.candidates (Or.inl rfl) sim.marking

/-- A cache that is trusted gives the same answers whatever it remembers. -/
theorem candidates_of_trusted {cache other : EnabledCache} {live : LiveNet} (h : cache.Trusted live)
    (hother : other.Trusted live) (m : Marking) :
    (cache.candidates live m).2 = (other.candidates live m).2 := by
  rw [EnabledCache.candidates_eq (h.agrees m), EnabledCache.candidates_eq (hother.agrees m)]

/-- A firing that fails leaves marking, schedule and history as they were, in whatever simulation it is tried.
Only what the cache remembers and the handlers may have moved, of those only the one of the transition, and that
only by hearing of this firing; and the cache gives the answers it gave before. -/
theorem failed_firing_stays (h : (sim.fire transition).2 = .error e) :
    let after := (sim.fire transition).1
    after.marking = sim.marking ∧ after.live.schedule = sim.live.schedule ∧ after.history = sim.history ∧
    (∃ cache handlers, after = (sim.withCache cache).withHandlers handlers) ∧
    (∀ t, after.live.handlers.get? t = sim.live.handlers.get? t ∨
      t = transition ∧ ∃ earlier later, sim.live.handlers.get? t = some earlier ∧
        after.live.handlers.get? t = some later ∧ sim.HeardInVain transition e earlier later) ∧
    (sim.cache.Trusted sim.live → ∀ m,
      (after.cache.candidates after.live m).2 = (sim.cache.candidates sim.live m).2) := by
  intro after
  obtain ⟨cache, handlers, hafter, hcache, hhandlers⟩ := fire_eq_error h
  have hafter : after = (sim.withCache cache).withHandlers handlers := hafter
  rw [hafter]
  refine ⟨rfl, rfl, rfl, ⟨cache, handlers, rfl⟩, fun t => ?_, fun htrusted m => ?_⟩
  · show handlers.get? t = _ ∨ _
    rcases hhandlers with rfl | ⟨earlier, later, hearlier, rfl, hheard⟩
    · exact Or.inl rfl
    · by_cases ht : t = transition
      · subst ht
        refine Or.inr ⟨rfl, earlier, later, hearlier, ?_, hheard⟩
        show (sim.live.handlers.insert t later).get? t = _
        rw [Table.get?_insert, if_pos rfl]
      · rw [Table.get?_insert, if_neg (Ne.symm ht)]
        exact Or.inl rfl
  · -- the handlers are nothing to the cache
    exact candidates_of_trusted (trusted_of_asked htrusted hcache) htrusted m

/-- A timed transition with a handler takes the token that another timed transition asks for its share of. -/
def recoiling : IncludeTree := Sample.single
  [Sample.place "P" 1, .transition ⟨"T", 1, .timed, Rate.one, 0, some "h"⟩,
    .transition ⟨"X", 1, .timed, Rate.one, 5, none⟩, Sample.arc "a" "P" "T" .placeToTransition "1",
    Sample.arc "b" "P" "X" .placeToTransition "1 / #(P)"]

/-- The handler agrees, and the schedule cannot follow to the empty place. The token is back then, and the
transition is queued for its old time. -/
theorem failed_firing_recoiling : ∃ live sim, (LiveNet.ofTree willing 0 recoiling).2 = .ok live ∧
    Simulation.new live ⟨fun _ => 0, 0⟩ 0 = .ok sim ∧
    (sim.fire "T").2 = .error (.evaluation "b" .divisionByZero) ∧
    ((sim.fire "T").1.live.handlers.get? "T").map Handler.agreed = some 1 ∧
    (sim.fire "T").1.marking = sim.marking ∧ sim.marking.tokens "P" defaultColor = Count.ofNat 1 ∧
    (sim.fire "T").1.live.schedule = sim.live.schedule ∧ sim.live.schedule.fireTime "T" = some 0 ∧
    (sim.fire "T").1.history = [] := by
  have hrun : (LiveNet.ofTree willing 0 recoiling).2.map (fun live =>
      (Simulation.new live ⟨fun _ => 0, 0⟩ 0).toOption.map fun sim =>
        (decide ((sim.fire "T").2 = .error (.evaluation "b" .divisionByZero) ∧ sim.history = []),
          ((sim.fire "T").1.live.handlers.get? "T").map Handler.agreed,
          sim.marking.tokens "P" defaultColor, sim.live.schedule.fireTime "T")) =
        .ok (some (true, some 1, Count.ofNat 1, some 0)) := by
    decide +kernel
  obtain ⟨live, hlive, houtcome⟩ := map_eq_ok.1 hrun
  simp only [Option.map_eq_some_iff, toOption_eq_some, Prod.mk.injEq, decide_eq_true_eq] at houtcome
  obtain ⟨sim, hnew, ⟨hfails, hhistory⟩, hagreed, htoken, htime⟩ := houtcome
  obtain ⟨hmarking, hschedule, hkept, -⟩ := failed_firing_stays hfails
  exact ⟨live, sim, hlive, hnew, hfails, Option.map_eq_some_iff.2 hagreed, hmarking, htoken, hschedule, htime,
    hkept.trans hhistory⟩

/-! ## What the cache remembers -/

@[simp] theorem live_withCache (cache : EnabledCache) : (sim.withCache cache).live = sim.live := rfl

@[simp] theorem marking_withCache (cache : EnabledCache) : (sim.withCache cache).marking = sim.marking := rfl

theorem history_withCache (cache : EnabledCache) : (sim.withCache cache).history = sim.history := rfl

theorem withCache_withCache (cache other : EnabledCache) :
    (sim.withCache cache).withCache other = sim.withCache other := rfl

@[simp] theorem withMarking_withCache (cache : EnabledCache) (m : Marking) :
    (sim.withCache cache).withMarking m = (sim.withMarking m).withCache cache := rfl

theorem unwound_withCache (cache : EnabledCache) (last : Firing) :
    (sim.withCache cache).unwound last = (sim.unwound last).withCache cache := rfl

theorem undo_of_last (sim : Simulation) {last : Firing} (h : sim.history.getLast? = some last) :
    sim.undo = match (sim.unwound last).resync with
      | .error e => (sim.unwound last, .error e)
      | .ok done => (done, .ok (some last)) := by
  rw [undo, h]
  rfl

theorem reset_eq (sim : Simulation) : sim.reset = match sim.live.net.timed sim.live.net.initial with
    | .error e => ({ sim.withMarking sim.live.net.initial with history := [] }, .error e)
    | .ok timed => ({ (sim.withMarking sim.live.net.initial).withSchedule (Schedule.reset sim.startTime timed) with
        history := [] }, .ok ()) := by
  have hrestart := sim.restart_reset
  generalize sim.reset = outcome at hrestart ⊢
  cases hrestart with
  | stranded hstrands => rw [hstrands]
  | made hfollows => rw [hfollows]

theorem trusted_withCache {cache : EnabledCache} (h : cache.Trusted sim.live) :
    (sim.withCache cache).cache.Trusted (sim.withCache cache).live := h

theorem askHandler_withCache (cache : EnabledCache) (reached : Marking) :
    (sim.withCache cache).askHandler transition reached =
      ((sim.askHandler transition reached).1.withCache cache, (sim.askHandler transition reached).2) := by
  cases hhandler : sim.live.handlers.get? transition with
  | none =>
    rw [askHandler_of_none reached hhandler]
    exact askHandler_of_none reached hhandler
  | some handler =>
    rw [askHandler_eq reached hhandler]
    exact askHandler_eq reached hhandler

theorem commit_withCache (cache : EnabledCache) (reached : Marking) :
    (sim.withCache cache).commit transition reached =
      ((sim.commit transition reached).1.withCache cache, (sim.commit transition reached).2) := by
  cases htimed : sim.live.net.timed reached with
  | error e =>
    rw [commit_of_error htimed]
    exact commit_of_error htimed
  | ok timed =>
    rw [commit_of_ok htimed]
    exact commit_of_ok htimed

theorem resync_withCache (cache : EnabledCache) :
    (sim.withCache cache).resync = sim.resync.map fun after => after.withCache cache := by
  rw [resync_eq, resync_eq]
  show (sim.live.net.timed sim.marking).map _ = _
  cases sim.live.net.timed sim.marking <;> rfl

/-- With caches that are both trusted, a firing ends in the same way. -/
theorem fire_withCache {cache : EnabledCache} (htrusted : sim.cache.Trusted sim.live)
    (hcache : cache.Trusted sim.live) (transition : String) : ∃ left, (sim.withCache cache).fire transition =
      ((sim.fire transition).1.withCache left, (sim.fire transition).2) := by
  have hours : sim.enabled = (sim.withCache (sim.cache.candidates sim.live sim.marking).1, sim.enabled.2) :=
    Prod.ext sim.enabled_fst rfl
  have htheirs : (sim.withCache cache).enabled =
      (sim.withCache (cache.candidates sim.live sim.marking).1, sim.enabled.2) := by
    refine Prod.ext (enabled_fst _) ?_
    rw [enabled_snd htrusted]
    exact enabled_snd (trusted_withCache hcache)
  generalize sim.enabled.2 = answer at hours htheirs
  cases hknown : sim.live.net.transitions.contains transition with
  | false => exact ⟨cache, by simp [fire, hknown]⟩
  | true =>
    refine ⟨(cache.candidates sim.live sim.marking).1, ?_⟩
    cases answer with
    | error e => simp [fire, hours, htheirs, hknown, withCache_withCache]
    | ok found =>
      by_cases hlisted : transition ∈ found
      · cases hreached : sim.live.net.fire sim.marking transition with
        | error e => simp [fire, hours, htheirs, hknown, hlisted, hreached, withCache_withCache]
        | ok reached =>
          simp only [fire, hours, htheirs, hknown, hlisted, hreached, live_withCache, marking_withCache,
            askHandler_withCache]
          cases (sim.askHandler transition reached).2 with
          | error e => simp [withCache_withCache]
          | ok => simp [commit_withCache, withCache_withCache]
      · simp [fire, hours, htheirs, hknown, hlisted, withCache_withCache]

/-- With caches that are both trusted, every operation ends in the same way. Only firings ask them. -/
theorem perform_withCache {cache : EnabledCache} (htrusted : sim.cache.Trusted sim.live)
    (hcache : cache.Trusted sim.live) (operation : Operation) : ∃ left, (sim.withCache cache).perform operation =
      ((sim.perform operation).1.withCache left, (sim.perform operation).2) := by
  cases operation with
  | fire t =>
    obtain ⟨left, hleft⟩ := fire_withCache htrusted hcache t
    exact ⟨left, by rw [perform, perform, hleft]⟩
  | fireBackwards t =>
    refine ⟨cache, ?_⟩
    cases hknown : sim.live.net.transitions.contains t with
    | false => simp [perform, fireBackwards, hknown]
    | true =>
      cases hbefore : sim.live.net.fireBackwards sim.marking t with
      | error e => simp [perform, fireBackwards, hknown, hbefore]
      | ok before =>
        simp only [perform, fireBackwards, hknown, hbefore, live_withCache, marking_withCache,
          withMarking_withCache, resync_withCache]
        cases (sim.withMarking before).resync <;> rfl
  | undo =>
    refine ⟨cache, ?_⟩
    cases hlast : sim.history.getLast? with
    | none => simp [perform, undo, history_withCache, hlast]
    | some last =>
      have htheirs := (sim.withCache cache).undo_of_last hlast
      rw [unwound_withCache, resync_withCache] at htheirs
      rw [perform, perform, htheirs, sim.undo_of_last hlast]
      cases (sim.unwound last).resync <;> rfl
  | reset =>
    refine ⟨cache, ?_⟩
    have htheirs := (sim.withCache cache).reset_eq
    rw [live_withCache] at htheirs
    rw [perform, perform, htheirs, reset_eq]
    cases sim.live.net.timed sim.live.net.initial <;> rfl
  | resync =>
    refine ⟨cache, ?_⟩
    rw [perform, perform, resync_withCache]
    cases sim.resync <;> rfl
  | advance time => exact ⟨cache, rfl⟩

/-! ## Runs -/

theorem trusted_handle (h : sim.cache.Trusted sim.live) (handling : Handling) :
    (sim.handle handling).cache.Trusted (sim.handle handling).live := by
  cases handling with
  | operate operation => exact (sim.continues_perform operation).trusted h
  | edit edit => exact h.edited edit

theorem trusted_handleAll (h : sim.cache.Trusted sim.live) (handlings : List Handling) :
    (sim.handleAll handlings).cache.Trusted (sim.handleAll handlings).live := by
  induction handlings generalizing sim with
  | nil => exact h
  | cons handling rest ih => exact ih (trusted_handle h handling)

/-- What the cache remembers makes no difference to a run. -/
theorem handleAll_withCache {cache : EnabledCache} (htrusted : sim.cache.Trusted sim.live)
    (hcache : cache.Trusted sim.live) (handlings : List Handling) : ∃ left,
      (sim.withCache cache).handleAll handlings = (sim.handleAll handlings).withCache left ∧
        left.Trusted (sim.handleAll handlings).live := by
  induction handlings generalizing sim cache with
  | nil => exact ⟨cache, rfl, hcache⟩
  | cons handling rest ih =>
    obtain ⟨left, hleft⟩ : ∃ left, (sim.withCache cache).handle handling =
        (sim.handle handling).withCache left := by
      cases handling with
      | operate operation =>
        obtain ⟨left, hleft⟩ := perform_withCache htrusted hcache operation
        exact ⟨left, congrArg Prod.fst hleft⟩
      | edit edit => exact ⟨cache, rfl⟩
    -- both caches can still be trusted after the step
    have hkept := trusted_handle (trusted_withCache hcache) handling
    rw [hleft] at hkept
    rw [handleAll, List.foldl_cons, hleft]
    exact ih (trusted_handle htrusted handling) hkept

/-- A failed firing of which no handler heard can be struck out of a run. What comes later ends in the same
simulation, save for what the cache remembers, and every operation has the same outcome. -/
theorem failed_firing_unnoticed {live : LiveNet} {chance : Chance} {startTime : UInt64}
    (hnew : Simulation.new live chance startTime = .ok sim) {earlier : List Handling}
    (hfails : ((sim.handleAll earlier).fire transition).2 = .error e)
    (hunheard : ((sim.handleAll earlier).fire transition).1.live.handlers = (sim.handleAll earlier).live.handlers)
    (later : List Handling) :
    let tried := sim.handleAll (earlier ++ .operate (.fire transition) :: later)
    let spared := sim.handleAll (earlier ++ later)
    (∃ cache, tried = spared.withCache cache) ∧
      ∀ operation, (tried.perform operation).2 = (spared.perform operation).2 := by
  intro tried spared
  have htrusted := trusted_handleAll (Tracks.new hnew).trusted earlier
  have hspared : spared = (sim.handleAll earlier).handleAll later := List.foldl_append
  have htried : tried = ((sim.handleAll earlier).fire transition).1.handleAll later := List.foldl_append
  generalize sim.handleAll earlier = before at hfails hunheard htrusted hspared htried
  obtain ⟨cache, handlers, hafter, hcache, -⟩ := fire_eq_error hfails
  rw [hafter] at hunheard
  have hsame : (before.fire transition).1 = before.withCache cache := by
    rw [hafter, show handlers = before.live.handlers from hunheard]
    rfl
  have hlearned : cache.Trusted before.live := trusted_of_asked htrusted hcache
  obtain ⟨left, hleft, hkept⟩ := handleAll_withCache htrusted hlearned later
  rw [htried, hsame, hspared, hleft]
  refine ⟨⟨left, rfl⟩, fun operation => ?_⟩
  obtain ⟨last, hlast⟩ := perform_withCache (trusted_handleAll htrusted later) hkept operation
  rw [hlast]

end PetriTree.Simulation
