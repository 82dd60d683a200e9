import PetriTree.Proofs.Change
import PetriTree.Proofs.Operation
import PetriTree.Proofs.StateSpace

/-!
# PetriTree — state spaces cover simulations

A state space ignores the clock, a simulation obeys it, so whatever a simulation fires is an edge of the
state space, and the markings it holds are nodes. Undoing is the one step that does not follow an edge.
It returns to a marking that was held before only if putting the changed counts back leaves no new
place behind, and that is so when every arc has its end in a place. A flat net need not have only such
arcs: the ends of an arc are each checked to be a place or a transition, whichever it should be.

Main results:
* `FlatNet.EndsInPlaces` — every arc has its end in a place;
* `Simulation.Retraces` — a history that leads back to the initial marking, firing by firing;
* `Simulation.Tracks`, `Tracks.perform`, `Tracks.performAll` — every operation keeps to such a history;
* `StateSpace.covers_runs` — the state space of a net with such arcs only covers every run;
* `StateSpace.undo_leaves_marking` — with another arc it need not.
-/

namespace PetriTree

/-! ## Places of markings -/

namespace Marking

theorem contains_addPlace (m : Marking) (place p : String) :
    (m.addPlace place).contains p = (decide (p = place) || m.contains p) := by
  unfold contains addPlace SortedMap.contains
  rw [SortedMap.get?_insert]
  by_cases h : p = place <;> simp [h]

theorem contains_putAll (m : Marking) (place : String) (counts : List (String × Count)) (p : String) :
    (m.putAll place counts).contains p = (decide (p = place) || m.contains p) := by
  rw [putAll, ← contains_addPlace]
  -- the place is added first, so that writing its counts adds none
  have hplace : (m.addPlace place).contains place = true := by
    rw [contains_addPlace, decide_eq_true rfl, Bool.true_or]
  generalize m.addPlace place = filled at hplace
  induction counts generalizing filled with
  | nil => rfl
  | cons e rest ih =>
    rw [List.foldl_cons]
    split
    · exact ih filled hplace
    · have hput := contains_put_of_contains hplace e.1 e.2
      exact (ih _ ((hput place).trans hplace)).trans (hput p)

theorem contains_ofPlaces (places : List (String × List (String × Count))) (p : String) :
    (ofPlaces places).contains p = decide (p ∈ places.map Prod.fst) := by
  have hfold : ∀ m : Marking, (places.foldl (fun m e => m.putAll e.1 e.2) m).contains p =
      (decide (p ∈ places.map Prod.fst) || m.contains p) := by
    induction places with
    | nil => simp
    | cons e rest ih =>
      intro m
      rw [List.foldl_cons, ih, contains_putAll, List.map_cons]
      by_cases hp : p = e.1
      · simp [hp]
      · simp [hp, beq_eq_false_iff_ne.2 hp]
  rw [ofPlaces, hfold]
  exact Bool.or_false _

end Marking

namespace FlatNet

variable {net : FlatNet} {m : Marking}

/-- Does every arc have its end in a place of the net? -/
def EndsInPlaces (net : FlatNet) : Prop := ∀ a ∈ net.arcs.values, net.places.contains a.arc.place = true

/-- The initial marking knows every place of the net. -/
theorem contains_initial {tree : IncludeTree} (h : FlatNet.ofTree tree = .ok net) (place : String) :
    net.initial.contains place = net.places.contains place := by
  obtain ⟨a, ha, hnet⟩ := compiledFrom_of_ofTree h
  have hids : ∀ e ∈ net.places.entries, e.2.id = e.1 := by
    rw [hnet.places]
    exact Assembly.place_id_of_joined ha
  have hnames : (net.places.values.map fun p => (p.id, p.tokens.entries)).map Prod.fst = net.places.names := by
    rw [Table.values, List.map_map, List.map_map]
    exact List.map_congr_left fun e he => hids e he
  rw [initial, Marking.contains_ofPlaces, hnames]
  exact Bool.eq_iff_iff.2 (by rw [decide_eq_true_iff]; exact Table.mem_names_iff)

/-- Firing keeps to the places of the net when every arc does. -/
theorem EndsInPlaces.contains_fire (h : net.EndsInPlaces) {transition : String} {after : Marking}
    (hm : ∀ place, m.contains place = net.places.contains place)
    (hfire : net.fire m transition = .ok after) (place : String) :
    after.contains place = m.contains place :=
  FlatNet.contains_fire hfire (fun a ha => (hm _).trans (h a ha)) place

end FlatNet

namespace Simulation

variable {net : FlatNet} {sim : Simulation}

/-! ## Histories -/

/-- Does a history lead back from a marking to the initial one, firing by firing? -/
inductive Retraces (net : FlatNet) : List Firing → Marking → Prop
  | initial : Retraces net [] net.initial
  | fired {history : List Firing} {before after : Marking} {transition : String} {time : UInt64} :
    Retraces net history before → net.Fires before transition after →
    Retraces net (history ++ [⟨transition, time, TokenChange.diff before after⟩]) after

theorem Retraces.reaches {history : List Firing} {m : Marking} (h : Retraces net history m) :
    net.Reaches net.initial m := by
  induction h with
  | initial => exact Relation.ReflTransGen.refl
  | fired _ hfires ih => exact ih.tail ⟨_, hfires⟩

theorem Retraces.contains {history : List Firing} {m : Marking} (h : Retraces net history m)
    (hends : net.EndsInPlaces) (hinitial : ∀ place, net.initial.contains place = net.places.contains place)
    (place : String) : m.contains place = net.places.contains place := by
  induction h generalizing place with
  | initial => exact hinitial place
  | fired _ hfires ih => exact (hends.contains_fire ih hfires.2 place).trans (ih place)

/-- Taking the last firing back leads to the marking it started from. -/
theorem Retraces.undo {history : List Firing} {last : Firing} {m : Marking} (h : Retraces net history m)
    (hlast : history.getLast? = some last) (hends : net.EndsInPlaces)
    (hinitial : ∀ place, net.initial.contains place = net.places.contains place) :
    Retraces net history.dropLast (restore m last.changes) := by
  cases h with
  | initial => cases hlast
  | @fired history before after transition time hbefore hfires =>
    rw [List.getLast?_concat] at hlast
    cases hlast
    have hsame := hends.contains_fire (hbefore.contains hends hinitial) hfires.2
    rw [List.dropLast_concat, restore_diff hsame]
    exact hbefore

/-! ## Operations -/

/-- Does a simulation run a net, with a cache to be trusted and a history that leads back to the start? -/
structure Tracks (net : FlatNet) (sim : Simulation) : Prop where
  runs : sim.live.net = net
  trusted : sim.cache.Trusted sim.live
  retraces : Retraces net sim.history sim.marking

/-- Neither the marking nor the schedule nor the handlers of a net make a difference to its cache. -/
theorem trusted_of_same {cache : EnabledCache} {live other : LiveNet} (h : cache.Trusted live)
    (hnet : other.net = live.net) (hstamp : other.stamp = live.stamp) : cache.Trusted other where
  version_le := fun stamp => by
    rw [hstamp]
    exact h.version_le stamp
  agrees := fun m found => by
    rw [hstamp, hnet]
    exact h.agrees m found

/-- Whatever is done, a cache that is trusted stays so. -/
theorem Continues.trusted {after : Simulation} (h : sim.Continues after) (htrusted : sim.cache.Trusted sim.live) :
    after.cache.Trusted after.live := by
  refine trusted_of_same ?_ h.net h.stamp
  rcases h.cache with hcache | hcache <;> rw [hcache]
  · exact htrusted
  · exact htrusted.candidates (Or.inl rfl) sim.marking

/-- And so it does over a whole run. -/
theorem trusted_performAll (h : sim.cache.Trusted sim.live) (operations : List Operation) :
    (sim.performAll operations).cache.Trusted (sim.performAll operations).live := by
  induction operations generalizing sim with
  | nil => exact h
  | cons operation rest ih => exact ih ((sim.continues_perform operation).trusted h)

theorem Tracks.continue {after : Simulation} (h : Tracks net sim) (hcontinues : sim.Continues after)
    (hretraces : Retraces net after.history after.marking) : Tracks net after where
  runs := hcontinues.net.trans h.runs
  trusted := hcontinues.trusted h.trusted
  retraces := hretraces

/-- What leaves marking and history alone keeps to the history. -/
theorem Stays.retraces {after : Simulation} (h : sim.Stays after) (hretraces : Retraces net sim.history sim.marking) :
    Retraces net after.history after.marking := by
  rw [h.history, h.marking]
  exact hretraces

theorem Tracks.new {live : LiveNet} {chance : Chance} {startTime : UInt64}
    (h : Simulation.new live chance startTime = .ok sim) : Tracks live.net sim := by
  obtain ⟨timed, _, rfl⟩ := new_eq_ok.1 h
  exact ⟨rfl, trusted_of_same (EnabledCache.trusted_empty live) rfl rfl, Retraces.initial⟩

/-- With a cache to be trusted, what may fire now are the candidates that the clock allows. -/
theorem enabled_snd (h : sim.cache.Trusted sim.live) : sim.enabled.2 =
    (sim.live.net.candidates sim.marking).map fun found =>
      SortedSet.ofList (found.toList.filter sim.live.mayFireNow) := by
  rw [← EnabledCache.candidates_eq (h.agrees sim.marking)]
  unfold Simulation.enabled
  split <;> rename_i hasked <;> rw [hasked] <;> rfl

/-- They are the transitions that the rule of priorities and the clock permit. -/
theorem mem_found_iff (h : sim.cache.Trusted sim.live) {found : SortedSet String} (hfound : sim.enabled.2 = .ok found)
    (transition : String) : transition ∈ found ↔
      sim.live.net.Permitted sim.marking transition ∧ sim.live.mayFireNow transition = true := by
  rw [enabled_snd h, map_eq_ok] at hfound
  obtain ⟨all, hall, rfl⟩ := hfound
  rw [SortedSet.mem_ofList, List.mem_filter, SortedSet.mem_toList, FlatNet.mem_candidates_iff hall]

/-- What is offered follows an edge of the net. -/
theorem Offers.fires {transition : String} {reached : Marking} (h : sim.Offers transition reached)
    (htrusted : sim.cache.Trusted sim.live) : sim.live.net.Fires sim.marking transition reached := by
  obtain ⟨found, hfound, hmem⟩ := h.listed
  rw [enabled_snd htrusted, map_eq_ok] at hfound
  obtain ⟨all, hall, rfl⟩ := hfound
  rw [SortedSet.mem_ofList, List.mem_filter, SortedSet.mem_toList] at hmem
  exact ⟨⟨all, hall, hmem.1⟩, h.leads⟩

/-- A transition that fires is one that may fire, and leads to the marking that is held then. -/
theorem Tracks.fire (h : Tracks net sim) (transition : String) : Tracks net (sim.fire transition).1 ∧
    ∀ firing, (sim.fire transition).2 = .ok firing →
      net.Fires sim.marking transition (sim.fire transition).1.marking := by
  have hcontinues := sim.continues_fire transition
  have hattempt := sim.attempt_fire transition
  generalize sim.fire transition = outcome at hcontinues hattempt ⊢
  -- a refusal promises nothing about the marking
  have hrefused : ∀ {after : Simulation} {e : FiringError}, sim.Continues after → sim.Stays after →
      Tracks net after ∧ ∀ firing, (Except.error e : Except FiringError Firing) = .ok firing →
        net.Fires sim.marking transition after.marking := by
    intro after e hsame hstays
    exact ⟨h.continue hsame (hstays.retraces h.retraces), fun firing hfiring => by cases hfiring⟩
  cases hattempt with
  | refused => exact hrefused hcontinues ⟨rfl, rfl, rfl⟩
  | declined => exact hrefused hcontinues (sim.stays_told ..)
  | abandoned => exact hrefused hcontinues (sim.stays_told ..)
  | made hoffers =>
    have hfires : net.Fires sim.marking transition _ := h.runs ▸ hoffers.fires h.trusted
    exact ⟨h.continue hcontinues (h.retraces.fired hfires), fun _ _ => hfires⟩

theorem Tracks.undo (h : Tracks net sim) (hends : net.EndsInPlaces)
    (hinitial : ∀ place, net.initial.contains place = net.places.contains place) :
    Tracks net sim.undo.1 := by
  refine h.continue (sim.continues_perform .undo) ?_
  have hundoing := sim.undoing_undo
  generalize sim.undo = outcome at hundoing ⊢
  -- the firing stays undone when the schedule is refused
  cases hundoing with
  | idle => exact h.retraces
  | stranded hlast => exact h.retraces.undo hlast hends hinitial
  | made hlast => exact h.retraces.undo hlast hends hinitial

/-- Starting anew forgets the history; the old marking does not matter. -/
theorem Tracks.reset (h : Tracks net sim) : Tracks net sim.reset.1 := by
  refine h.continue (sim.continues_perform .reset) ?_
  have hrestart := sim.restart_reset
  generalize sim.reset = outcome at hrestart ⊢
  -- whether the timing starts anew or is refused, the marking is the initial one
  cases hrestart <;> exact h.runs ▸ Retraces.initial

/-- Is an operation none that fires backwards? -/
def Operation.isForward : Operation → Bool
  | .fireBackwards _ => false
  | .fire _ | .undo | .reset | .resync | .advance _ => true

theorem Tracks.perform (h : Tracks net sim) (hends : net.EndsInPlaces)
    (hinitial : ∀ place, net.initial.contains place = net.places.contains place) {operation : Operation}
    (hforward : operation.isForward = true) : Tracks net (sim.perform operation).1 := by
  cases operation with
  | fire transition => exact (h.fire transition).1
  | fireBackwards transition => cases hforward
  | undo => exact h.undo hends hinitial
  | reset => exact h.reset
  | resync =>
    refine h.continue (sim.continues_perform .resync) ?_
    dsimp only [Simulation.perform]
    split
    · exact h.retraces
    · rename_i after hafter
      obtain ⟨s, rfl⟩ := resync_eq_ok hafter
      exact h.retraces
  | advance time => exact h.continue (sim.continues_perform (.advance time)) h.retraces

theorem Tracks.performAll (h : Tracks net sim) (hends : net.EndsInPlaces)
    (hinitial : ∀ place, net.initial.contains place = net.places.contains place)
    {operations : List Operation} (hforward : ∀ operation ∈ operations, operation.isForward = true) :
    Tracks net (sim.performAll operations) := by
  induction operations generalizing sim with
  | nil => exact h
  | cons operation rest ih =>
    refine ih (h.perform hends hinitial (hforward operation (List.mem_cons_self ..))) ?_
    exact fun later hlater => hforward later (List.mem_cons_of_mem _ hlater)

end Simulation

/-! ## Coverage -/

namespace StateSpace

variable {net : FlatNet}

/-- When the state space from the initial marking is complete, and every arc has its end in a place, then
whatever a simulation does short of firing backwards, the marking it holds is a node, and every firing
that succeeds is part of an edge. -/
theorem covers_runs {tree : IncludeTree} (hnet : FlatNet.ofTree tree = .ok net) (hends : net.EndsInPlaces)
    {nets : List LiveNet} (hdistinct : (nets.map fun live => live.stamp.instanceId).Nodup)
    (requests : List Request) {explored : LiveNet}
    (hexplored : explored ∈ ((Session.start nets).performAll requests).nets)
    (hruns : explored.net = net) (hstart : explored.marking = net.initial) (bound : Nat)
    {space : StateSpace} (hspace : (explore explored bound ((Session.start nets).performAll requests).cache).2 = space)
    (hcut : space.isTruncated = false) (hfailures : space.failures = [])
    {live : LiveNet} (hlive : live.net = net) {chance : Chance} {startTime : UInt64} {sim : Simulation}
    (hnew : Simulation.new live chance startTime = .ok sim) {operations : List Simulation.Operation}
    (hforward : ∀ operation ∈ operations, operation.isForward = true) :
    (sim.performAll operations).marking ∈ space.markings ∧
      ∀ transition firing, ((sim.performAll operations).fire transition).2 = .ok firing →
        ∃ e ∈ space.edges, space.markings[e.source]? = some (sim.performAll operations).marking ∧
          space.markings[e.target]? = some ((sim.performAll operations).fire transition).1.marking ∧
          transition ∈ e.transitions := by
  subst hruns
  have htrusted := ((Session.sound_start hdistinct).performAll requests).trusted explored hexplored
  have hexact := exact_of_trusted htrusted bound
  rw [hstart, hspace] at hexact
  have htracks : Simulation.Tracks explored.net (sim.performAll operations) :=
    (hlive ▸ Simulation.Tracks.new hnew).performAll hends (FlatNet.contains_initial hnet) hforward
  have hreached := htracks.retraces.reaches
  refine ⟨((hexact.complete hcut hfailures).1 _).2 hreached, fun transition firing hfiring => ?_⟩
  exact hexact.exists_edge hcut hfailures hreached ((htracks.fire transition).2 firing hfiring)

/-- The simulation that starts at time zero, with a chance that is not asked. -/
def started (live : LiveNet) : Except FiringError Simulation := Simulation.new live ⟨fun _ => 0, 0⟩ 0

/-- The token is handed over, that is taken back, the clock moves, and the token is handed over again. -/
theorem covers_runs_handover : ∃ net live sim, FlatNet.ofTree handover = .ok net ∧ net.EndsInPlaces ∧
    (LiveNet.ofTree Registry.empty 0 handover).2 = .ok live ∧ started live = .ok sim ∧
    let space := (explore live 2 EnabledCache.empty).2
    space.isTruncated = false ∧ space.failures = [] ∧
      (sim.performAll [.fire "T", .undo, .advance 7, .fire "T"]).marking ∈ space.markings := by
  have hrun : (LiveNet.ofTree Registry.empty 0 handover).2.map (fun live =>
      let space := (explore live 2 EnabledCache.empty).2
      (decide (live.marking = live.net.initial),
        live.net.arcs.values.all fun a => live.net.places.contains a.arc.place,
        (started live).toOption.isSome, space.isTruncated, space.failures.length)) =
      .ok (true, true, true, false, 0) := by
    decide +kernel
  obtain ⟨live, hlive, houtcome⟩ := map_eq_ok.1 hrun
  simp only [Prod.mk.injEq, decide_eq_true_eq] at houtcome
  obtain ⟨hstart, harcs, hstarted, hcut, hfailures⟩ := houtcome
  obtain ⟨sim, hsim⟩ := Option.isSome_iff_exists.1 hstarted
  have hnet := LiveNet.net_of_ofTree hlive
  have hends : live.net.EndsInPlaces := fun a ha => List.all_eq_true.1 harcs a ha
  have hnone := List.length_eq_zero_iff.1 hfailures
  have hdistinct : ([live].map fun live => live.stamp.instanceId).Nodup := List.nodup_singleton _
  have hforward : ∀ operation ∈ [Simulation.Operation.fire "T", .undo, .advance 7, .fire "T"],
      operation.isForward = true := by decide
  have hcovers := covers_runs hnet hends hdistinct [] (List.mem_singleton.2 rfl) rfl hstart 2 rfl hcut hnone
    rfl (toOption_eq_some.1 hsim) hforward
  exact ⟨live.net, live, sim, hnet, hends, hlive, toOption_eq_some.1 hsim, hcut, hnone, hcovers.1⟩

/-- A net as a document may give it: an arc leads out of one transition and into another one. -/
def misled : IncludeTree :=
  let net := Sample.netOf
    [Sample.place "P" 1, Sample.transition "T" Rate.one, Sample.transition "U" Rate.one,
      Sample.arc "a" "P" "U" .placeToTransition "1"]
  let misled : Arc := ⟨"b", "T", "U", .transitionToPlace, .normal, Table.empty.insert defaultColor "1", []⟩
  IncludeTree.new { net with arcs := net.arcs.insert "b" misled } "root"

/-- Firing puts a token under the id of a transition, and undoing leaves that id behind as a place that
holds nothing: a marking that no firing leads to. -/
theorem undo_leaves_marking : ∃ live sim, (LiveNet.ofTree Registry.empty 0 misled).2 = .ok live ∧
    started live = .ok sim ∧ live.marking = live.net.initial ∧
    let space := (explore live 10 EnabledCache.empty).2
    space.isTruncated = false ∧ space.failures.length = 0 ∧
      (sim.performAll [.fire "U", .undo]).marking ∉ space.markings := by
  have hrun : (LiveNet.ofTree Registry.empty 0 misled).2.map (fun live =>
      let space := (explore live 10 EnabledCache.empty).2
      (decide (live.marking = live.net.initial), space.isTruncated, space.failures.length,
        (started live).toOption.map fun sim =>
          decide ((sim.performAll [.fire "U", .undo]).marking ∈ space.markings))) =
      .ok (true, false, 0, some false) := by
    decide +kernel
  obtain ⟨live, hlive, houtcome⟩ := map_eq_ok.1 hrun
  simp only [Prod.mk.injEq, decide_eq_true_eq, Option.map_eq_some_iff, toOption_eq_some,
    decide_eq_false_iff_not] at houtcome
  obtain ⟨hstart, hcut, hfailures, sim, hsim, hleft⟩ := houtcome
  exact ⟨live, sim, hlive, hsim, hstart, hcut, hfailures, hleft⟩

end StateSpace

end PetriTree
