import PetriTree.Proofs.Agreement
import PetriTree.Proofs.Timing

/-!
# PetriTree — undoing is the inverse of firing

Undoing does not compute a firing the other way round. It puts the counts back that the firing changed, as
they were recorded, whatever the weights would say by now. So it leads back to the marking that the firing
started from only because the marking it led to is the one that is held, and this must be so for the last
record whatever was fired, refused and undone since the record was made.

What carries it is the chain of markings that the records stand for. It begins with the initial marking, each
record says how the next marking of the chain differs from the one before, and the last marking is the one
that is held. A firing makes the chain longer by one, and undoing makes it shorter by one.

The marking that is held agrees with the end of the chain count for count, and nothing that a net is asked
tells such markings apart. They need not be equal. A flat net may have an arc that ends in a transition where
its place should be, as only a document can give it; firing then makes the transition a place of the marking,
and undoing puts a zero there and leaves it behind. When every arc has its end in a place, nothing is left.

Main results:
* `FlatNet.Echoes` — a marking and one with places left behind;
* `Simulation.Traces` — the markings that the records stand for;
* `Simulation.Stands`, `Stands.perform` — the marking that is held echoes the end of the chain;
* `Simulation.undo_inverts` — undoing `k` times goes back `k` firings, and is never refused;
* `Simulation.undo_leaves_place` — the start after one firing and one undoing, with a place too many.
-/

namespace PetriTree

namespace FlatNet

variable {net : FlatNet}

/-- The initial marking knows every place of the net, whatever delays its transitions were given. -/
theorem Served.contains_initial (h : net.Served) (place : String) :
    net.initial.contains place = net.places.contains place := by
  induction h with
  | ofTree htree => exact FlatNet.contains_initial htree place
  | setDelay _ hdelay ih =>
    rw [FlatNet.setDelay, bind_eq_ok] at hdelay
    obtain ⟨_, _, hafter⟩ := hdelay
    cases hafter
    exact ih

/-- Is the second marking the first one, but for places left behind in it? What is left behind are ends of arcs
that are no places of the net, and they hold nothing, as both markings have the same counts. -/
structure Echoes (net : FlatNet) (m other : Marking) : Prop where
  agrees : m.Agrees other
  kept : ∀ place, m.contains place = true → other.contains place = true
  left : ∀ place, other.contains place = true → m.contains place = true ∨
    net.IsEnd place ∧ net.places.contains place = false

namespace Echoes

variable {m other : Marking}

theorem refl (m : Marking) : net.Echoes m m := ⟨.refl m, fun _ => id, fun _ => Or.inl⟩

/-- When every arc has its end in a place, nothing is left behind. -/
theorem eq (h : net.Echoes m other) (hends : net.EndsInPlaces) : m = other := by
  refine h.agrees.eq fun place => Bool.eq_iff_iff.2 ⟨h.kept place, fun hplace => ?_⟩
  rcases h.left place hplace with hthere | ⟨⟨a, ha, rfl⟩, hnone⟩
  · exact hthere
  · rw [hends a ha] at hnone
    cases hnone

/-- Firing leaves behind nothing more: in both markings the same tokens are moved. -/
theorem fire (h : net.Echoes m other) {transition : String} {reached : Marking}
    (hfire : net.fire other transition = .ok reached) :
    ∃ target, net.fire m transition = .ok target ∧ net.Echoes target reached := by
  obtain ⟨target, htarget, hagrees⟩ := h.agrees.symm.fire hfire
  obtain ⟨moved, hreached, hsame⟩ := h.agrees.symm.moved_of_fire hfire htarget
  refine ⟨target, htarget, hagrees.symm, fun place hplace => ?_, fun place hplace => ?_⟩
  · exact (hreached place).2 (((hsame place).1 hplace).imp_left (h.kept place))
  · rcases (hreached place).1 hplace with hbefore | hmoved
    · exact (h.left place hbefore).imp_left fun hm => (hsame place).2 (Or.inl hm)
    · exact Or.inl ((hsame place).2 (Or.inr hmoved))

/-- Putting back what a firing changed leaves its places behind, if the net does not have them. -/
theorem restore {before : Marking} (h : net.Echoes m other) (hshifts : net.Shifts before m)
    (hbefore : ∀ place, net.places.contains place = true → before.contains place = true) :
    net.Echoes before (Simulation.restore other (TokenChange.diff before m)) := by
  have hleft : ∀ place, m.contains place = true → before.contains place = true ∨
      net.IsEnd place ∧ net.places.contains place = false := by
    intro place hplace
    rcases hshifts.added place hplace with hthere | hend
    · exact Or.inl hthere
    · by_cases hknown : net.places.contains place = true
      · exact Or.inl (hbefore place hknown)
      · exact Or.inr ⟨hend, Bool.eq_false_iff.2 hknown⟩
  refine ⟨fun place color => ?_, fun place hplace => ?_, fun place hplace => ?_⟩
  · exact (Simulation.tokens_restore_diff (fun p c => (h.agrees p c).symm) place color).symm
  · exact Simulation.contains_restore_iff.2 (Or.inl (h.kept place (hshifts.kept place hplace)))
  · rcases Simulation.contains_restore_iff.1 hplace with hother | ⟨change, hchange, rfl⟩
    · exact (h.left place hother).elim (hleft place) Or.inr
    · exact (TokenChange.contains_of_mem_diff hchange).elim Or.inl (hleft _)

end Echoes

end FlatNet

namespace Simulation

variable {net : FlatNet} {sim after : Simulation} {held : Nat → Marking}

/-! ## The markings of a history -/

/-- Does a history lead through these markings, from the initial one on, firing by firing? -/
structure Traces (net : FlatNet) (held : Nat → Marking) (history : List Firing) : Prop where
  initial : held 0 = net.initial
  fires : ∀ {i : Nat} {firing : Firing}, history[i]? = some firing →
    net.fire (held i) firing.transition = .ok (held (i + 1))
  differs : ∀ {i : Nat} {firing : Firing}, history[i]? = some firing →
    firing.changes = TokenChange.diff (held i) (held (i + 1))

namespace Traces

variable {history : List Firing}

theorem nil (h : held 0 = net.initial) : Traces net held [] where
  initial := h
  fires hfiring := by cases hfiring
  differs hfiring := by cases hfiring

/-- What is left when later firings are taken back. -/
theorem take (h : Traces net held history) (n : Nat) : Traces net held (history.take n) := by
  have hkept : ∀ {i : Nat} {firing : Firing}, (history.take n)[i]? = some firing → history[i]? = some firing := by
    intro i firing hfiring
    rw [List.getElem?_take] at hfiring
    split at hfiring
    · exact hfiring
    · cases hfiring
  exact ⟨h.initial, fun hfiring => h.fires (hkept hfiring), fun hfiring => h.differs (hkept hfiring)⟩

/-- One firing more. -/
theorem concat (h : Traces net held history) {firing : Firing} {reached : Marking}
    (hfires : net.fire (held history.length) firing.transition = .ok reached)
    (hdiffers : firing.changes = TokenChange.diff (held history.length) reached) :
    Traces net (Function.update held (history.length + 1) reached) (history ++ [firing]) := by
  -- up to the firing the markings are the ones of before
  have hbefore : ∀ {i}, i ≤ history.length → Function.update held (history.length + 1) reached i = held i := by
    intro i hi
    exact Function.update_of_ne (by omega) ..
  have hfiring : ∀ {i : Nat} {other : Firing}, (history ++ [firing])[i]? = some other →
      net.fire (Function.update held (history.length + 1) reached i) other.transition =
          .ok (Function.update held (history.length + 1) reached (i + 1)) ∧
        other.changes = TokenChange.diff (Function.update held (history.length + 1) reached i)
          (Function.update held (history.length + 1) reached (i + 1)) := by
    intro i other hother
    rcases Nat.lt_or_ge i history.length with hlt | hge
    · rw [List.getElem?_append_left hlt] at hother
      rw [hbefore (Nat.le_of_lt hlt), hbefore hlt]
      exact ⟨h.fires hother, h.differs hother⟩
    · rw [List.getElem?_append_right hge, List.getElem?_singleton] at hother
      split at hother
      · cases hother
        obtain rfl : i = history.length := by omega
        rw [hbefore (Nat.le_refl _), Function.update_self]
        exact ⟨hfires, hdiffers⟩
      · cases hother
  refine ⟨?_, fun hother => (hfiring hother).1, fun hother => (hfiring hother).2⟩
  rw [hbefore (Nat.zero_le _)]
  exact h.initial

/-- Firing takes no place out, so the markings of a history know every place of the net. -/
theorem contains (h : Traces net held history)
    (hinitial : ∀ place, net.initial.contains place = net.places.contains place) {i : Nat}
    (hi : i ≤ history.length) {place : String} (hplace : net.places.contains place = true) :
    (held i).contains place = true := by
  induction i with
  | zero => rw [h.initial, hinitial, hplace]
  | succ i ih =>
    have hfires := h.fires (List.getElem?_eq_getElem hi)
    exact (FlatNet.shifts_of_fire hfires).kept place (ih (Nat.le_of_succ_le hi))

end Traces

/-! ## Where a simulation stands -/

/-- Does the history of a simulation lead to the marking that is held, but for places left behind in it, through
markings to which the schedule can follow, from one that knows the places of the net? -/
structure Stands (net : FlatNet) (held : Nat → Marking) (sim : Simulation) : Prop where
  runs : sim.live.net = net
  knows : ∀ place, net.initial.contains place = net.places.contains place
  traces : Traces net held sim.history
  echoes : net.Echoes (held sim.history.length) sim.marking
  follows : ∀ i ≤ sim.history.length, ∃ timed, net.timed (held i) = .ok timed

namespace Stands

theorem new {live : LiveNet} (hnet : live.net.Served) {chance : Chance} {startTime : UInt64}
    (h : Simulation.new live chance startTime = .ok sim) : Stands live.net (fun _ => live.net.initial) sim := by
  obtain ⟨timed, htimed, rfl⟩ := new_eq_ok.1 h
  exact ⟨rfl, hnet.contains_initial, .nil rfl, .refl _, fun _ _ => ⟨timed, htimed⟩⟩

/-- What leaves marking and history alone stands where it stood. -/
theorem stay (h : Stands net held sim) (hnet : after.live.net = sim.live.net) (hmarking : after.marking = sim.marking)
    (hhistory : after.history = sim.history) : Stands net held after where
  runs := hnet.trans h.runs
  knows := h.knows
  traces := hhistory ▸ h.traces
  echoes := by
    rw [hhistory, hmarking]
    exact h.echoes
  follows := by
    rw [hhistory]
    exact h.follows

/-- Starting anew leaves the first marking of the chain. -/
theorem anew (h : Stands net held sim) (hnet : after.live.net = sim.live.net)
    (hmarking : after.marking = sim.live.net.initial) (hhistory : after.history = []) : Stands net held after where
  runs := hnet.trans h.runs
  knows := h.knows
  traces := hhistory ▸ .nil h.traces.initial
  echoes := by
    rw [hhistory, hmarking, h.runs, ← h.traces.initial]
    exact .refl _
  follows i hi := by
    rw [hhistory] at hi
    exact h.follows i (Nat.le_trans hi (Nat.zero_le _))

/-! ## Undoing -/

/-- Putting back what the last firing changed leads to the marking before it. -/
theorem rewound (h : Stands net held sim) {last : Firing} (hlast : sim.history.getLast? = some last) :
    net.Echoes (held (sim.history.length - 1)) (restore sim.marking last.changes) := by
  rw [List.getLast?_eq_getElem?] at hlast
  have hsome : sim.history.length - 1 < sim.history.length := (List.getElem?_eq_some_iff.1 hlast).1
  have hsucc : sim.history.length - 1 + 1 = sim.history.length := by omega
  have hfires := h.traces.fires hlast
  have hdiffers := h.traces.differs hlast
  rw [hsucc] at hfires hdiffers
  rw [hdiffers]
  exact h.echoes.restore (FlatNet.shifts_of_fire hfires) fun _ => h.traces.contains h.knows (Nat.sub_le ..)

/-- Undoing takes the last record away, and is never refused. -/
theorem undo (h : Stands net held sim) : Stands net held sim.undo.1 ∧
    sim.undo.1.history = sim.history.take (sim.history.length - 1) ∧ sim.undo.2 = .ok sim.history.getLast? := by
  have hundoing := sim.undoing_undo
  generalize sim.undo = outcome at hundoing ⊢
  cases hundoing with
  | idle hnone => simp [h, hnone]
  | @stranded last e hlast hstrands =>
    -- the schedule followed to that marking before
    obtain ⟨timed, htimed⟩ := h.follows _ (Nat.sub_le _ 1)
    have hsame : net.timed (held (sim.history.length - 1)) = net.timed (restore sim.marking last.changes) :=
      (h.rewound hlast).agrees.enabledAmong _
    rw [h.runs, ← hsame, htimed] at hstrands
    cases hstrands
  | @made last timed hlast hfollows =>
    have hrewound := h.rewound hlast
    have hhistory : sim.history.dropLast = sim.history.take (sim.history.length - 1) := List.dropLast_eq_take
    have hlength : sim.history.dropLast.length = sim.history.length - 1 := List.length_dropLast
    refine ⟨⟨h.runs, h.knows, ?_, ?_, ?_⟩, hhistory, hlast ▸ rfl⟩
    · show Traces net held sim.history.dropLast
      rw [hhistory]
      exact h.traces.take _
    · show net.Echoes (held sim.history.dropLast.length) _
      rw [hlength]
      exact hrewound
    · intro i hi
      exact h.follows i (Nat.le_trans hi (hlength ▸ Nat.sub_le ..))

/-! ## Firing -/

/-- A firing that is made leads on from the end of the chain. -/
theorem fire (h : Stands net held sim) (transition : String) : ∃ held', Stands net held' (sim.fire transition).1 := by
  have hattempt := sim.attempt_fire transition
  have hnet := (sim.continues_fire transition).net
  generalize sim.fire transition = outcome at hattempt hnet ⊢
  cases hattempt with
  | refused => exact ⟨held, h.stay rfl rfl rfl⟩
  | @declined reached =>
    have hstays := sim.stays_told transition reached
    exact ⟨held, h.stay hnet hstays.marking hstays.history⟩
  | @abandoned reached =>
    have hstays := sim.stays_told transition reached
    exact ⟨held, h.stay hnet hstays.marking hstays.history⟩
  | @made reached timed hoffers _ hfollows =>
    have hleads := hoffers.leads
    rw [h.runs] at hleads hfollows
    -- the marking that is held echoes the end of the chain, so that can be fired from as well
    obtain ⟨target, htarget, hechoes⟩ := h.echoes.fire hleads
    have htimed : net.timed target = .ok timed := (hechoes.agrees.enabledAmong _).trans hfollows
    have hlength : (sim.history ++ [sim.record transition reached]).length = sim.history.length + 1 := by simp
    refine ⟨Function.update held (sim.history.length + 1) target, hnet.trans h.runs, h.knows, ?_, ?_, ?_⟩
    · exact h.traces.concat htarget (h.echoes.agrees.symm.diff hechoes.agrees.symm)
    · show net.Echoes (Function.update held _ target (sim.history ++ [sim.record transition reached]).length) reached
      rw [hlength, Function.update_self]
      exact hechoes
    · intro i hi
      replace hi : i ≤ sim.history.length + 1 := hlength ▸ hi
      rcases Nat.lt_or_eq_of_le hi with hlt | rfl
      · rw [Function.update_of_ne (Nat.ne_of_lt hlt)]
        exact h.follows i (Nat.le_of_lt_succ hlt)
      · rw [Function.update_self]
        exact ⟨timed, htimed⟩

/-! ## Runs -/

theorem perform (h : Stands net held sim) {operation : Operation} (hforward : operation.isForward = true) :
    ∃ held', Stands net held' (sim.perform operation).1 := by
  cases operation with
  | fire transition => exact h.fire transition
  | fireBackwards transition => cases hforward
  | undo => exact ⟨held, h.undo.1⟩
  | reset =>
    refine ⟨held, ?_⟩
    show Stands net held sim.reset.1
    have hrestart := sim.restart_reset
    generalize sim.reset = outcome at hrestart ⊢
    cases hrestart with
    | stranded => exact h.anew rfl rfl rfl
    | made => exact h.anew rfl rfl rfl
  | resync =>
    dsimp only [Simulation.perform]
    split
    · exact ⟨held, h⟩
    · rename_i done hdone
      obtain ⟨s, rfl⟩ := resync_eq_ok hdone
      exact ⟨held, h.stay rfl rfl rfl⟩
  | advance time => exact ⟨held, h.stay rfl rfl rfl⟩

theorem performAll (h : Stands net held sim) {operations : List Operation}
    (hforward : ∀ operation ∈ operations, operation.isForward = true) :
    ∃ held', Stands net held' (sim.performAll operations) := by
  -- induction on the run; a firing makes the chain another one
  induction operations generalizing sim held with
  | nil => exact ⟨held, h⟩
  | cons operation rest ih =>
    obtain ⟨held', hstep⟩ := h.perform (hforward operation (List.mem_cons_self ..))
    exact ih hstep fun later hlater => hforward later (List.mem_cons_of_mem _ hlater)

/-- Undoing again and again goes down the chain. -/
theorem undoAll (h : Stands net held sim) (k : Nat) : let back := sim.performAll (List.replicate k .undo)
    Stands net held back ∧ back.history = sim.history.take (sim.history.length - k) := by
  induction k generalizing sim with
  | zero => simpa [Simulation.performAll] using h
  | succ k ih =>
    obtain ⟨hstands, hhistory, _⟩ := h.undo
    obtain ⟨hback, hrest⟩ := ih hstands
    refine ⟨hback, hrest.trans ?_⟩
    rw [hhistory, List.length_take, List.take_take]
    congr 1
    omega

end Stands

/-- In a run without backward firings the history stands for a chain of markings, from the initial one to the
one that is held: each record names the transition that leads from one to the next and what it changed.
Undoing is never refused, takes the last record away, and undoing `k` times goes back `k` markings, count for
count. What is held may know more than the chain only by ends of arcs that are no places of the net; when every
arc has its end in a place, the markings are the same ones. -/
theorem undo_inverts {live : LiveNet} (hnet : live.net.Served) {chance : Chance} {startTime : UInt64}
    (hnew : Simulation.new live chance startTime = .ok sim) {operations : List Operation}
    (hforward : ∀ operation ∈ operations, operation.isForward = true) :
    let last := sim.performAll operations
    ∃ held, Traces live.net held last.history ∧ live.net.Echoes (held last.history.length) last.marking ∧
      (live.net.EndsInPlaces → held last.history.length = last.marking) ∧
      ∀ k, let back := last.performAll (List.replicate k .undo)
        back.history = last.history.take (last.history.length - k) ∧
          live.net.Echoes (held (last.history.length - k)) back.marking ∧
          (live.net.EndsInPlaces → held (last.history.length - k) = back.marking) ∧
          back.undo.2 = .ok back.history.getLast? := by
  intro last
  obtain ⟨held, hlast⟩ := (Stands.new hnet hnew).performAll hforward
  refine ⟨held, hlast.traces, hlast.echoes, hlast.echoes.eq, fun k => ?_⟩
  intro back
  obtain ⟨hback, hhistory⟩ := hlast.undoAll k
  have hlength : back.history.length = last.history.length - k := by
    rw [hhistory, List.length_take]
    exact Nat.min_eq_left (Nat.sub_le ..)
  have hechoes : live.net.Echoes (held (last.history.length - k)) back.marking := hlength ▸ hback.echoes
  exact ⟨hhistory, hechoes, hechoes.eq, hback.undo.2.2⟩

/-- A transition that gives as many tokens as there are in the place that it takes one from. -/
def spreading : IncludeTree := Sample.single
  [Sample.place "P" 2, Sample.place "Q" 0, Sample.transition "T" Rate.one,
    Sample.arc "a" "P" "T" .placeToTransition "1", Sample.arc "b" "Q" "T" .transitionToPlace "#(P)"]

/-- The transition gives two tokens and then one. A third firing is refused, the second one is taken back and
made again; going back two firings leads to the marking of the start. -/
theorem undo_inverts_spreading : ∃ live sim, FlatNet.Served live.net ∧
    Simulation.new live ⟨fun _ => 0, 0⟩ 0 = .ok sim ∧
    let last := sim.performAll [.fire "T", .fire "T", .fire "T", .undo, .advance 7, .fire "T"]
    last.history.length = 2 ∧ last.marking.tokens "Q" defaultColor = Count.ofNat 3 ∧
      (last.performAll [.undo, .undo]).marking = live.net.initial := by
  have hrun : (LiveNet.ofTree Registry.empty 0 spreading).2.map (fun live =>
      (live.net.arcs.values.all fun a => live.net.places.contains a.arc.place,
        (Simulation.new live ⟨fun _ => 0, 0⟩ 0).toOption.map fun sim =>
          let last := sim.performAll [.fire "T", .fire "T", .fire "T", .undo, .advance 7, .fire "T"]
          (last.history.length, last.marking.tokens "Q" defaultColor))) =
      .ok (true, some (2, Count.ofNat 3)) := by
    decide +kernel
  obtain ⟨live, hlive, houtcome⟩ := map_eq_ok.1 hrun
  simp only [Option.map_eq_some_iff, toOption_eq_some, Prod.mk.injEq] at houtcome
  obtain ⟨harcs, sim, hnew, hlength, htokens⟩ := houtcome
  have hserved : FlatNet.Served live.net := .ofTree (LiveNet.net_of_ofTree hlive)
  have hends : live.net.EndsInPlaces := fun a ha => List.all_eq_true.1 harcs a ha
  have hforward : ∀ operation ∈ [Operation.fire "T", .fire "T", .fire "T", .undo, .advance 7, .fire "T"],
      operation.isForward = true := by decide
  obtain ⟨held, htraces, _, _, hback⟩ := undo_inverts hserved hnew hforward
  refine ⟨live, sim, hserved, hnew, hlength, htokens, ?_⟩
  obtain ⟨_, _, hexact, _⟩ := hback 2
  rw [hlength] at hexact
  exact (hexact hends).symm.trans htraces.initial

/-- Where an arc leads from one transition into another one, firing and undoing does not lead back to the marking
of the start: nothing is recorded any more, but no chain without records ends in the marking that is held. -/
theorem undo_leaves_place : ∃ live sim, (LiveNet.ofTree Registry.empty 0 StateSpace.misled).2 = .ok live ∧
    Simulation.new live ⟨fun _ => 0, 0⟩ 0 = .ok sim ∧
    let last := sim.performAll [.fire "U", .undo]
    last.history = [] ∧ ∀ held, Traces live.net held last.history → held last.history.length ≠ last.marking := by
  have hrun : (LiveNet.ofTree Registry.empty 0 StateSpace.misled).2.map (fun live =>
      (Simulation.new live ⟨fun _ => 0, 0⟩ 0).toOption.map fun sim =>
        let last := sim.performAll [.fire "U", .undo]
        (last.history.length, decide (live.net.initial = last.marking))) = .ok (some (0, false)) := by
    decide +kernel
  obtain ⟨live, hlive, houtcome⟩ := map_eq_ok.1 hrun
  simp only [Option.map_eq_some_iff, toOption_eq_some, Prod.mk.injEq, decide_eq_false_iff_not] at houtcome
  obtain ⟨sim, hnew, hlength, hleft⟩ := houtcome
  have hnone := List.length_eq_zero_iff.1 hlength
  refine ⟨live, sim, hlive, hnew, hnone, fun held htraces => ?_⟩
  rw [hlength, htraces.initial]
  exact hleft

end Simulation

end PetriTree
