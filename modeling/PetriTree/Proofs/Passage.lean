import PetriTree.Proofs.Change
import PetriTree.Proofs.Operation

/-!
# PetriTree — how operations move the marking

A marking is written in four ways: a firing moves tokens at ends of arcs, forwards or backwards, an undoing puts
back the counts of a record, and starting anew builds the marking that the net starts with. Everything else leaves
marking and history alone. In none of the four ways does it matter here whether the schedule followed.

Main results:
* `Simulation.Passage`, `passage_perform` — the four ways, for every operation;
* `Simulation.KeepsTo`, `KeepsTo.performAll` — tokens stay in places to which all arcs and the start keep.
-/

namespace PetriTree.Simulation

variable {sim after : Simulation}

/-! ## One operation -/

/-- How an operation moves the marking, and what it makes of the history. -/
inductive Passage (sim : Simulation) : Operation → Simulation → Prop
  | stays {operation : Operation} {after : Simulation}
      (other : operation ≠ .reset)
      (idle : operation = .undo → sim.history = [])
      (marking : after.marking = sim.marking)
      (history : after.history = sim.history) : Passage sim operation after
  /-- A firing is recorded; a backward firing may take a record out. -/
  | shifted {operation : Operation} {after : Simulation}
      (other : operation ≠ .undo ∧ operation ≠ .reset)
      (shifts : sim.live.net.Shifts sim.marking after.marking)
      (history : ∀ firing ∈ after.history,
        firing ∈ sim.history ∨ firing.changes = TokenChange.diff sim.marking after.marking) :
      Passage sim operation after
  | undone {last : Firing} {after : Simulation}
      (recorded : sim.history.getLast? = some last)
      (marking : after.marking = restore sim.marking last.changes)
      (history : after.history = sim.history.dropLast) : Passage sim .undo after
  | restarted {after : Simulation}
      (marking : after.marking = sim.live.net.initial)
      (history : after.history = []) : Passage sim .reset after

theorem Stays.passage {operation : Operation} (h : sim.Stays after)
    (hother : operation ≠ .undo ∧ operation ≠ .reset) : sim.Passage operation after :=
  .stays hother.2 (fun heq => absurd heq hother.1) h.marking h.history

theorem mem_of_mem_dropLast {history : List Firing} {transition : String} {firing : Firing}
    (h : firing ∈ dropLast history transition) : firing ∈ history := by
  unfold dropLast at h
  split at h
  · exact List.dropLast_subset _ h
  · exact h

theorem passage_fire (sim : Simulation) (transition : String) :
    sim.Passage (.fire transition) (sim.fire transition).1 := by
  have hother : Operation.fire transition ≠ .undo ∧ Operation.fire transition ≠ .reset := ⟨nofun, nofun⟩
  have hattempt := sim.attempt_fire transition
  generalize sim.fire transition = outcome at hattempt ⊢
  cases hattempt with
  | refused => exact Stays.passage ⟨rfl, rfl, rfl⟩ hother
  | declined => exact (sim.stays_told ..).passage hother
  | abandoned => exact (sim.stays_told ..).passage hother
  | made hoffers =>
    refine .shifted hother (FlatNet.shifts_of_fire hoffers.leads) fun firing hfiring => ?_
    rcases List.mem_append.1 hfiring with hfiring | hfiring
    · exact Or.inl hfiring
    · cases List.mem_singleton.1 hfiring
      exact Or.inr rfl

theorem passage_fireBackwards (sim : Simulation) (transition : String) :
    sim.Passage (.fireBackwards transition) (sim.fireBackwards transition).1 := by
  have hother : Operation.fireBackwards transition ≠ .undo ∧ Operation.fireBackwards transition ≠ .reset :=
    ⟨nofun, nofun⟩
  have hrewind := sim.rewind_fireBackwards transition
  generalize sim.fireBackwards transition = outcome at hrewind ⊢
  -- the marking has moved whether or not the schedule could follow
  cases hrewind with
  | refused => exact Stays.passage ⟨rfl, rfl, rfl⟩ hother
  | stranded hrewinds =>
    exact .shifted hother (FlatNet.shifts_of_fireBackwards hrewinds.leads) fun _ hfiring => Or.inl hfiring
  | made hrewinds =>
    exact .shifted hother (FlatNet.shifts_of_fireBackwards hrewinds.leads)
      fun _ hfiring => Or.inl (mem_of_mem_dropLast hfiring)

theorem passage_undo (sim : Simulation) : sim.Passage .undo sim.undo.1 := by
  have hundoing := sim.undoing_undo
  generalize sim.undo = outcome at hundoing ⊢
  cases hundoing with
  | idle hnone => exact .stays nofun (fun _ => hnone) rfl rfl
  | stranded hlast => exact .undone hlast rfl rfl
  | made hlast => exact .undone hlast rfl rfl

theorem passage_reset (sim : Simulation) : sim.Passage .reset sim.reset.1 := by
  have hrestart := sim.restart_reset
  generalize sim.reset = outcome at hrestart ⊢
  cases hrestart <;> exact .restarted rfl rfl

theorem passage_perform (sim : Simulation) (operation : Operation) :
    sim.Passage operation (sim.perform operation).1 := by
  cases operation with
  | fire transition => exact sim.passage_fire transition
  | fireBackwards transition => exact sim.passage_fireBackwards transition
  | undo => exact sim.passage_undo
  | reset => exact sim.passage_reset
  | resync =>
    dsimp only [perform]
    split
    · exact .stays nofun nofun rfl rfl
    · rename_i hafter
      obtain ⟨s, rfl⟩ := resync_eq_ok hafter
      exact .stays nofun nofun rfl rfl
  | advance time => exact .stays nofun nofun rfl rfl

/-! ## Places of a run -/

/-- Do the marking and the recorded changes keep to some places? -/
structure KeepsTo (sites : String → Prop) (sim : Simulation) : Prop where
  marking : ∀ place, sim.marking.contains place = true → sites place
  history : ∀ firing ∈ sim.history, ∀ change ∈ firing.changes, sites change.place

variable {sites : String → Prop}

theorem KeepsTo.passage {operation : Operation} (h : sim.KeepsTo sites) (hpassage : sim.Passage operation after)
    (hends : ∀ place, sim.live.net.IsEnd place → sites place)
    (hinitial : ∀ place, sim.live.net.initial.contains place = true → sites place) : after.KeepsTo sites := by
  cases hpassage with
  | stays _ _ hmarking hhistory => exact ⟨hmarking ▸ h.marking, hhistory ▸ h.history⟩
  | shifted _ hshifts hhistory =>
    refine ⟨fun place hplace => (hshifts.added place hplace).elim (h.marking place) (hends place), ?_⟩
    intro firing hfiring change hchange
    rcases hhistory firing hfiring with hold | hnew
    · exact h.history firing hold change hchange
    -- only counts at ends of arcs have changed
    · rw [hnew, TokenChange.mem_diff] at hchange
      exact hends _ (hshifts.changed _ _ (Ne.symm hchange.2.2))
  | undone hlast hmarking hhistory =>
    refine ⟨fun place hplace => ?_, fun firing hfiring => ?_⟩
    · rw [hmarking, contains_restore_iff] at hplace
      rcases hplace with hplace | ⟨change, hchange, rfl⟩
      · exact h.marking place hplace
      · exact h.history _ (List.mem_of_getLast? hlast) change hchange
    · exact h.history firing (List.dropLast_subset _ (hhistory ▸ hfiring))
  | restarted hmarking hhistory =>
    refine ⟨fun place hplace => hinitial place (hmarking ▸ hplace), fun firing hfiring => ?_⟩
    rw [hhistory] at hfiring
    cases hfiring

/-- Where all arcs and the initial marking keep to some places, every run does. -/
theorem KeepsTo.performAll (h : sim.KeepsTo sites) (hends : ∀ place, sim.live.net.IsEnd place → sites place)
    (hinitial : ∀ place, sim.live.net.initial.contains place = true → sites place)
    (operations : List Operation) : (sim.performAll operations).KeepsTo sites := by
  induction operations generalizing sim with
  | nil => exact h
  | cons operation rest ih =>
    have hnet : (sim.perform operation).1.live.net = sim.live.net := (sim.continues_perform operation).net
    exact ih (h.passage (sim.passage_perform operation) hends hinitial) (hnet ▸ hends) (hnet ▸ hinitial)

end PetriTree.Simulation
