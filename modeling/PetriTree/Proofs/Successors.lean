import PetriTree.Proofs.Reachability
import PetriTree.Proofs.Rollback

/-!
# PetriTree — successors and what may fire now

Two questions are asked about the same candidates. A state space asks for the successors of a marking: it leaves
out the transitions that the clock holds back, fires the others, and groups them by the marking each leads to. A
simulation asks what may fire now: it leaves out the transitions that the clock holds back, and fires nothing until
one of them is chosen. The two ways to filter are written down apart, and the simulation fires through a chain of
further steps that ask again.

When the first question has an answer, the groups sort the transitions that it is about: each of them is in one
group, also where several lead to the same marking, and no group is empty. They are then the very transitions that
the second question finds, and choosing one of them leads to the marking of its group, if its handler agrees and
the schedule can follow.

Main results:
* `FlatNet.Sorts` — groups that sort some transitions by the markings they lead to;
* `EnabledCache.sorts_of_successors` — successors sort the permitted transitions that the clock allows;
* `Simulation.mem_enabled_iff_grouped` — these are what may fire now;
* `Simulation.marking_of_fire` — a firing that is made leads where the net says;
* `Simulation.successors_sorted` — for every session and every run.
-/

namespace PetriTree

namespace FlatNet

variable {net : FlatNet} {m : Marking}

/-- Do groups sort some transitions by the marking that each of them leads to? Every transition in a group leads to
the marking of the group, no group is empty, the transitions in groups are those that are asked about, and none of
them is in two groups. -/
structure Sorts (net : FlatNet) (m : Marking) (groups : SortedMap Marking (SortedSet String))
    (chosen : String → Prop) : Prop where
  leads : ∀ after transition, Grouped groups after transition → net.fire m transition = .ok after
  nonempty : ∀ after group, groups.get? after = some group → ∃ transition, transition ∈ group
  covers : ∀ transition, chosen transition ↔ ∃ after, Grouped groups after transition
  apart : ∀ transition after after', Grouped groups after transition → Grouped groups after' transition →
    after = after'

/-- Grouping transitions sorts them. -/
theorem sorts_of_groupByTarget {ts : List String} {groups : SortedMap Marking (SortedSet String)}
    (h : EnabledCache.groupByTarget net m SortedMap.empty ts = .ok groups) :
    net.Sorts m groups fun transition => transition ∈ ts := by
  have hnone : ∀ after transition, ¬ Grouped SortedMap.empty after transition := by
    rintro after transition ⟨group, hgroup, _⟩
    cases hgroup
  have hgrouped : ∀ after transition, Grouped groups after transition ↔
      transition ∈ ts ∧ net.fire m transition = .ok after := by
    intro after transition
    rw [groupByTarget_eq_ok h, or_iff_right (hnone after transition)]
  constructor
  · intro after transition hmem
    exact ((hgrouped after transition).1 hmem).2
  · exact groupByTarget_nonempty h fun _ _ hgroup => by cases hgroup
  · intro transition
    constructor
    · -- one that did not lead anywhere would have spoiled the answer
      intro hmem
      obtain ⟨after, hafter⟩ := groupByTarget_ok_iff.1 ⟨groups, h⟩ transition hmem
      exact ⟨after, (hgrouped after transition).2 ⟨hmem, hafter⟩⟩
    · rintro ⟨after, hmem⟩
      exact ((hgrouped after transition).1 hmem).1
  · intro transition after after' hmem hmem'
    have hfire := ((hgrouped after transition).1 hmem).2
    rw [((hgrouped after' transition).1 hmem').2] at hfire
    cases hfire
    rfl

theorem Sorts.congr {groups : SortedMap Marking (SortedSet String)} {chosen other : String → Prop}
    (h : net.Sorts m groups chosen) (hiff : ∀ transition, chosen transition ↔ other transition) :
    net.Sorts m groups other where
  leads := h.leads
  nonempty := h.nonempty
  covers := fun transition => (hiff transition).symm.trans (h.covers transition)
  apart := h.apart

end FlatNet

/-! ## The state space's question -/

namespace EnabledCache

variable {cache : EnabledCache} {live : LiveNet} {m : Marking} {early : Bool}
  {groups : SortedMap Marking (SortedSet String)}

/-- What a transition needs to be among the successors: the rule of priorities permits it, and the clock allows it
or is not asked. -/
def Due (live : LiveNet) (m : Marking) (early : Bool) (transition : String) : Prop :=
  live.net.Permitted m transition ∧
    (early = true ∨ live.net.isTimed transition = false ∨ live.schedule.isDue transition = true)

theorem allowed_iff {transition : String} : (early || live.mayFireNow transition) = true ↔
    early = true ∨ live.net.isTimed transition = false ∨ live.schedule.isDue transition = true := by
  rw [LiveNet.mayFireNow, Bool.or_eq_true, Bool.or_eq_true, Bool.not_eq_true']

/-- The successors sort the permitted transitions that the clock allows. -/
theorem sorts_of_successors (hagrees : cache.Agrees live m) (h : (cache.successors live m early).2 = .ok groups) :
    live.net.Sorts m groups (Due live m early) := by
  rw [successors_eq hagrees, bind_eq_ok] at h
  obtain ⟨found, hfound, hgroups⟩ := h
  refine (FlatNet.sorts_of_groupByTarget hgroups).congr fun transition => ?_
  rw [List.mem_filter, SortedSet.mem_toList, FlatNet.mem_candidates_iff hfound, allowed_iff]
  exact Iff.rfl

end EnabledCache

/-! ## The simulation's question -/

namespace Simulation

variable {sim : Simulation} {groups : SortedMap Marking (SortedSet String)}

/-- What may fire now are the permitted transitions that the clock allows. -/
theorem mem_enabled_iff_due (htrusted : sim.cache.Trusted sim.live) {found : SortedSet String}
    (h : sim.enabled.2 = .ok found) (transition : String) :
    transition ∈ found ↔ EnabledCache.Due sim.live sim.marking false transition := by
  rw [mem_found_iff htrusted h, ← Bool.false_or (sim.live.mayFireNow transition), EnabledCache.allowed_iff]
  exact Iff.rfl

/-- When the successors of the marking are known, it is known what may fire now, and both are the same. It makes no
difference whose cache was asked for the successors. -/
theorem mem_enabled_iff_grouped (htrusted : sim.cache.Trusted sim.live) {cache : EnabledCache}
    (hcache : cache.Trusted sim.live) (h : (cache.successors sim.live sim.marking false).2 = .ok groups) :
    ∃ found, sim.enabled.2 = .ok found ∧
      ∀ transition, transition ∈ found ↔ ∃ after, FlatNet.Grouped groups after transition := by
  have hsorts := EnabledCache.sorts_of_successors (hcache.agrees _) h
  rw [EnabledCache.successors_eq (hcache.agrees _), bind_eq_ok] at h
  obtain ⟨all, hall, _⟩ := h
  -- both questions look up the same candidates
  obtain ⟨found, hfound⟩ : ∃ found, sim.enabled.2 = .ok found := by
    rw [enabled_snd htrusted, hall]
    exact ⟨_, rfl⟩
  refine ⟨found, hfound, fun transition => ?_⟩
  rw [mem_enabled_iff_due htrusted hfound, hsorts.covers]

/-- A firing that is made leads to the marking that the net says, whatever the handler and the schedule had to say
on the way. -/
theorem marking_of_fire {transition : String} {firing : Firing} (h : (sim.fire transition).2 = .ok firing) :
    sim.live.net.fire sim.marking transition = .ok (sim.fire transition).1.marking := by
  have hattempt := sim.attempt_fire transition
  generalize sim.fire transition = outcome at h hattempt ⊢
  cases hattempt with
  | refused => cases h
  | declined => cases h
  | abandoned => cases h
  | made hoffers => exact hoffers.leads

/-- The successors of a marking sort the transitions that the rule of priorities permits there: all of them, or
those that are immediate or due. This holds of every net of a session, whatever was asked and edited before. In a
simulation, whatever was done with it, the transitions in the groups of its marking are those that may fire now,
and firing one of them leads to the marking of its group, if it does not fail. For this it does not matter which
cache was asked for the successors: that of the simulation can be trusted about its net, and so can a fresh one. -/
theorem successors_sorted {nets : List LiveNet} (hdistinct : (nets.map fun live => live.stamp.instanceId).Nodup)
    (requests : List Request) {live : LiveNet} {chance : Chance} {startTime : UInt64} {sim : Simulation}
    (hnew : Simulation.new live chance startTime = .ok sim) (handlings : List Handling) :
    let session := (Session.start nets).performAll requests
    let last := sim.handleAll handlings
    (∀ asked ∈ session.nets, ∀ m early groups, (session.cache.successors asked m early).2 = .ok groups →
      asked.net.Sorts m groups fun transition => asked.net.Permitted m transition ∧
        (early = true ∨ asked.net.isTimed transition = false ∨ asked.schedule.isDue transition = true)) ∧
    last.cache.Trusted last.live ∧ EnabledCache.empty.Trusted last.live ∧
    ∀ cache : EnabledCache, cache.Trusted last.live →
      ∀ groups, (cache.successors last.live last.marking false).2 = .ok groups →
        (∃ found, last.enabled.2 = .ok found ∧
          ∀ transition, transition ∈ found ↔ ∃ after, FlatNet.Grouped groups after transition) ∧
        ∀ after transition, FlatNet.Grouped groups after transition →
          ∀ firing, (last.fire transition).2 = .ok firing → (last.fire transition).1.marking = after := by
  intro session last
  have htrusted : last.cache.Trusted last.live := trusted_handleAll (Tracks.new hnew).trusted handlings
  refine ⟨fun asked hasked m early groups hgroups => ?_, htrusted, EnabledCache.trusted_empty _,
    fun cache hcache groups hgroups => ⟨mem_enabled_iff_grouped htrusted hcache hgroups, ?_⟩⟩
  · have hsound := (Session.sound_start hdistinct).performAll requests
    exact EnabledCache.sorts_of_successors ((hsound.trusted asked hasked).agrees m) hgroups
  · intro after transition hgrouped firing hfires
    have hsorts := EnabledCache.sorts_of_successors (hcache.agrees _) hgroups
    have hleads := marking_of_fire hfires
    rw [hsorts.leads after transition hgrouped] at hleads
    exact (Except.ok.inj hleads).symm

/-- A token with several ways to go. Two immediate transitions and a timed one that is due all take it to the same
place, a third immediate one gives way to them, and another timed one is not due yet. -/
def crossing : IncludeTree := Sample.single
  [Sample.place "P" 1, Sample.place "Q" 0, Sample.place "R" 0,
    .transition ⟨"A", 2, .immediate, Rate.one, 0, none⟩, .transition ⟨"B", 2, .immediate, Rate.one, 0, none⟩,
    .transition ⟨"C", 1, .immediate, Rate.one, 0, none⟩, .transition ⟨"U", 1, .timed, Rate.one, 0, none⟩,
    .transition ⟨"V", 1, .timed, Rate.one, 5, none⟩,
    Sample.arc "a" "P" "A" .placeToTransition "1", Sample.arc "aq" "Q" "A" .transitionToPlace "1",
    Sample.arc "b" "P" "B" .placeToTransition "1", Sample.arc "bq" "Q" "B" .transitionToPlace "1",
    Sample.arc "c" "P" "C" .placeToTransition "1", Sample.arc "cr" "R" "C" .transitionToPlace "1",
    Sample.arc "u" "P" "U" .placeToTransition "1", Sample.arc "uq" "Q" "U" .transitionToPlace "1",
    Sample.arc "v" "P" "V" .placeToTransition "1", Sample.arc "vr" "R" "V" .transitionToPlace "1"]

/-- The three that lead to one marking are in one group, and they are what may fire now. -/
theorem successors_sorted_crossing : ∃ live sim groups found,
    (LiveNet.ofTree Registry.empty 0 crossing).2 = .ok live ∧ StateSpace.started live = .ok sim ∧
    (EnabledCache.empty.successors sim.live sim.marking false).2 = .ok groups ∧ groups.entries.length = 1 ∧
    sim.enabled.2 = .ok found ∧ found.toList = ["A", "B", "U"] ∧
    (∀ transition, transition ∈ found ↔ ∃ after, FlatNet.Grouped groups after transition) ∧
    ∀ after, FlatNet.Grouped groups after "U" → (sim.fire "U").1.marking = after := by
  have hrun : (LiveNet.ofTree Registry.empty 0 crossing).2.map (fun live =>
      (StateSpace.started live).toOption.map fun sim =>
        ((EnabledCache.empty.successors sim.live sim.marking false).2.toOption.map fun groups =>
            groups.entries.length,
          sim.enabled.2.toOption.map SortedSet.toList, (sim.fire "U").2.toOption.isSome)) =
      .ok (some (some 1, some ["A", "B", "U"], true)) := by
    decide +kernel
  obtain ⟨live, hlive, houtcome⟩ := map_eq_ok.1 hrun
  simp only [Option.map_eq_some_iff, toOption_eq_some, Prod.mk.injEq] at houtcome
  obtain ⟨sim, hsim, ⟨groups, hgroups, hone⟩, ⟨found, hfound, hlist⟩, hfires⟩ := houtcome
  obtain ⟨firing, hfiring⟩ := Option.isSome_iff_exists.1 hfires
  replace hfiring := toOption_eq_some.1 hfiring
  have hdistinct : ([live].map fun live => live.stamp.instanceId).Nodup := List.nodup_singleton _
  obtain ⟨_, _, hfresh, hmatch⟩ := successors_sorted hdistinct [] hsim []
  obtain ⟨⟨found', hfound', hiff⟩, hleads⟩ := hmatch EnabledCache.empty hfresh groups hgroups
  have hsame : found = found' := Except.ok.inj (hfound.symm.trans hfound')
  subst hsame
  exact ⟨live, sim, groups, found, hlive, hsim, hgroups, hone, hfound, hlist, hiff,
    fun after hgrouped => hleads after "U" hgrouped firing hfiring⟩

end Simulation

end PetriTree
