import Mathlib.Data.List.Nodup
import PetriTree.Live.Session
import PetriTree.Proofs.Candidates
import PetriTree.Proofs.Firing

/-!
# PetriTree — the cache answers as if it were not there

One cache serves several live nets that are edited between the questions. It remembers answers for one
stamp, so what has to hold is that an answer under a stamp stays right as long as a net carries that
stamp: an edit either leaves the candidates of every marking as they are or moves the net on to a
version that no answer was ever remembered for.

Main results:
* `LiveNet.edited_cases` — what an edit can do to the stamp and to the candidates;
* `EnabledCache.Trusted` — the cache remembers nothing wrong, and nothing from the future of a net;
* `Session.Sound`, `Session.Sound.perform`, `Session.Sound.performAll` — every request keeps that;
* `Session.answers_as_fresh` — every answer is that of a fresh cache, and the one that the rule of
  priorities asks for.
-/

namespace PetriTree

/-! ## Edits -/

namespace LiveNet

/-- A net that follows its tree is made anew, with the clock of before, and has the next version. -/
theorem refresh_eq_ok {live after : LiveNet} {tree : IncludeTree} (h : (live.refresh tree).2 = .ok after) :
    ∃ fresh timed, (LiveNet.ofTree live.registry live.stamp.instanceId tree).2 = .ok fresh ∧
      after = { fresh with
        stamp := ⟨live.stamp.instanceId, live.stamp.version + 1⟩
        schedule := Schedule.reset live.schedule.now timed } := by
  unfold refresh at h
  split at h
  · cases h
  · rename_i fresh hfresh
    dsimp only at h
    split at h
    · cases h
    · rename_i queued hqueued
      cases h
      rw [resetTiming, bind_eq_ok] at hqueued
      obtain ⟨timed, _, hqueued⟩ := hqueued
      cases hqueued
      exact ⟨fresh, _, by rw [hfresh], rfl⟩

theorem refresh_stamp {live after : LiveNet} {tree : IncludeTree} (h : (live.refresh tree).2 = .ok after) :
    after.stamp = ⟨live.stamp.instanceId, live.stamp.version + 1⟩ := by
  obtain ⟨fresh, timed, _, rfl⟩ := refresh_eq_ok h
  rfl

/-- What holds of a net, and of the outcome of a change to it, holds whether or not it was refused. -/
theorem orKeep_of (P : LiveNet → Prop) {live : LiveNet} {change : Except ε LiveNet} (hkept : P live)
    (hchanged : ∀ after, change = .ok after → P after) : P (live.orKeep change) := by
  cases change with
  | ok after => exact hchanged after rfl
  | error e => exact hkept

/-- Does a net answer every question as another one did, under the same stamp? -/
def AnswersAs (live after : LiveNet) : Prop :=
  after.stamp = live.stamp ∧ ∀ m, after.net.candidates m = live.net.candidates m

/-- Is a net the next version of another one? -/
def Supersedes (live after : LiveNet) : Prop :=
  after.stamp = ⟨live.stamp.instanceId, live.stamp.version + 1⟩

/-- An edit leaves the stamp and every answer as they are, or moves the net on to its next version. -/
theorem edited_cases (live : LiveNet) (edit : LiveEdit) :
    live.AnswersAs (live.edited edit) ∨ live.Supersedes (live.edited edit) := by
  have hkept : live.AnswersAs live := ⟨rfl, fun _ => rfl⟩
  cases edit with
  | setTokens place color n =>
    refine Or.inl (orKeep_of live.AnswersAs hkept fun after hafter => ?_)
    simp only [setTokens, bind_eq_ok, pure_eq_ok] at hafter
    obtain ⟨_, _, _, _, rfl⟩ := hafter
    exact hkept
  | setMarking m => exact Or.inl hkept
  | setDelay transition delay =>
    refine Or.inl (orKeep_of live.AnswersAs hkept fun after hafter => ?_)
    simp only [LiveNet.setDelay, bind_eq_ok, pure_eq_ok] at hafter
    obtain ⟨net, hnet, rfl⟩ := hafter
    -- the structure is another one, but not for the rule of priorities
    exact ⟨rfl, fun m => FlatNet.candidates_setDelay hnet⟩
  | requireRefresh => exact Or.inr rfl
  | pull tree =>
    refine Or.inl (orKeep_of live.AnswersAs hkept fun after hafter => ?_)
    simp only [LiveNet.pull, bind_eq_ok, pure_eq_ok] at hafter
    obtain ⟨m, _, rfl⟩ := hafter
    exact hkept
  | refresh tree =>
    refine orKeep_of (fun after => live.AnswersAs after ∨ live.Supersedes after) (Or.inl hkept) ?_
    exact fun after hafter => Or.inr (refresh_stamp hafter)

theorem edited_instanceId (live : LiveNet) (edit : LiveEdit) :
    (live.edited edit).stamp.instanceId = live.stamp.instanceId := by
  rcases live.edited_cases edit with ⟨hstamp, _⟩ | hstamp <;> rw [hstamp]

end LiveNet

/-! ## The cache -/

namespace EnabledCache

/-- Does the cache know nothing wrong about a net, and nothing about a version still to come? -/
structure Trusted (cache : EnabledCache) (live : LiveNet) : Prop where
  version_le : ∀ stamp, cache.stamp = some stamp → stamp.instanceId = live.stamp.instanceId →
    stamp.version ≤ live.stamp.version
  agrees : ∀ m, cache.Agrees live m

theorem trusted_empty (live : LiveNet) : EnabledCache.empty.Trusted live where
  version_le := fun stamp h _ => by cases h
  agrees := agrees_empty live

/-- A cache about another structure knows nothing about this one. -/
theorem agrees_of_stamp_ne {cache : EnabledCache} {live : LiveNet} (h : cache.stamp ≠ some live.stamp)
    (m : Marking) : cache.Agrees live m := by
  intro found hfound
  rw [sync, if_neg h] at hfound
  cases hfound

theorem Trusted.edited {cache : EnabledCache} {live : LiveNet} (h : cache.Trusted live) (edit : LiveEdit) :
    cache.Trusted (live.edited edit) := by
  rcases live.edited_cases edit with ⟨hstamp, hcandidates⟩ | hstamp
  -- under the same stamp the answers are the same
  · refine ⟨fun stamp hs => ?_, fun m found hfound => ?_⟩
    · rw [hstamp]
      exact h.version_le stamp hs
    · rw [hstamp] at hfound
      rw [hcandidates]
      exact h.agrees m found hfound
  · refine ⟨fun stamp hs hid => ?_, agrees_of_stamp_ne fun hs => ?_⟩
    · rw [hstamp] at hid ⊢
      have := h.version_le stamp hs hid
      show stamp.version ≤ live.stamp.version + 1
      omega
    · -- nobody can have asked about the new version before
      have := h.version_le _ hs (by rw [hstamp])
      rw [hstamp] at this
      simp only at this
      omega

theorem candidates_stamp (cache : EnabledCache) (live : LiveNet) (m : Marking) :
    (cache.candidates live m).1.stamp = some live.stamp := by
  have hsync : (cache.sync live.stamp).stamp = some live.stamp := by
    unfold sync
    split
    · assumption
    · rfl
  unfold candidates
  dsimp only
  split
  · exact hsync
  · split <;> exact hsync

/-- What is known after a question was known before it, or is its answer. -/
theorem known_of_candidates {cache : EnabledCache} {live : LiveNet} {m m' : Marking}
    {found : SortedSet String} (h : (cache.candidates live m).1.known.get? m' = some found) :
    (cache.sync live.stamp).known.get? m' = some found ∨ live.net.candidates m' = .ok found := by
  unfold candidates at h
  dsimp only at h
  split at h
  · exact Or.inl h
  · split at h
    · exact Or.inl h
    · rename_i answer hanswer
      rw [SortedMap.get?_insert] at h
      split at h
      · rename_i heq
        cases h
        have hmarking : m' = m := Std.LawfulEqCmp.eq_of_compare heq
        exact Or.inr (hmarking ▸ hanswer)
      · exact Or.inl h

/-- Asking about one net leaves the cache to be trusted about it and about every other one. -/
theorem Trusted.candidates {cache : EnabledCache} {live asked : LiveNet} (hasked : cache.Trusted asked)
    (hother : live = asked ∨ live.stamp.instanceId ≠ asked.stamp.instanceId) (m : Marking) :
    (cache.candidates asked m).1.Trusted live := by
  have hstamp := cache.candidates_stamp asked m
  rcases hother with rfl | hne
  -- the cache is about the net that was asked, and learns a right answer at most
  · refine ⟨fun stamp hs _ => ?_, fun m' found hfound => ?_⟩
    · rw [hstamp] at hs
      cases hs
      exact Nat.le_refl _
    · rw [sync, if_pos hstamp] at hfound
      rcases known_of_candidates hfound with hknown | hanswer
      · exact hasked.agrees m' found hknown
      · exact hanswer
  -- about any other net it knows nothing now
  · refine ⟨fun stamp hs hid => ?_, agrees_of_stamp_ne fun hs => ?_⟩
    · rw [hstamp] at hs
      cases hs
      exact absurd hid.symm hne
    · rw [hstamp] at hs
      exact hne (congrArg Stamp.instanceId (Option.some.inj hs)).symm

/-- Asking for the successors leaves what asking for the candidates leaves. -/
theorem successors_fst (cache : EnabledCache) (live : LiveNet) (m : Marking) (early : Bool) :
    (cache.successors live m early).1 = (cache.candidates live m).1 := by
  unfold successors
  split <;> rename_i h <;> rw [h]

theorem successors_eq {cache : EnabledCache} {live : LiveNet} {m : Marking} (h : cache.Agrees live m)
    (early : Bool) : (cache.successors live m early).2 = (do
      let found ← live.net.candidates m
      groupByTarget live.net m SortedMap.empty (found.toList.filter fun t => early || live.mayFireNow t)) := by
  rw [← candidates_eq h]
  unfold successors
  split <;> rename_i hasked <;> rw [hasked] <;> rfl

end EnabledCache

/-! ## Sessions -/

namespace Session

/-- Are the nets different ones, and is the cache trusted about each of them? -/
structure Sound (s : Session) : Prop where
  distinct : (s.nets.map fun live => live.stamp.instanceId).Nodup
  trusted : ∀ live ∈ s.nets, s.cache.Trusted live

theorem sound_start {nets : List LiveNet} (h : (nets.map fun live => live.stamp.instanceId).Nodup) :
    (start nets).Sound where
  distinct := h
  trusted := fun live _ => EnabledCache.trusted_empty live

theorem Sound.edited {s : Session} (h : s.Sound) (net : Nat) (edit : LiveEdit) :
    (s.perform (.edit net edit)).Sound := by
  have hids : (s.nets.modify net fun live => live.edited edit).map (fun live => live.stamp.instanceId) =
      s.nets.map fun live => live.stamp.instanceId := by
    refine List.ext_getElem? fun i => ?_
    rw [List.getElem?_map, List.getElem?_map, List.getElem?_modify]
    split
    · cases s.nets[i]? with
      | none => rfl
      | some live => exact congrArg some (live.edited_instanceId edit)
    · simp
  refine ⟨hids ▸ h.distinct, fun live hlive => ?_⟩
  obtain ⟨i, hi⟩ := List.mem_iff_getElem?.1 hlive
  simp only [perform, List.getElem?_modify] at hi
  obtain ⟨before, hbefore, hedited⟩ := Option.map_eq_some_iff.1 hi
  have htrusted := h.trusted before (List.mem_of_getElem? hbefore)
  split at hedited
  · exact hedited ▸ htrusted.edited edit
  · exact hedited ▸ htrusted

theorem Sound.asked {s : Session} (h : s.Sound) (net : Nat) (m : Marking) :
    (s.asked net fun live => (s.cache.candidates live m).1).Sound := by
  unfold Session.asked
  split
  · exact h
  · rename_i asked hasked
    have hmem := List.mem_of_getElem? hasked
    refine ⟨h.distinct, fun live hlive => ?_⟩
    refine (h.trusted asked hmem).candidates ?_ m
    -- nets with one instance id are one net
    by_cases hid : live.stamp.instanceId = asked.stamp.instanceId
    · exact Or.inl (List.inj_on_of_nodup_map h.distinct hlive hmem hid)
    · exact Or.inr hid

theorem Sound.perform {s : Session} (h : s.Sound) (request : Request) : (s.perform request).Sound := by
  cases request with
  | edit net edit => exact h.edited net edit
  | candidates net m => exact h.asked net m
  | successors net m early =>
    simp only [Session.perform, EnabledCache.successors_fst]
    exact h.asked net m
  | forget => exact ⟨h.distinct, fun live _ => EnabledCache.trusted_empty live⟩

theorem Sound.performAll {s : Session} (h : s.Sound) (requests : List Request) :
    (s.performAll requests).Sound := by
  induction requests generalizing s with
  | nil => exact h
  | cons request rest ih => exact ih (h.perform request)

/-- Whatever was asked of some nets and done to them before, the cache answers as a fresh one would,
with the same errors, and what it finds are the transitions that the rule of priorities permits in the
net as it is now. -/
theorem answers_as_fresh {nets : List LiveNet} (h : (nets.map fun live => live.stamp.instanceId).Nodup)
    (requests : List Request) (live : LiveNet) (hlive : live ∈ ((start nets).performAll requests).nets)
    (m : Marking) :
    let cache := ((start nets).performAll requests).cache
    (cache.candidates live m).2 = (EnabledCache.empty.candidates live m).2 ∧
      (∀ early, (cache.successors live m early).2 = (EnabledCache.empty.successors live m early).2) ∧
      ∀ found, (cache.candidates live m).2 = .ok found →
        ∀ transition, transition ∈ found ↔ live.net.Permitted m transition := by
  intro cache
  have htrusted : cache.Trusted live := ((sound_start h).performAll requests).trusted live hlive
  have hagrees := htrusted.agrees m
  have hfresh := EnabledCache.agrees_empty live m
  refine ⟨?_, fun early => ?_, fun found hfound => ?_⟩
  · rw [EnabledCache.candidates_eq hagrees, EnabledCache.candidates_eq hfresh]
  · rw [EnabledCache.successors_eq hagrees, EnabledCache.successors_eq hfresh]
  · rw [EnabledCache.candidates_eq hagrees] at hfound
    exact FlatNet.mem_candidates_iff hfound

/-- A place with one token and a transition that asks for some of its tokens. -/
def demanding (weight : String) : IncludeTree := Sample.single
  [Sample.place "P" 1, Sample.transition "T" Rate.one, Sample.arc "a" "P" "T" .placeToTransition weight]

/-- Two nets of which the first is asked and then made anew, asking for more. -/
def refreshing (first second : LiveNet) : Session :=
  (start [first, second]).performAll
    [.candidates 0 first.marking, .edit 0 (.refresh (demanding "2")), .candidates 1 second.marking]

/-- After the change the answer for the first net is another one, and that for the second is not. -/
theorem answers_as_fresh_refreshing : ∃ first second,
    (LiveNet.ofTree Registry.empty 0 (demanding "1")).2 = .ok first ∧
    (LiveNet.ofTree Registry.empty 1 (demanding "1")).2 = .ok second ∧
    ([first, second].map fun live => live.stamp.instanceId).Nodup ∧
    ∃ changed kept, (refreshing first second).nets = [changed, kept] ∧
      ¬ changed.net.Permitted first.marking "T" ∧ kept.net.Permitted first.marking "T" := by
  have hrun : (do
      let first ← (LiveNet.ofTree Registry.empty 0 (demanding "1")).2
      let second ← (LiveNet.ofTree Registry.empty 1 (demanding "1")).2
      let s := refreshing first second
      let answer := fun (live : LiveNet) => (s.cache.candidates live first.marking).2.toOption
      return ([first.stamp.instanceId, second.stamp.instanceId], s.nets.map answer)) =
        .ok ([0, 1], [some SortedSet.empty, some (SortedSet.ofList ["T"])]) := by
    decide +kernel
  simp only [bind_eq_ok, pure_eq_ok, Prod.mk.injEq] at hrun
  obtain ⟨first, hfirst, second, hsecond, hids, hanswers⟩ := hrun
  have hdistinct : ([first, second].map fun live => live.stamp.instanceId).Nodup := by
    show [first.stamp.instanceId, second.stamp.instanceId].Nodup
    rw [hids]
    decide
  refine ⟨first, second, hfirst, hsecond, hdistinct, ?_⟩
  have hshape : ∃ changed kept, (refreshing first second).nets = [changed, kept] := ⟨_, _, rfl⟩
  obtain ⟨changed, kept, hnets⟩ := hshape
  rw [hnets] at hanswers
  simp only [List.map_cons, List.map_nil, List.cons.injEq, toOption_eq_some] at hanswers
  obtain ⟨hchanged, hkept, _⟩ := hanswers
  have hrule := answers_as_fresh hdistinct _ changed (hnets ▸ List.mem_cons_self ..) first.marking
  have hrule' := answers_as_fresh hdistinct _ kept
    (hnets ▸ List.mem_cons_of_mem _ (List.mem_cons_self ..)) first.marking
  refine ⟨changed, kept, hnets, fun hpermitted => ?_, ?_⟩
  · have hmem := (hrule.2.2 _ hchanged "T").2 hpermitted
    revert hmem
    decide
  · exact (hrule'.2.2 _ hkept "T").1 (by decide)

end Session

end PetriTree
