import PetriTree.Live.Cache
import PetriTree.Proofs.Candidates
import PetriTree.Proofs.Compile
import PetriTree.Proofs.Sample
import PetriTree.Proofs.Transfer

/-!
# PetriTree — whether an enabled transition fires

The enabling test compares every weight with the marking as it is. Firing takes one weight after the
other, so the second of two arcs out of one place finds what the first has left. The two agree unless
the arcs of a transition together ask more of a place than it holds.

Main results:
* `FlatNet.Overdrawn` — the arcs by which a transition takes tokens ask too much together;
* `FlatNet.fire_of_enabled` — an enabled transition fires exactly when it is not overdrawn, and so do
  the transitions that are listed as enabled, one by one or all together;
* `FlatNet.not_overdrawn_of_nodup` — a transition that takes each colour from each place at most once is never
  overdrawn.
-/

namespace PetriTree

namespace FlatNet

variable {net : FlatNet} {m : Marking}

/-- Do the arcs by which a transition takes tokens together ask more of a place than it holds? -/
def Overdrawn (net : FlatNet) (m : Marking) (transition : String) : Prop :=
  ∃ ts, net.transfers m (net.taking transition) = .ok ts ∧ ∃ place color, m.ShortOf ts place color

/-- Has every weight of the net a value in the marking? -/
def Weighable (net : FlatNet) (m : Marking) : Prop :=
  ∀ a ∈ net.arcs.values, ∀ w ∈ a.weights, ∃ n, w.2.evaluateWeight (net.reading m) = .ok n

/-! ## Weights -/

theorem weigh_eq_ok {arc : String} {e : Expr} {n : Count} :
    net.weigh m arc e = .ok n ↔ e.evaluateWeight (net.reading m) = .ok n := by
  unfold weigh
  cases e.evaluateWeight (net.reading m) <;> simp

theorem weigh_eq_error {arc : String} {e : Expr} {x : FiringError} (h : net.weigh m arc e = .error x) :
    ∃ cause, e.evaluateWeight (net.reading m) = .error cause ∧ x = .evaluation arc cause := by
  unfold weigh at h
  cases hvalue : e.evaluateWeight (net.reading m) with
  | ok n =>
    rw [hvalue] at h
    cases h
  | error cause =>
    rw [hvalue] at h
    cases h
    exact ⟨cause, rfl, rfl⟩

theorem transfersOf_eq_error {arc : Arc} {weights : List (String × Expr)} {x : FiringError}
    (h : net.transfersOf m arc weights = .error x) :
    ∃ w ∈ weights, ∃ cause, w.2.evaluateWeight (net.reading m) = .error cause ∧
      x = .evaluation arc.id cause := by
  induction weights with
  | nil => cases h
  | cons w rest ih =>
    simp only [transfersOf, bind_eq_error] at h
    rcases h with h | ⟨_, _, h | ⟨_, _, h⟩⟩
    · exact ⟨w, List.mem_cons_self .., weigh_eq_error h⟩
    · obtain ⟨w', hw', hcause⟩ := ih h
      exact ⟨w', List.mem_cons_of_mem _ hw', hcause⟩
    · cases h

/-- Arcs come to no transfers only when a weight has no value. -/
theorem transfers_eq_error {arcs : List FlatArc} {x : FiringError} (h : net.transfers m arcs = .error x) :
    ∃ a ∈ arcs, ∃ w ∈ a.weights, ∃ cause, w.2.evaluateWeight (net.reading m) = .error cause ∧
      x = .evaluation a.arc.id cause := by
  induction arcs with
  | nil => cases h
  | cons a rest ih =>
    simp only [transfers, bind_eq_error] at h
    rcases h with h | ⟨_, _, h | ⟨_, _, h⟩⟩
    · exact ⟨a, List.mem_cons_self .., transfersOf_eq_error h⟩
    · obtain ⟨a', ha', hcause⟩ := ih h
      exact ⟨a', List.mem_cons_of_mem _ ha', hcause⟩
    · cases h

theorem exists_transfers {arcs : List FlatArc}
    (h : ∀ a ∈ arcs, ∀ w ∈ a.weights, ∃ n, w.2.evaluateWeight (net.reading m) = .ok n) :
    ∃ ts, net.transfers m arcs = .ok ts := by
  cases hts : net.transfers m arcs with
  | ok ts => exact ⟨ts, rfl⟩
  | error x =>
    obtain ⟨a, ha, w, hw, cause, hcause, _⟩ := transfers_eq_error hts
    obtain ⟨n, hn⟩ := h a ha w hw
    rw [hn] at hcause
    cases hcause

/-! ## The enabling test -/

/-- An arc whose weights were found has weights with values. -/
theorem evaluateWeight_of_holdsWeights {arc : Arc} {weights : List (String × Expr)}
    (h : net.holdsWeights m arc weights = .ok true) :
    ∀ w ∈ weights, ∃ n, w.2.evaluateWeight (net.reading m) = .ok n := by
  induction weights with
  | nil => simp
  | cons w rest ih =>
    rw [holdsWeights, bind_eq_ok] at h
    obtain ⟨n, hn, h⟩ := h
    intro w' hw'
    split at h
    -- a missing weight ends the search, and its answer is no
    · cases h
    · rcases List.mem_cons.1 hw' with rfl | hw'
      · exact ⟨n, weigh_eq_ok.1 hn⟩
      · exact ih h w' hw'

theorem isSatisfied_of_areSatisfied {arcs : List FlatArc} (h : net.areSatisfied m arcs = .ok true) :
    ∀ a ∈ arcs, net.isSatisfied m a = .ok true := by
  induction arcs with
  | nil => simp
  | cons a rest ih =>
    rw [areSatisfied, bind_eq_ok] at h
    obtain ⟨b, hb, h⟩ := h
    intro a' ha'
    cases b with
    | false => cases h
    | true =>
      -- an answer of yes has passed every arc
      rcases List.mem_cons.1 ha' with rfl | ha'
      · exact hb
      · exact ih h a' ha'

theorem areSatisfied_of_isEnabled {transition : String} (h : net.isEnabled m transition = .ok true) :
    net.areSatisfied m (net.inbound transition) = .ok true := by
  simp only [isEnabled, guard_eq_ok, bind_eq_ok] at h
  obtain ⟨_, b, hb, h⟩ := h
  cases b with
  | false => cases h
  | true => exact hb

/-- Every arc that takes from a place has found its weights there. -/
theorem holdsWeights_of_isEnabled {transition : String} (h : net.isEnabled m transition = .ok true) :
    ∀ a ∈ net.taking transition, net.holdsWeights m a.arc a.weights = .ok true := by
  intro a ha
  obtain ⟨hinbound, hnormal⟩ := List.mem_filter.1 ha
  have hsatisfied := isSatisfied_of_areSatisfied (areSatisfied_of_isEnabled h) a hinbound
  have hkind : a.arc.kind = .normal := eq_of_beq hnormal
  unfold isSatisfied at hsatisfied
  rwa [hkind] at hsatisfied

/-- The weights that an enabled transition takes have values. -/
theorem exists_transfers_of_isEnabled {transition : String}
    (h : net.isEnabled m transition = .ok true) :
    ∃ ts, net.transfers m (net.taking transition) = .ok ts := by
  refine exists_transfers fun a ha => ?_
  exact evaluateWeight_of_holdsWeights (holdsWeights_of_isEnabled h a ha)

/-! ## Firing -/

theorem fire_eq {transition : String} {ts : List Transfer}
    (h : net.transfers m (net.taking transition) = .ok ts) :
    net.fire m transition = (m.withdraw ts).elim (.error (.notEnabled transition)) fun left =>
      (net.transfers m (net.outbound transition)).map left.deposit := by
  rw [fire, takeAll_eq h]
  cases m.withdraw ts with
  | none => rfl
  | some left => exact giveAll_eq net m left _

/-- A transition whose weights have values is refused exactly when it is overdrawn. -/
theorem fire_eq_notEnabled_iff {transition : String} {ts : List Transfer}
    (h : net.transfers m (net.taking transition) = .ok ts) :
    net.fire m transition = .error (.notEnabled transition) ↔ net.Overdrawn m transition := by
  have hoverdrawn : net.Overdrawn m transition ↔ m.withdraw ts = none := by
    rw [Marking.withdraw_eq_none_iff]
    constructor
    · rintro ⟨us, hus, hshort⟩
      rw [h] at hus
      cases hus
      exact hshort
    · exact fun hshort => ⟨ts, h, hshort⟩
  rw [hoverdrawn, fire_eq h]
  cases hleft : m.withdraw ts with
  | none => simp
  | some left =>
    simp only [Option.elim_some, reduceCtorEq, iff_false]
    intro herror
    cases hgiven : net.transfers m (net.outbound transition) with
    | ok us =>
      rw [hgiven] at herror
      cases herror
    | error x =>
      -- what cannot be given is a weight without a value
      obtain ⟨_, _, _, _, cause, _, rfl⟩ := transfers_eq_error hgiven
      rw [hgiven] at herror
      cases herror

/-- Any other error of an enabled transition comes from a weight of an arc out of it. -/
theorem fire_eq_error {transition : String} {ts : List Transfer} {x : FiringError}
    (h : net.transfers m (net.taking transition) = .ok ts) (hfire : net.fire m transition = .error x)
    (hx : x ≠ .notEnabled transition) :
    ∃ a ∈ net.outbound transition, ∃ w ∈ a.weights, ∃ cause,
      w.2.evaluateWeight (net.reading m) = .error cause ∧ x = .evaluation a.arc.id cause := by
  rw [fire_eq h] at hfire
  cases hleft : m.withdraw ts with
  | none =>
    rw [hleft] at hfire
    cases hfire
    exact absurd rfl hx
  | some left =>
    rw [hleft] at hfire
    cases hgiven : net.transfers m (net.outbound transition) with
    | ok us =>
      rw [Option.elim_some, hgiven] at hfire
      cases hfire
    | error y =>
      rw [Option.elim_some, hgiven] at hfire
      cases hfire
      exact transfers_eq_error hgiven

/-! ## The test when every weight has a value -/

theorem exists_holdsWeights {arc : Arc} {weights : List (String × Expr)}
    (h : ∀ w ∈ weights, ∃ n, w.2.evaluateWeight (net.reading m) = .ok n) :
    ∃ b, net.holdsWeights m arc weights = .ok b := by
  induction weights with
  | nil => exact ⟨true, rfl⟩
  | cons w rest ih =>
    obtain ⟨n, hn⟩ := h w (List.mem_cons_self ..)
    obtain ⟨b, hb⟩ := ih fun w' hw' => h w' (List.mem_cons_of_mem _ hw')
    have hweigh : net.weigh m arc.id w.2 = .ok n := weigh_eq_ok.2 hn
    rw [holdsWeights, hweigh]
    show ∃ b, (if !n.isZero && ((m.tokens arc.place w.1).sub? n).isNone then
      pure false else net.holdsWeights m arc rest) = Except.ok b
    split
    · exact ⟨false, rfl⟩
    · exact ⟨b, hb⟩

theorem exists_areSatisfied {arcs : List FlatArc}
    (h : ∀ a ∈ arcs, ∀ w ∈ a.weights, ∃ n, w.2.evaluateWeight (net.reading m) = .ok n) :
    ∃ b, net.areSatisfied m arcs = .ok b := by
  induction arcs with
  | nil => exact ⟨true, rfl⟩
  | cons a rest ih =>
    have hweights := h a (List.mem_cons_self ..)
    obtain ⟨b, hb⟩ : ∃ b, net.isSatisfied m a = .ok b := by
      unfold isSatisfied
      split
      · exact ⟨_, rfl⟩
      · exact exists_holdsWeights hweights
      · exact exists_holdsWeights hweights
    obtain ⟨c, hc⟩ := ih fun a' ha' => h a' (List.mem_cons_of_mem _ ha')
    rw [areSatisfied, hb]
    cases b with
    | false => exact ⟨false, rfl⟩
    | true => exact ⟨c, hc⟩

theorem exists_addWeights (arc : String) (sum : Count) {weights : List (String × Expr)}
    (h : ∀ w ∈ weights, ∃ n, w.2.evaluateWeight (net.reading m) = .ok n) :
    ∃ total, net.addWeights m arc sum weights = .ok total := by
  induction weights generalizing sum with
  | nil => exact ⟨sum, rfl⟩
  | cons w rest ih =>
    obtain ⟨n, hn⟩ := h w (List.mem_cons_self ..)
    have hweigh : net.weigh m arc w.2 = .ok n := weigh_eq_ok.2 hn
    rw [addWeights, hweigh]
    exact ih _ fun w' hw' => h w' (List.mem_cons_of_mem _ hw')

theorem exists_addArrivals (sources : List String) (arrivals : SortedMap String Count)
    {arcs : List FlatArc}
    (h : ∀ a ∈ arcs, ∀ w ∈ a.weights, ∃ n, w.2.evaluateWeight (net.reading m) = .ok n) :
    ∃ sums, net.addArrivals m sources arrivals arcs = .ok sums := by
  induction arcs generalizing arrivals with
  | nil => exact ⟨arrivals, rfl⟩
  | cons a rest ih =>
    have hrest := fun a' ha' => h a' (List.mem_cons_of_mem _ ha')
    rw [addArrivals]
    split
    · exact ih _ hrest
    · obtain ⟨total, htotal⟩ := exists_addWeights a.arc.id
        ((arrivals.get? a.arc.place).getD Count.zero) (h a (List.mem_cons_self ..))
      rw [htotal]
      exact ih _ hrest

/-- The enabling test of a transition of the net has an answer when every weight has a value. -/
theorem exists_isEnabled {transition : String} (hweights : net.Weighable m)
    (hknown : net.transitions.contains transition = true) : ∃ b, net.isEnabled m transition = .ok b := by
  have hinbound : ∀ a ∈ net.inbound transition, ∀ w ∈ a.weights, ∃ n,
      w.2.evaluateWeight (net.reading m) = .ok n := fun a ha => hweights a (List.mem_filter.1 ha).1
  have houtbound : ∀ a ∈ net.outbound transition, ∀ w ∈ a.weights, ∃ n,
      w.2.evaluateWeight (net.reading m) = .ok n := fun a ha => hweights a (List.mem_filter.1 ha).1
  obtain ⟨b, hb⟩ := exists_areSatisfied hinbound
  rw [isEnabled, hknown]
  -- first the arcs into the transition, then the room in the places it fills
  show ∃ c, (net.areSatisfied m (net.inbound transition) >>= _) = Except.ok c
  rw [hb]
  cases b with
  | false => exact ⟨false, rfl⟩
  | true =>
    obtain ⟨sums, hsums⟩ := exists_addArrivals ((net.inbound transition).map fun a => a.arc.place)
      SortedMap.empty houtbound
    show ∃ c, (net.addArrivals m _ SortedMap.empty (net.outbound transition) >>= _) = Except.ok c
    rw [hsums]
    exact ⟨_, rfl⟩

/-! ## Candidates -/

theorem exists_enabledOf {ts : List Transition} (h : ∀ t ∈ ts, ∃ b, net.isEnabled m t.id = .ok b) :
    ∃ enabled, net.enabledOf m ts = .ok enabled := by
  induction ts with
  | nil => exact ⟨[], rfl⟩
  | cons t rest ih =>
    obtain ⟨b, hb⟩ := h t (List.mem_cons_self ..)
    obtain ⟨others, hothers⟩ := ih fun t' ht' => h t' (List.mem_cons_of_mem _ ht')
    rw [enabledOf, hb]
    cases b with
    | false => exact ⟨others, hothers⟩
    | true =>
      show ∃ enabled, (net.enabledOf m rest >>= fun others => pure (t :: others)) = Except.ok enabled
      rw [hothers]
      exact ⟨t :: others, rfl⟩

/-- What the rule of priorities leaves is enabled. -/
theorem isEnabled_of_mem_candidates {found : SortedSet String} (h : net.candidates m = .ok found)
    {transition : String} (hmem : transition ∈ found) : net.isEnabled m transition = .ok true := by
  obtain ⟨_, _, _, henabled, _⟩ := (mem_candidates_iff h transition).1 hmem
  exact henabled

theorem exists_candidates (hids : ∀ e ∈ net.transitions.entries, e.2.transition.id = e.1)
    (hweights : net.Weighable m) : ∃ found, net.candidates m = .ok found := by
  obtain ⟨enabled, henabled⟩ : ∃ enabled, net.enabled m = .ok enabled := by
    refine exists_enabledOf fun t ht => exists_isEnabled hweights ?_
    obtain ⟨d, hd, rfl⟩ := List.mem_map.1 ht
    obtain ⟨e, he, rfl⟩ := List.mem_map.1 hd
    rw [hids e he]
    exact Table.mem_names_iff.1 (List.mem_map_of_mem he)
  rw [candidates, henabled]
  exact ⟨_, rfl⟩

/-! ## Successors -/

theorem groupByTarget_ok_iff {groups : SortedMap Marking (SortedSet String)} {ts : List String} :
    (∃ all, EnabledCache.groupByTarget net m groups ts = .ok all) ↔
      ∀ t ∈ ts, ∃ after, net.fire m t = .ok after := by
  induction ts generalizing groups with
  | nil => simp [EnabledCache.groupByTarget]
  | cons t rest ih =>
    rw [EnabledCache.groupByTarget]
    cases hfire : net.fire m t with
    | error x =>
      constructor
      · rintro ⟨all, hall⟩
        cases hall
      · intro h
        obtain ⟨after, hafter⟩ := h t (List.mem_cons_self ..)
        rw [hfire] at hafter
        cases hafter
    | ok after =>
      refine ih.trans ?_
      simp only [List.mem_cons, forall_eq_or_imp]
      exact ⟨fun h => ⟨⟨after, hfire⟩, h⟩, fun h => h.2⟩

end FlatNet

/-- Does the cache remember, for the structure of the net, nothing but its candidates? -/
def EnabledCache.Agrees (cache : EnabledCache) (live : LiveNet) (m : Marking) : Prop :=
  ∀ found, (cache.sync live.stamp).known.get? m = some found → live.net.candidates m = .ok found

theorem EnabledCache.agrees_empty (live : LiveNet) (m : Marking) : EnabledCache.empty.Agrees live m := by
  intro found hfound
  unfold EnabledCache.empty sync at hfound
  split at hfound <;> cases hfound

theorem EnabledCache.candidates_eq {cache : EnabledCache} {live : LiveNet} {m : Marking}
    (h : cache.Agrees live m) : (cache.candidates live m).2 = live.net.candidates m := by
  unfold EnabledCache.candidates
  dsimp only
  split
  · rename_i found hfound
    exact (h found hfound).symm
  · split
    · rename_i x hx
      exact hx.symm
    · rename_i found hfound
      exact hfound.symm

/-- The successors of a marking exist when every candidate that is asked to fire does. -/
theorem EnabledCache.successors_ok_iff {cache : EnabledCache} {live : LiveNet} {m : Marking} {early : Bool}
    {found : SortedSet String} (h : cache.Agrees live m) (hfound : live.net.candidates m = .ok found) :
    (∃ groups, (cache.successors live m early).2 = .ok groups) ↔
      ∀ t ∈ found, (early || live.mayFireNow t) = true → ∃ after, live.net.fire m t = .ok after := by
  have hcandidates := candidates_eq h
  rw [hfound] at hcandidates
  unfold successors
  split
  · rename_i cache' x hx
    rw [hx] at hcandidates
    cases hcandidates
  · rename_i cache' found' hx
    rw [hx] at hcandidates
    cases hcandidates
    refine FlatNet.groupByTarget_ok_iff.trans ?_
    simp only [List.mem_filter, SortedSet.mem_toList, and_imp]

/-! ## Enabled transitions fire -/

namespace FlatNet

variable {net : FlatNet} {m : Marking}

/-- A weight that the test finds among finitely many tokens is no greater than their number. -/
theorem rank_le_of_held {k : Count} {n : Fin 0xffffffffffffffff}
    (h : ¬ (!k.isZero && ((Count.finite n).sub? k).isNone) = true) : k.rank ≤ n.val := by
  rw [Bool.and_eq_true, not_and_or] at h
  rcases h with hzero | hsome
  -- a weight of zero is found anywhere
  · have hk : k = Count.zero := Count.isZero_iff.1 (by simpa using hzero)
    rw [hk]
    exact Nat.zero_le _
  · obtain ⟨after, hafter⟩ : ∃ after, (Count.finite n).sub? k = some after := by
      rw [← Option.isSome_iff_exists]
      simpa [Option.isSome_iff_ne_none] using hsome
    obtain ⟨b, rfl, hle, _⟩ := Marking.sub?_finite hafter
    exact hle

/-- The test finds every single weight in its place. -/
theorem rank_le_of_holdsWeights {arc : Arc} {weights : List (String × Expr)} {ts : List Transfer}
    (h : net.holdsWeights m arc weights = .ok true) (hts : net.transfersOf m arc weights = .ok ts) :
    ∀ t ∈ ts, ∀ n, m.tokens t.place t.color = .finite n → t.count.rank ≤ n.val := by
  induction weights generalizing ts with
  | nil =>
    cases hts
    simp
  | cons w rest ih =>
    simp only [transfersOf, bind_eq_ok] at hts
    obtain ⟨k, hk, others, hothers, hts⟩ := hts
    cases hts
    rw [holdsWeights, hk] at h
    change (if !k.isZero && ((m.tokens arc.place w.1).sub? k).isNone then
      pure false else net.holdsWeights m arc rest) = Except.ok true at h
    split at h
    · cases h
    · rename_i hheld
      intro t ht n hn
      rcases List.mem_cons.1 ht with rfl | ht
      · simp only at hn
        rw [hn] at hheld
        exact rank_le_of_held hheld
      · exact ih h hothers t ht n hn

theorem rank_le_of_satisfied {arcs : List FlatArc} {ts : List Transfer}
    (h : ∀ a ∈ arcs, net.holdsWeights m a.arc a.weights = .ok true) (hts : net.transfers m arcs = .ok ts) :
    ∀ t ∈ ts, ∀ n, m.tokens t.place t.color = .finite n → t.count.rank ≤ n.val := by
  induction arcs generalizing ts with
  | nil =>
    cases hts
    simp
  | cons a rest ih =>
    simp only [transfers, bind_eq_ok] at hts
    obtain ⟨first, hfirst, others, hothers, hts⟩ := hts
    cases hts
    intro t ht
    rcases List.mem_append.1 ht with ht | ht
    · exact rank_le_of_holdsWeights (h a (List.mem_cons_self ..)) hfirst t ht
    · exact ih (fun a' ha' => h a' (List.mem_cons_of_mem _ ha')) hothers t ht

/-- A transition that takes each colour from each place at most once is never overdrawn. -/
theorem not_overdrawn_of_nodup {transition : String} (h : net.isEnabled m transition = .ok true)
    (hends : (endsOf (net.taking transition)).Nodup) : ¬ net.Overdrawn m transition := by
  rintro ⟨ts, hts, place, color, n, hn, hlt⟩
  -- the demand is a single weight, which the test has found
  have hle : demandOf place color ts ≤ n.val := by
    refine demandOf_le ((ends_of_transfers hts).symm ▸ hends) fun t ht hp hc => ?_
    exact rank_le_of_satisfied (holdsWeights_of_isEnabled h) hts t ht n (by rw [hp, hc, hn])
  omega

/-- When every weight has a value, an enabled transition fires unless it is overdrawn. -/
theorem fires_iff_not_overdrawn {transition : String} (hweights : net.Weighable m)
    (henabled : net.isEnabled m transition = .ok true) :
    (∃ after, net.fire m transition = .ok after) ↔ ¬ net.Overdrawn m transition := by
  obtain ⟨ts, hts⟩ := exists_transfers_of_isEnabled henabled
  rw [← fire_eq_notEnabled_iff hts]
  constructor
  · rintro ⟨after, hafter⟩ herror
    rw [hafter] at herror
    cases herror
  · intro hne
    cases hfire : net.fire m transition with
    | ok after => exact ⟨after, rfl⟩
    | error x =>
      -- any other error would be a weight without a value
      have hx : x ≠ .notEnabled transition := fun heq => hne (heq ▸ hfire)
      obtain ⟨a, ha, w, hw, cause, hcause, _⟩ := fire_eq_error hts hfire hx
      obtain ⟨n, hn⟩ := hweights a (List.mem_filter.1 ha).1 w hw
      rw [hn] at hcause
      cases hcause

/-- When an enabled transition fires. It is refused exactly when its arcs together ask more of a place
than it holds; any other failure is a weight of an arc out of it that has no value. When every weight
has one, the candidates exist, each of them fires unless it is overdrawn, and their successors exist
exactly when none that is asked to fire is overdrawn. -/
theorem fire_of_enabled {tree : IncludeTree} (h : FlatNet.ofTree tree = .ok net) (m : Marking) :
    (∀ transition, net.isEnabled m transition = .ok true →
      (net.fire m transition = .error (.notEnabled transition) ↔ net.Overdrawn m transition) ∧
      ∀ x, net.fire m transition = .error x → x ≠ .notEnabled transition →
        ∃ a ∈ net.outbound transition, ∃ w ∈ a.weights, ∃ cause,
          w.2.evaluateWeight (net.reading m) = .error cause ∧ x = .evaluation a.arc.id cause) ∧
      (net.Weighable m → ∃ found, net.candidates m = .ok found ∧
        (∀ transition ∈ found, (∃ after, net.fire m transition = .ok after) ↔
          ¬ net.Overdrawn m transition) ∧
        ∀ (cache : EnabledCache) (live : LiveNet) (early : Bool), live.net = net → cache.Agrees live m →
          ((∃ groups, (cache.successors live m early).2 = .ok groups) ↔
            ∀ transition ∈ found, (early || live.mayFireNow transition) = true →
              ¬ net.Overdrawn m transition)) := by
  refine ⟨fun transition henabled => ?_, fun hweights => ?_⟩
  · obtain ⟨ts, hts⟩ := exists_transfers_of_isEnabled henabled
    exact ⟨fire_eq_notEnabled_iff hts, fun x hx hne => fire_eq_error hts hx hne⟩
  · obtain ⟨found, hfound⟩ := exists_candidates (transition_id h) hweights
    have hfires : ∀ transition ∈ found, (∃ after, net.fire m transition = .ok after) ↔
        ¬ net.Overdrawn m transition := by
      intro transition hmem
      exact fires_iff_not_overdrawn hweights (isEnabled_of_mem_candidates hfound hmem)
    refine ⟨found, hfound, hfires, ?_⟩
    rintro cache live early rfl hagrees
    refine (EnabledCache.successors_ok_iff hagrees hfound).trans ?_
    constructor
    · intro hall t ht hnow
      exact (hfires t ht).1 (hall t ht hnow)
    · intro hall t ht hnow
      exact (hfires t ht).2 (hall t ht hnow)

/-- A transition with two arcs from a place that holds one token. -/
def parallel : IncludeTree := Sample.single
  [Sample.place "P" 1, Sample.transition "T" Rate.one,
    Sample.arc "a" "P" "T" .placeToTransition "1", Sample.arc "b" "P" "T" .placeToTransition "1"]

/-- Each of the two arcs finds its token, so the transition is enabled, and yet it does not fire. -/
theorem enabled_but_refused : ∃ net, FlatNet.ofTree parallel = .ok net ∧
    net.isEnabled net.initial "T" = .ok true ∧ net.fire net.initial "T" = .error (.notEnabled "T") := by
  have hrun : (FlatNet.ofTree parallel).map (fun net =>
      (net.isEnabled net.initial "T", net.fire net.initial "T")) =
        .ok (.ok true, .error (.notEnabled "T")) := by
    decide +kernel
  obtain ⟨net, hnet, houtcome⟩ := map_eq_ok.1 hrun
  exact ⟨net, hnet, congrArg Prod.fst houtcome, congrArg Prod.snd houtcome⟩

theorem overdrawn_parallel : ∃ net, FlatNet.ofTree parallel = .ok net ∧ net.Overdrawn net.initial "T" := by
  have hrun : (FlatNet.ofTree parallel).map (fun net =>
      (net.isEnabled net.initial "T", net.fire net.initial "T")) =
        .ok (.ok true, .error (.notEnabled "T")) := by
    decide +kernel
  obtain ⟨net, hnet, houtcome⟩ := map_eq_ok.1 hrun
  have henabled : net.isEnabled net.initial "T" = .ok true := congrArg Prod.fst houtcome
  have hrefused : net.fire net.initial "T" = .error (.notEnabled "T") := congrArg Prod.snd houtcome
  exact ⟨net, hnet, ((fire_of_enabled hnet net.initial).1 "T" henabled).1.1 hrefused⟩

end FlatNet

end PetriTree
