import PetriTree.Proofs.Capacity
import PetriTree.Proofs.MarkingEquation

/-!
# PetriTree — the rules of enabling

The enabling test goes through the arcs once. It stops at the first one that misses something, and it adds up
what would arrive in each place as it goes. The rules that it is there for speak of each arc and each place on
its own: an arc finds what its weights ask for, an inhibitor arc finds nothing, and a bounded place that is filled
and not also looked at stays within its capacity.

The two agree but for one case. The test compares the total after the firing with the capacity, also where nothing
arrives. A place that holds too much already, as initial markings and loops allow, thereby keeps back transitions
whose weights into it are all zero, which by the rules ask for no room.

Main results:
* `FlatNet.Enables` — the rules;
* `FlatNet.Crowded` — the exception;
* `FlatNet.isEnabled_iff_enables` — the test answers yes by the rules, unless some place is crowded.
-/

namespace PetriTree

/-! ## Counts -/

/-- Are there as many tokens as asked for, or infinitely many? -/
def Count.Covers (held asked : Count) : Prop := held = .infinite ∨ asked ≠ .infinite ∧ asked.rank ≤ held.rank

/-- A weight is missing when it is not zero and cannot be taken. -/
theorem Count.covers_iff {held asked : Count} :
    held.Covers asked ↔ ¬ (!asked.isZero && (held.sub? asked).isNone) = true := by
  cases held with
  | infinite => simp [Covers, sub?]
  | finite a =>
    cases asked with
    | infinite => simp [Covers, sub?, isZero]
    | finite b =>
      by_cases hle : b.val ≤ a.val
      · simp [Covers, sub?, rank, hle]
      · have hpositive : b.val ≠ 0 := by omega
        simp [Covers, sub?, rank, isZero, hle, hpositive]

theorem Count.add_eq_zero_iff {a b : Count} : a.add b = zero ↔ a = zero ∧ b = zero := by
  cases a with
  | infinite => simp [add, zero, ofNat]
  | finite a =>
    cases b with
    | infinite => simp [add, zero, ofNat]
    | finite b =>
      simp only [add, zero, ofNat, finite.injEq, Fin.ext_iff, limit]
      omega

/-- Nothing is there altogether just if there is nothing of any colour. -/
theorem Marking.total_eq_zero_iff (m : Marking) (place : String) :
    m.total place = Count.zero ↔ ∀ color, m.tokens place color = Count.zero := by
  constructor
  · intro h color
    have hsum := (m.holding place).total_eq color
    exact (Count.add_eq_zero_iff.1 (hsum.symm.trans h)).2
  · intro h
    have hempty : m.holding place = Holding.empty := Holding.ext h
    rw [total, hempty]
    rfl

/-- Is there nothing of the listed colours in a place, or nothing at all when none are listed? -/
structure Marking.Lacks (m : Marking) (place : String) (colors : List String) : Prop where
  anything : colors = [] → ∀ color, m.tokens place color = Count.zero
  listed : ∀ color ∈ colors, m.tokens place color = Count.zero

namespace FlatNet

variable {net : FlatNet} {m : Marking} {transition : String}

/-! ## The rules -/

/-- Does an arc into a transition find what it asks for? -/
structure Finds (net : FlatNet) (m : Marking) (a : FlatArc) : Prop where
  /-- An arc that does not inhibit finds each of its weights, on its own. -/
  held : a.arc.kind ≠ .inhibitor → ∀ w ∈ a.weights, ∀ n, w.2.evaluateWeight (net.reading m) = .ok n →
    (m.tokens a.arc.place w.1).Covers n
  /-- An inhibitor arc finds nothing. -/
  missing : a.arc.kind = .inhibitor → m.Lacks a.arc.place (a.weights.map Prod.fst)

/-- Does a transition fill a bounded place that it does not also look at, by an arc of any kind? -/
def Fills (net : FlatNet) (transition place : String) : Prop :=
  (∃ b ∈ net.outbound transition, b.arc.place = place) ∧ net.capacity place ≠ 0 ∧
    ∀ a ∈ net.inbound transition, a.arc.place ≠ place

/-- What the arcs out of a transition bring to a place, all arcs and colours together. -/
def arriving (net : FlatNet) (m : Marking) (transition place : String) : Count :=
  arrivalsAt place Count.zero (net.moved m (net.outbound transition))

/-- Has a place room for tokens? Only one that holds finitely many can lack it. The sum is one of counts, clamped at
their limit as it is when the tokens arrive. -/
def Fits (net : FlatNet) (m : Marking) (place : String) (arriving : Count) : Prop :=
  ∀ n, m.total place = .finite n →
    ∃ k, (m.total place).add arriving = .finite k ∧ k.val ≤ (net.capacity place).toNat

/-- The rules by which a transition is enabled in a marking. -/
structure Enables (net : FlatNet) (m : Marking) (transition : String) : Prop where
  /-- Every arc into it finds what it asks for. -/
  finds : ∀ a ∈ net.inbound transition, net.Finds m a
  /-- Wherever something arrives there is room for it. -/
  fits : ∀ place, net.Fills transition place → net.arriving m transition place ≠ Count.zero →
    net.Fits m place (net.arriving m transition place)

/-- Does a place that a transition fills hold more than its capacity, while nothing arrives there? -/
def Crowded (net : FlatNet) (m : Marking) (transition : String) : Prop :=
  ∃ place, net.Fills transition place ∧ net.arriving m transition place = Count.zero ∧
    ∃ n, m.total place = .finite n ∧ (net.capacity place).toNat < n.val

/-- The arcs whose weights the enabling test reads: those into the transition that do not inhibit it, and those
out of it into the places that it fills. -/
def examined (net : FlatNet) (transition : String) : List FlatArc :=
  (net.inbound transition).filter (fun a => a.arc.kind != .inhibitor) ++
    net.filling ((net.inbound transition).map fun a => a.arc.place) (net.outbound transition)

/-! ## Arcs into a transition -/

theorem holdsWeights_spec (arc : Arc) {weights : List (String × Expr)}
    (h : ∀ w ∈ weights, ∃ n, w.2.evaluateWeight (net.reading m) = .ok n) :
    ∃ b, net.holdsWeights m arc weights = .ok b ∧ (b = true ↔ ∀ w ∈ weights, ∀ n,
      w.2.evaluateWeight (net.reading m) = .ok n → (m.tokens arc.place w.1).Covers n) := by
  induction weights with
  | nil => exact ⟨true, rfl, by simp⟩
  | cons w rest ih =>
    obtain ⟨n, hn⟩ := h w (List.mem_cons_self ..)
    obtain ⟨b, hb, hiff⟩ := ih fun w' hw' => h w' (List.mem_cons_of_mem _ hw')
    have hweigh : net.weigh m arc.id w.2 = .ok n := weigh_eq_ok.2 hn
    have hfirst : (∀ k, w.2.evaluateWeight (net.reading m) = .ok k → (m.tokens arc.place w.1).Covers k) ↔
        (m.tokens arc.place w.1).Covers n := by
      simp [hn]
    rw [holdsWeights, hweigh, List.forall_mem_cons, hfirst, Count.covers_iff, ← hiff]
    show ∃ b', (if !n.isZero && ((m.tokens arc.place w.1).sub? n).isNone then
      pure false else net.holdsWeights m arc rest) = Except.ok b' ∧ _
    split
    · rename_i hmissing
      exact ⟨false, rfl, by simp [hmissing]⟩
    · rename_i hfound
      exact ⟨b, hb, by simp [hfound]⟩

theorem isEmptyFor_iff {a : FlatArc} : isEmptyFor m a = true ↔ m.Lacks a.arc.place (a.weights.map Prod.fst) := by
  unfold isEmptyFor
  split
  · rename_i hnone
    have hweights : a.weights = [] := List.isEmpty_iff.1 hnone
    rw [Count.isZero_iff, m.total_eq_zero_iff, hweights]
    exact ⟨fun h => ⟨fun _ => h, by simp⟩, fun h => h.anything rfl⟩
  · rename_i hsome
    have hcolors : a.weights.map Prod.fst ≠ [] := by simpa using hsome
    simp only [List.all_eq_true, Count.isZero_iff]
    exact ⟨fun h => ⟨fun hnil => absurd hnil hcolors, List.forall_mem_map.2 h⟩,
      fun h => List.forall_mem_map.1 h.listed⟩

theorem isSatisfied_spec {a : FlatArc} (h : a.arc.kind ≠ .inhibitor →
    ∀ w ∈ a.weights, ∃ n, w.2.evaluateWeight (net.reading m) = .ok n) :
    ∃ b, net.isSatisfied m a = .ok b ∧ (b = true ↔ net.Finds m a) := by
  by_cases hkind : a.arc.kind = .inhibitor
  · refine ⟨isEmptyFor m a, by simp only [isSatisfied, hkind], isEmptyFor_iff.trans ?_⟩
    exact ⟨fun hlacks => ⟨absurd hkind, fun _ => hlacks⟩, fun hfinds => hfinds.missing hkind⟩
  · obtain ⟨b, hb, hiff⟩ := holdsWeights_spec a.arc (h hkind)
    refine ⟨b, ?_, hiff.trans ?_⟩
    · unfold isSatisfied
      split
      · contradiction
      · exact hb
      · exact hb
    · exact ⟨fun hheld => ⟨fun _ => hheld, fun h => absurd h hkind⟩, fun hfinds => hfinds.held hkind⟩

theorem areSatisfied_spec {arcs : List FlatArc} (h : ∀ a ∈ arcs, a.arc.kind ≠ .inhibitor →
    ∀ w ∈ a.weights, ∃ n, w.2.evaluateWeight (net.reading m) = .ok n) :
    ∃ b, net.areSatisfied m arcs = .ok b ∧ (b = true ↔ ∀ a ∈ arcs, net.Finds m a) := by
  induction arcs with
  | nil => exact ⟨true, rfl, by simp⟩
  | cons a rest ih =>
    obtain ⟨b, hb, hfirst⟩ := isSatisfied_spec (h a (List.mem_cons_self ..))
    obtain ⟨c, hc, hrest⟩ := ih fun a' ha' => h a' (List.mem_cons_of_mem _ ha')
    rw [areSatisfied, hb, List.forall_mem_cons, ← hfirst, ← hrest]
    cases b with
    | false => exact ⟨false, rfl, by simp⟩
    | true => exact ⟨c, hc, by simp⟩

/-! ## Places that are filled -/

theorem mem_filling_iff {place : String} :
    (∃ b ∈ net.filling ((net.inbound transition).map fun a => a.arc.place) (net.outbound transition),
      b.arc.place = place) ↔ net.Fills transition place := by
  simp only [filling, Fills, List.mem_filter, Bool.not_eq_true', decide_eq_false_iff_not, not_or, List.mem_map,
    not_exists, not_and]
  constructor
  · rintro ⟨b, ⟨hb, hcapacity, hsources⟩, rfl⟩
    exact ⟨⟨b, hb, rfl⟩, hcapacity, hsources⟩
  · rintro ⟨⟨b, hb, rfl⟩, hcapacity, hsources⟩
    exact ⟨b, ⟨hb, hcapacity, hsources⟩, rfl⟩

theorem place_of_weighed {place : String} {weights : List (String × Expr)} {t : Transfer}
    (h : t ∈ net.weighed m place weights) : t.place = place := by
  obtain ⟨w, -, hw⟩ := List.mem_filterMap.1 h
  obtain ⟨n, -, rfl⟩ := Option.map_eq_some_iff.1 hw
  rfl

/-- The arcs that the test leaves out bring nothing to a place that it asks about. -/
theorem arrivalsAt_moved_filling {place : String} {sources : List String} (hcapacity : net.capacity place ≠ 0)
    (hsources : place ∉ sources) (sum : Count) (arcs : List FlatArc) :
    arrivalsAt place sum (net.moved m (net.filling sources arcs)) = arrivalsAt place sum (net.moved m arcs) := by
  induction arcs generalizing sum with
  | nil => rfl
  | cons a rest ih =>
    rw [filling_cons, moved_cons, arrivalsAt_append]
    split
    · rename_i hskip
      -- the arc ends elsewhere: its place is unbounded or a source, and this one is neither
      have hne : ∀ t ∈ net.weighed m a.arc.place a.weights, t.place ≠ place := by
        intro t ht heq
        rw [place_of_weighed ht] at heq
        exact (heq ▸ hskip).elim hcapacity hsources
      rw [arrivalsAt_eq_self hne]
      exact ih sum
    · rw [moved_cons, arrivalsAt_append]
      exact ih _

theorem hasRoom_iff {place : String} {arriving : Count} :
    net.hasRoom m place arriving = true ↔ net.Fits m place arriving := by
  refine ⟨fun h n hn => within_of_hasRoom hn h, fun h => ?_⟩
  unfold hasRoom
  cases htotal : m.total place with
  | infinite => rfl
  | finite n =>
    obtain ⟨k, hsum, hle⟩ := h n htotal
    rw [htotal] at hsum
    rw [hsum]
    exact decide_eq_true hle

/-- Room for nothing is what is left within the capacity. -/
theorem fits_zero_iff {place : String} : net.Fits m place Count.zero ↔
    ¬ ∃ n, m.total place = .finite n ∧ (net.capacity place).toNat < n.val := by
  rw [Fits, Count.add_zero]
  push Not
  refine forall₂_congr fun n hn => ?_
  simp [hn]

/-- The answer of the test, when the weights that it reads have values. -/
theorem isEnabled_spec (hknown : net.transitions.contains transition = true)
    (hvalues : net.Evaluable m (net.examined transition)) :
    ∃ b, net.isEnabled m transition = .ok b ∧ (b = true ↔ (∀ a ∈ net.inbound transition, net.Finds m a) ∧
      ∀ place, net.Fills transition place → net.Fits m place (net.arriving m transition place)) := by
  obtain ⟨satisfied, hsatisfied, hfinds⟩ : ∃ b, net.areSatisfied m (net.inbound transition) = .ok b ∧ _ :=
    areSatisfied_spec fun a ha hkind => hvalues a
      (List.mem_append_left _ (List.mem_filter.2 ⟨ha, by simpa using hkind⟩))
  have hmoved := transfers_eq_moved fun a ha => hvalues a (List.mem_append_right _ ha)
  have htest := hasRoomForAll_toOption net m ((net.inbound transition).map fun a => a.arc.place)
    (net.outbound transition)
  rw [hmoved] at htest
  have hroom := toOption_eq_some.1 htest
  rw [isEnabled, hknown, ← hfinds]
  show ∃ b, (net.areSatisfied m (net.inbound transition) >>= _) = Except.ok b ∧ _
  rw [hsatisfied]
  cases satisfied with
  | false => exact ⟨false, rfl, by simp⟩
  | true =>
    refine ⟨_, hroom, ?_⟩
    simp only [List.all_eq_true, hasRoom_iff, true_and]
    constructor
    · intro hall place hfills
      obtain ⟨b, hb, rfl⟩ := mem_filling_iff.2 hfills
      have hfits := hall b hb
      have hsources : b.arc.place ∉ (net.inbound transition).map fun a => a.arc.place := by
        simpa using hfills.2.2
      rwa [arrivalsAt_moved_filling hfills.2.1 hsources] at hfits
    · intro hall b hb
      have hfills := mem_filling_iff.1 ⟨b, hb, rfl⟩
      have hsources : b.arc.place ∉ (net.inbound transition).map fun a => a.arc.place := by
        simpa using hfills.2.2
      rw [arrivalsAt_moved_filling hfills.2.1 hsources]
      exact hall _ hfills

/-- The test follows the rules, except that a crowded place keeps a transition back. -/
theorem isEnabled_iff_enables (hknown : net.transitions.contains transition = true)
    (hvalues : net.Evaluable m (net.examined transition)) :
    ∃ b, net.isEnabled m transition = .ok b ∧
      (b = true ↔ net.Enables m transition ∧ ¬ net.Crowded m transition) := by
  obtain ⟨b, hb, hiff⟩ := isEnabled_spec hknown hvalues
  refine ⟨b, hb, hiff.trans ?_⟩
  constructor
  · rintro ⟨hfinds, hfits⟩
    refine ⟨⟨hfinds, fun place hfills _ => hfits place hfills⟩, ?_⟩
    rintro ⟨place, hfills, hzero, hfull⟩
    have hroom := hfits place hfills
    rw [hzero] at hroom
    exact fits_zero_iff.1 hroom hfull
  · rintro ⟨henables, hcrowded⟩
    refine ⟨henables.finds, fun place hfills => ?_⟩
    by_cases hzero : net.arriving m transition place = Count.zero
    · rw [hzero]
      exact fits_zero_iff.2 fun hfull => hcrowded ⟨place, hfills, hzero, hfull⟩
    · exact henables.fits place hfills hzero

/-- A transition that takes tokens, is kept back by others, and fills a tank to the brim. -/
def lock : IncludeTree := Sample.single
  [Sample.place "P" 2, Sample.place "Q" 0,
    .place ⟨"Tank", Table.empty.insert defaultColor (Count.ofNat 1), 4, PlaceStatus.plain⟩,
    Sample.transition "T" Rate.one, Sample.arc "a" "P" "T" .placeToTransition "2",
    .arc ⟨"b", "Q", "T", .placeToTransition, .inhibitor, Table.empty, []⟩,
    Sample.arc "c" "Tank" "T" .transitionToPlace "#(P) + 1"]

/-- It is enabled, and so all its rules hold. -/
theorem enables_lock : ∃ net, FlatNet.ofTree lock = .ok net ∧ net.transitions.contains "T" = true ∧
    net.Evaluable net.initial (net.examined "T") ∧ net.isEnabled net.initial "T" = .ok true ∧
    net.Enables net.initial "T" := by
  have hrun : (FlatNet.ofTree lock).map (fun net => (net.transitions.contains "T",
      decide (net.Evaluable net.initial (net.examined "T")), net.isEnabled net.initial "T")) =
        .ok (true, true, .ok true) := by
    decide +kernel
  obtain ⟨net, hnet, houtcome⟩ := map_eq_ok.1 hrun
  simp only [Prod.mk.injEq, decide_eq_true_eq] at houtcome
  obtain ⟨hknown, hvalues, henabled⟩ := houtcome
  obtain ⟨b, hb, hiff⟩ := isEnabled_iff_enables hknown hvalues
  rw [henabled] at hb
  cases hb
  exact ⟨net, hnet, hknown, hvalues, henabled, (hiff.1 rfl).1⟩

/-- A place that holds more than its capacity, and a transition whose weight into it is zero. -/
def crowd : IncludeTree := Sample.single
  [.place ⟨"P", Table.empty.insert defaultColor (Count.ofNat 3), 2, PlaceStatus.plain⟩,
    Sample.transition "T" Rate.one, Sample.arc "a" "P" "T" .transitionToPlace "0"]

/-- By the rules the transition is enabled, for nothing arrives anywhere, and the test says that it is not. -/
theorem enables_but_kept_back : ∃ net, FlatNet.ofTree crowd = .ok net ∧
    net.Evaluable net.initial (net.inbound "T") ∧ net.Evaluable net.initial (net.outbound "T") ∧
    net.Enables net.initial "T" ∧ net.isEnabled net.initial "T" = .ok false := by
  have hrun : (FlatNet.ofTree crowd).map (fun net => (decide (net.Evaluable net.initial (net.outbound "T")),
      (net.inbound "T").isEmpty,
      decide (∀ b ∈ net.outbound "T", net.arriving net.initial "T" b.arc.place = Count.zero),
      net.isEnabled net.initial "T")) = .ok (true, true, true, .ok false) := by
    decide +kernel
  obtain ⟨net, hnet, houtcome⟩ := map_eq_ok.1 hrun
  simp only [Prod.mk.injEq, decide_eq_true_eq, List.isEmpty_iff] at houtcome
  obtain ⟨hvalues, hnone, hzero, hrefused⟩ := houtcome
  refine ⟨net, hnet, by simp [Evaluable, hnone], hvalues, ⟨by simp [hnone], ?_⟩, hrefused⟩
  -- the only place that is filled receives nothing
  rintro place ⟨⟨b, hb, rfl⟩, -⟩ harriving
  exact absurd (hzero b hb) harriving

end FlatNet

end PetriTree
