import Mathlib.Logic.Relation
import PetriTree.Proofs.Arrivals
import PetriTree.Proofs.Change
import PetriTree.Proofs.Firing

/-!
# PetriTree — capacities

Before a firing, the enabling test adds up all that the arcs out of a transition bring to a bounded place,
and compares the total that this would make with the capacity. The firing then adds weight by weight, to
one colour after the other. Every addition clamps, so the two sums agree only because clamped addition is
associative and commutative: a total does not depend on the order in which its counts are added.

A place that a transition both looks at and fills is left out of the test, and can overflow.

Main results:
* `Marking.total_deposit`, `Marking.rank_total_withdraw` — what moving tokens does to a total;
* `FlatNet.total_fire` — the total after a firing is the one that the test compares with the capacity;
* `FlatNet.capacity_kept` — in every run of enabled transitions a bounded place stays within its capacity.
-/

namespace PetriTree

/-! ## Sums of counts -/

namespace Count

theorem add_comm (a b : Count) : a.add b = b.add a := by
  cases a with
  | infinite => cases b <;> rfl
  | finite a =>
    cases b with
    | infinite => rfl
    | finite b =>
      show ofNat (a.val + b.val) = ofNat (b.val + a.val)
      rw [Nat.add_comm]

/-- Clamping on the way is clamping at the end. -/
theorem add_assoc (a b c : Count) : (a.add b).add c = a.add (b.add c) := by
  cases a with
  | infinite => rfl
  | finite a =>
    cases b with
    | infinite => rfl
    | finite b =>
      cases c with
      | infinite => rfl
      | finite c =>
        refine rank_injective ?_
        show min (min (a.val + b.val) limit + c.val) limit = min (a.val + min (b.val + c.val) limit) limit
        omega

theorem add_zero (a : Count) : a.add zero = a := by
  cases a with
  | infinite => rfl
  | finite a =>
    have hlt := a.isLt
    refine rank_injective ?_
    show min (a.val + 0) limit = a.val
    unfold limit
    omega

instance : Std.Associative Count.add := ⟨add_assoc⟩

/-- Nothing is above infinity. -/
theorem rank_le (n : Count) : n.rank ≤ infinite.rank := by
  cases n with
  | infinite => exact Nat.le_refl _
  | finite x => exact Nat.le_of_lt x.isLt

/-- Adding more makes a sum no smaller. -/
theorem rank_add_le (a : Count) {b c : Count} (h : b.rank ≤ c.rank) : (a.add b).rank ≤ (a.add c).rank := by
  cases a with
  | infinite => exact Nat.le_refl _
  | finite a =>
    cases c with
    | infinite => exact rank_le _
    | finite c =>
      cases b with
      | infinite =>
        have hlt := c.isLt
        simp only [rank] at h
        omega
      | finite b =>
        simp only [rank] at h
        show min (a.val + b.val) limit ≤ min (a.val + c.val) limit
        omega

/-- Taking leaves no more than there was. -/
theorem rank_sub?_le {a taken after : Count} (h : a.sub? taken = some after) : after.rank ≤ a.rank := by
  cases a with
  | infinite =>
    cases h
    exact Nat.le_refl _
  | finite a =>
    obtain ⟨b, _, _, c, rfl, hc⟩ := Marking.sub?_finite h
    show c.val ≤ a.val
    omega

end Count

/-! ## Totals -/

namespace Holding

/-- A sum of counts, split into the count of one colour and those of the others. -/
theorem foldl_add_erase (color : String) (sum : Count) (entries : List (String × Count)) :
    (entries.map Prod.snd).foldl Count.add sum =
      (((SortedMap.eraseEntry color entries).map Prod.snd).foldl Count.add sum).add
        ((SortedMap.lookup color entries).getD Count.zero) := by
  induction entries generalizing sum with
  | nil => exact (Count.add_zero sum).symm
  | cons e rest ih =>
    rw [List.map_cons, List.foldl_cons, SortedMap.eraseEntry, SortedMap.lookup]
    split
    -- the count of the colour moves past those that follow
    · rw [Count.add_comm sum, List.foldl_assoc, Count.add_comm]
      rfl
    · exact ih _

/-- A total is the count of one colour on top of the total of the others. -/
theorem total_eq (h : Holding) (color : String) :
    h.total = (h.put color Count.zero).total.add (h.tokens color) := by
  have hothers : (h.put color Count.zero).counts = h.counts.erase color := by
    rw [put, dif_pos rfl]
  unfold total tokens
  rw [hothers]
  exact foldl_add_erase color Count.zero h.counts.entries

theorem total_put (h : Holding) (color : String) (n : Count) :
    (h.put color n).total = (h.put color Count.zero).total.add n := by
  have hothers : (h.put color n).put color Count.zero = h.put color Count.zero := by
    refine Holding.ext fun other => ?_
    simp only [tokens_put]
    split <;> rfl
  rw [total_eq (h.put color n) color, hothers, tokens_put, if_pos rfl]

end Holding

namespace Marking

theorem total_put_of_ne (m : Marking) {place other : String} (h : other ≠ place) (color : String) (n : Count) :
    (m.put place color n).total other = m.total other := by
  unfold total
  rw [holding_put, if_neg h]

/-- Adding to one colour adds to the total. -/
theorem total_put_add (m : Marking) (place color : String) (n : Count) :
    (m.put place color ((m.tokens place color).add n)).total place = (m.total place).add n := by
  unfold total
  rw [holding_put, if_pos rfl, Holding.total_put, ← Count.add_assoc]
  exact congrArg (Count.add · n) ((m.holding place).total_eq color).symm

/-- Lowering the count of one colour does not raise the total. -/
theorem rank_total_put_le (m : Marking) (place color : String) {n : Count}
    (h : n.rank ≤ (m.tokens place color).rank) : ((m.put place color n).total place).rank ≤ (m.total place).rank := by
  unfold total
  rw [holding_put, if_pos rfl, Holding.total_put, (m.holding place).total_eq color]
  exact Count.rank_add_le _ h

/-- Transfers add to a total what they bring to its place, all colours together. -/
theorem total_deposit (m : Marking) (ts : List Transfer) (place : String) :
    (m.deposit ts).total place = arrivalsAt place (m.total place) ts := by
  induction ts generalizing m with
  | nil => rfl
  | cons t rest ih =>
    rw [deposit, ih, arrivalsAt, arrivalsAt, List.foldl_cons]
    split
    · rename_i heq
      rw [← heq, total_put_add]
    · rename_i hne
      rw [total_put_of_ne m (Ne.symm hne)]

/-- Withdrawing raises no total. -/
theorem rank_total_withdraw {m left : Marking} {ts : List Transfer} (h : m.withdraw ts = some left)
    (place : String) : (left.total place).rank ≤ (m.total place).rank := by
  induction ts generalizing m with
  | nil =>
    cases h
    exact Nat.le_refl _
  | cons t rest ih =>
    rw [withdraw] at h
    cases hafter : (m.tokens t.place t.color).sub? t.count with
    | none =>
      rw [hafter] at h
      cases h
    | some after =>
      rw [hafter] at h
      refine Nat.le_trans (ih h) ?_
      by_cases hplace : place = t.place
      · subst hplace
        exact rank_total_put_le m t.place t.color (Count.rank_sub?_le hafter)
      · exact Nat.le_of_eq (congrArg Count.rank (total_put_of_ne m hplace t.color after))

/-- What is withdrawn elsewhere is not missing here. -/
theorem total_withdraw {m left : Marking} {ts : List Transfer} (h : m.withdraw ts = some left) {place : String}
    (hplace : ∀ t ∈ ts, t.place ≠ place) : left.total place = m.total place := by
  induction ts generalizing m with
  | nil =>
    cases h
    rfl
  | cons t rest ih =>
    rw [withdraw] at h
    split at h
    · cases h
    · rw [ih h fun t' ht' => hplace t' (List.mem_cons_of_mem _ ht')]
      exact total_put_of_ne m (Ne.symm (hplace t (List.mem_cons_self ..))) t.color _

end Marking

/-- What was there before counts on top of all that arrives. -/
theorem arrivalsAt_add (place : String) (a b : Count) (ts : List Transfer) :
    arrivalsAt place (a.add b) ts = a.add (arrivalsAt place b ts) := by
  induction ts generalizing b with
  | nil => rfl
  | cons t rest ih =>
    simp only [arrivalsAt, List.foldl_cons] at ih ⊢
    split
    · rw [Count.add_assoc, ih]
    · exact ih b

/-! ## Firing under a capacity -/

namespace FlatNet

variable {net : FlatNet} {m : Marking} {transition place : String}

/-- Does no transition both look at the place, by an arc of any kind, and fill it? -/
def Unlooped (net : FlatNet) (place : String) : Prop :=
  ∀ a ∈ net.arcs.values, ∀ b ∈ net.arcs.values, a.arc.isInbound = true → b.arc.isInbound = false →
    a.arc.transition = b.arc.transition → a.arc.place = place → b.arc.place ≠ place

instance (net : FlatNet) (place : String) : Decidable (net.Unlooped place) :=
  inferInstanceAs (Decidable (∀ a ∈ net.arcs.values, ∀ b ∈ net.arcs.values, _))

/-- Does a place hold finitely many tokens, and no more than its capacity? -/
def WithinCapacity (net : FlatNet) (place : String) (m : Marking) : Prop :=
  ∃ n, m.total place = .finite n ∧ n.val ≤ (net.capacity place).toNat

/-- Does a transition that is enabled lead from one marking to another, whatever its priority? -/
def Advances (net : FlatNet) (m after : Marking) : Prop :=
  ∃ transition, net.isEnabled m transition = .ok true ∧ net.fire m transition = .ok after

theorem Unlooped.place_ne (h : net.Unlooped place) {a b : FlatArc} (ha : a ∈ net.inbound transition)
    (hb : b ∈ net.outbound transition) (hplace : a.arc.place = place) : b.arc.place ≠ place := by
  obtain ⟨ha, hinto⟩ := List.mem_filter.1 ha
  obtain ⟨hb, hout⟩ := List.mem_filter.1 hb
  simp only [Bool.and_eq_true, Bool.not_eq_true', beq_iff_eq] at hinto hout
  exact h a ha b hb hinto.1 hout.1 (hinto.2.trans hout.2.symm) hplace

theorem WithinCapacity.of_rank_le {after : Marking} (h : net.WithinCapacity place m)
    (hle : (after.total place).rank ≤ (m.total place).rank) : net.WithinCapacity place after := by
  obtain ⟨n, hn, hcapacity⟩ := h
  rw [hn] at hle
  have hlt := n.isLt
  cases hafter : after.total place with
  | infinite =>
    -- infinity would be more than there was
    rw [hafter] at hle
    simp only [Count.rank] at hle
    omega
  | finite k =>
    rw [hafter] at hle
    exact ⟨k, hafter, Nat.le_trans hle hcapacity⟩

/-- Arcs that the test leaves out bring nothing to a place that it asks about. -/
theorem arrivalsAt_filling {sources : List String} {arcs : List FlatArc} {ts us : List Transfer}
    (hts : net.transfers m (net.filling sources arcs) = .ok ts) (hus : net.transfers m arcs = .ok us)
    (hcapacity : net.capacity place ≠ 0) (hsources : place ∉ sources) (sum : Count) :
    arrivalsAt place sum ts = arrivalsAt place sum us := by
  induction arcs generalizing ts us sum with
  | nil =>
    cases hts
    cases hus
    rfl
  | cons a rest ih =>
    simp only [transfers, bind_eq_ok] at hus
    obtain ⟨first, hfirst, others, hothers, hus⟩ := hus
    cases hus
    rw [filling_cons] at hts
    split at hts
    · rename_i hskip
      -- the arc ends elsewhere: its place is unbounded or a source, and this one is neither
      have hne : ∀ t ∈ first, t.place ≠ place := by
        intro t ht heq
        have hplace : a.arc.place = place := (place_of_transfersOf hfirst t ht).symm.trans heq
        rw [hplace] at hskip
        exact hskip.elim hcapacity hsources
      rw [arrivalsAt_append, arrivalsAt_eq_self hne]
      exact ih hts hothers sum
    · simp only [transfers, bind_eq_ok] at hts
      obtain ⟨first', hfirst', others', hothers', hts⟩ := hts
      cases hts
      rw [hfirst] at hfirst'
      cases hfirst'
      rw [arrivalsAt_append, arrivalsAt_append]
      exact ih hothers' hothers _

/-- The capacity test of an enabled transition was passed at every place it asks about. -/
theorem hasRoom_of_isEnabled (h : net.isEnabled m transition = .ok true) {a : FlatArc}
    (ha : a ∈ net.filling ((net.inbound transition).map fun a => a.arc.place) (net.outbound transition)) :
    ∃ ts, net.transfers m (net.filling ((net.inbound transition).map fun a => a.arc.place)
        (net.outbound transition)) = .ok ts ∧
      net.hasRoom m a.arc.place (arrivalsAt a.arc.place Count.zero ts) = true := by
  simp only [isEnabled, guard_eq_ok, bind_eq_ok] at h
  obtain ⟨_, satisfied, _, h⟩ := h
  cases satisfied with
  | false => cases h
  | true =>
    have htest := hasRoomForAll_toOption net m ((net.inbound transition).map fun a => a.arc.place)
      (net.outbound transition)
    have hpassed : _ = some true := htest.symm.trans (toOption_eq_some.2 h)
    obtain ⟨ts, hts, hall⟩ := Option.map_eq_some_iff.1 hpassed
    exact ⟨ts, toOption_eq_some.1 hts, List.all_eq_true.1 hall a ha⟩

/-- A place with room for what arrives stays within its capacity when it has arrived. -/
theorem within_of_hasRoom {n : Fin 0xffffffffffffffff} {arriving : Count} (hn : m.total place = .finite n)
    (h : net.hasRoom m place arriving = true) :
    ∃ k, (m.total place).add arriving = .finite k ∧ k.val ≤ (net.capacity place).toNat := by
  unfold hasRoom at h
  rw [hn] at h ⊢
  cases hsum : (Count.finite n).add arriving with
  | infinite =>
    rw [hsum] at h
    cases h
  | finite k =>
    rw [hsum] at h
    exact ⟨k, rfl, of_decide_eq_true h⟩

/-- The total after a firing that takes nothing from a place: all that arrives there, on top of what
there was. -/
theorem total_fire {after : Marking} (h : net.fire m transition = .ok after)
    (hplace : ∀ a ∈ net.inbound transition, a.arc.place ≠ place) :
    ∃ us, net.transfers m (net.outbound transition) = .ok us ∧
      after.total place = (m.total place).add (arrivalsAt place Count.zero us) := by
  obtain ⟨ts, left, us, hts, hleft, hus, rfl⟩ := fire_eq_ok h
  have hne : ∀ t ∈ ts, t.place ≠ place := by
    intro t ht heq
    obtain ⟨a, ha, haplace⟩ := List.mem_map.1 (place_of_transfers hts t ht)
    exact hplace a (List.mem_filter.1 ha).1 (haplace.trans heq)
  refine ⟨us, hus, ?_⟩
  calc (left.deposit us).total place = arrivalsAt place (left.total place) us := left.total_deposit us place
    _ = arrivalsAt place (m.total place) us := by rw [Marking.total_withdraw hleft hne]
    _ = arrivalsAt place ((m.total place).add Count.zero) us := by rw [Count.add_zero]
    _ = (m.total place).add (arrivalsAt place Count.zero us) := arrivalsAt_add ..

/-- A transition without an arc to a place raises its total in no firing. -/
theorem rank_total_fire {after : Marking} (h : net.fire m transition = .ok after)
    (hplace : ∀ b ∈ net.outbound transition, b.arc.place ≠ place) :
    (after.total place).rank ≤ (m.total place).rank := by
  obtain ⟨ts, left, us, _, hleft, hus, rfl⟩ := fire_eq_ok h
  have hne : ∀ t ∈ us, t.place ≠ place := by
    intro t ht heq
    obtain ⟨b, hb, hbplace⟩ := List.mem_map.1 (place_of_transfers hus t ht)
    exact hplace b hb (hbplace.trans heq)
  rw [Marking.total_deposit, arrivalsAt_eq_self hne]
  exact Marking.rank_total_withdraw hleft place

/-- One firing of an enabled transition keeps a bounded place within its capacity. -/
theorem WithinCapacity.advance {after : Marking} (h : net.WithinCapacity place m)
    (hbounded : 0 < net.capacity place) (hloops : net.Unlooped place) (hstep : net.Advances m after) :
    net.WithinCapacity place after := by
  obtain ⟨transition, henabled, hfire⟩ := hstep
  by_cases hfed : ∃ b ∈ net.outbound transition, b.arc.place = place
  -- a transition that fills the place takes nothing from it, and has passed the test
  · obtain ⟨b, hb, rfl⟩ := hfed
    have hsource : ∀ a ∈ net.inbound transition, a.arc.place ≠ b.arc.place := fun a ha heq =>
      hloops.place_ne ha hb heq rfl
    have hcapacity : net.capacity b.arc.place ≠ 0 := fun hzero => by
      rw [hzero] at hbounded
      exact absurd hbounded (by decide)
    have hsources : b.arc.place ∉ (net.inbound transition).map fun a => a.arc.place := by
      intro hmem
      obtain ⟨a, ha, heq⟩ := List.mem_map.1 hmem
      exact hsource a ha heq
    have hfilling : b ∈ net.filling ((net.inbound transition).map fun a => a.arc.place)
        (net.outbound transition) := by
      refine List.mem_filter.2 ⟨hb, ?_⟩
      rw [decide_eq_false (not_or.2 ⟨hcapacity, hsources⟩)]
      rfl
    obtain ⟨n, hn, _⟩ := h
    obtain ⟨ts, hts, hroom⟩ := hasRoom_of_isEnabled henabled hfilling
    obtain ⟨us, hus, htotal⟩ := total_fire hfire hsource
    unfold WithinCapacity
    rw [htotal, ← arrivalsAt_filling hts hus hcapacity hsources]
    exact within_of_hasRoom hn hroom
  -- any other transition leaves it at most as full as it was
  · have hnone : ∀ b ∈ net.outbound transition, b.arc.place ≠ place := fun b hb heq => hfed ⟨b, hb, heq⟩
    exact h.of_rank_le (rank_total_fire hfire hnone)

/-- In every run of enabled transitions, a bounded place that no transition both looks at and fills stays
finite and within its capacity, when it starts so. -/
theorem capacity_kept {after : Marking} (hbounded : 0 < net.capacity place) (hloops : net.Unlooped place)
    (h : net.WithinCapacity place m) (hrun : Relation.ReflTransGen net.Advances m after) :
    net.WithinCapacity place after := by
  induction hrun with
  | refl => exact h
  | tail _ hstep ih => exact ih.advance hbounded hloops hstep

/-- A tank with room for four tokens, which a transition fills by two arcs, the more the fuller the spring
is, and another one drains. -/
def tank : IncludeTree := Sample.single
  [Sample.place "Spring" 2, .place ⟨"Tank", Table.empty.insert defaultColor (Count.ofNat 1), 4, PlaceStatus.plain⟩,
    Sample.transition "Fill" Rate.one, Sample.transition "Drain" Rate.one,
    Sample.arc "a" "Spring" "Fill" .placeToTransition "1", Sample.arc "b" "Tank" "Fill" .transitionToPlace "1",
    Sample.arc "c" "Tank" "Fill" .transitionToPlace "#(Spring)",
    Sample.arc "d" "Tank" "Drain" .placeToTransition "1"]

/-- The tank is filled to the brim, and drained by one. -/
theorem capacity_kept_tank : ∃ (net : FlatNet) (full after : Marking), FlatNet.ofTree tank = .ok net ∧
    0 < net.capacity "Tank" ∧ net.Unlooped "Tank" ∧ net.WithinCapacity "Tank" net.initial ∧
    net.Advances net.initial full ∧ full.total "Tank" = Count.ofNat 4 ∧ net.Advances full after ∧
    net.WithinCapacity "Tank" after := by
  have hrun : (FlatNet.ofTree tank).map (fun net =>
      decide (0 < net.capacity "Tank") && decide (net.Unlooped "Tank") &&
        decide (net.initial.total "Tank" = Count.ofNat 1 ∧ net.capacity "Tank" = 4) &&
        decide (net.isEnabled net.initial "Fill" = .ok true) &&
        (net.fire net.initial "Fill").toOption.any fun full =>
          decide (full.total "Tank" = Count.ofNat 4) && decide (net.isEnabled full "Drain" = .ok true) &&
            (net.fire full "Drain").toOption.isSome) = .ok true := by
    decide +kernel
  obtain ⟨net, hnet, houtcome⟩ := map_eq_ok.1 hrun
  simp only [Bool.and_eq_true, decide_eq_true_eq, Option.any_eq_true, toOption_eq_some,
    Option.isSome_iff_exists] at houtcome
  obtain ⟨⟨⟨⟨hbounded, hloops⟩, hstart, hfour⟩, hfill⟩, full, hfull, ⟨hbrim, hdrain⟩, after, hafter⟩ := houtcome
  have hwithin : net.WithinCapacity "Tank" net.initial := ⟨_, hstart, by rw [hfour]; decide⟩
  have hfirst : net.Advances net.initial full := ⟨"Fill", hfill, hfull⟩
  have hsecond : net.Advances full after := ⟨"Drain", hdrain, hafter⟩
  exact ⟨net, full, after, hnet, hbounded, hloops, hwithin, hfirst, hbrim, hsecond,
    capacity_kept hbounded hloops hwithin ((Relation.ReflTransGen.single hfirst).tail hsecond)⟩

end FlatNet

end PetriTree
