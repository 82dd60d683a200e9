import PetriTree.Live.Writer
import PetriTree.Proofs.Agreement
import PetriTree.Proofs.Marking
import PetriTree.Proofs.NetEdit
import PetriTree.Proofs.Operation

/-!
# PetriTree — markings are kept in one way only

Markings tell states apart: in the cache of what is enabled, and in the space of all states. Two that mean the same must
therefore be the same, and in a map of maps this is lost as soon as a count of zero is stored somewhere.

The markings here cannot hold one, but this says nothing about a store. So the writing is followed on both sides. Every
way of writing does to the store what it does to the marking that is kept there, count by count, and refuses in the same
cases. What is in the store after any number of them is then what is kept of a marking, and holds no zero either.

Main results:
* `Marking.stored_put`, `Marking.stored_ofPlaces` — the two ways of writing, on both sides;
* `Marking.stored_fire`, `Marking.stored_fireBackwards`, `Marking.stored_restore`, `Marking.stored_pull` — those that
  write many counts;
* `Marking.stored_written`, `Marking.stored_writtenAll` — every way of writing, and several one after the other;
* `Marking.stored_eq_iff` — what is kept tells markings apart by places and tokens;
* `Store.canonical_writtenAll` — no zero is stored, and equal stores are those with the same places and tokens.
-/

namespace PetriTree

/-- The same places, and in every place the same tokens of every colour. -/
structure Store.Matches (s t : Store) : Prop where
  contains : ∀ place, s.contains place = t.contains place
  tokens : ∀ place color, s.tokens place color = t.tokens place color

/-- A count of zero takes the colour out. -/
theorem Holding.counts_put (h : Holding) (color : String) (n : Count) :
    (h.put color n).counts = if n.isZero then h.counts.erase color else h.counts.insert color n := by
  unfold put
  by_cases hn : n = Count.zero
  · rw [dif_pos hn, if_pos (Count.isZero_iff.2 hn)]
  · rw [dif_neg hn, if_neg fun hzero => hn (Count.isZero_iff.1 hzero)]

namespace Marking

variable {net : FlatNet} (m : Marking)

/-! ## Asking -/

theorem get?_stored (place : String) : m.stored.places.get? place = (m.places.get? place).map Holding.counts :=
  SortedMap.get?_map Holding.counts m.places place

theorem counts_stored (place : String) : m.stored.counts place = (m.holding place).counts := by
  rw [Store.counts, get?_stored, holding]
  cases m.places.get? place <;> rfl

theorem contains_stored (place : String) : m.stored.contains place = m.contains place := by
  rw [Store.contains, contains, SortedMap.contains, SortedMap.contains, get?_stored, Option.isSome_map]

theorem tokens_stored (place color : String) : m.stored.tokens place color = m.tokens place color := by
  rw [Store.tokens, counts_stored]
  rfl

theorem total_stored (place : String) : m.stored.total place = m.total place := by
  rw [Store.total, counts_stored]
  rfl

/-- Nothing that is kept of a marking is zero. -/
theorem canonical_stored : m.stored.Canonical := by
  intro place color hzero
  rw [counts_stored, SortedMap.get?_eq_some_iff] at hzero
  exact (m.holding place).positive _ hzero rfl

/-- What is kept tells markings apart by places and tokens. -/
theorem stored_eq_iff {m n : Marking} : m.stored = n.stored ↔ m.stored.Matches n.stored := by
  constructor
  · intro h
    rw [h]
    exact ⟨fun _ => rfl, fun _ _ => rfl⟩
  · rintro ⟨hplaces, htokens⟩
    simp only [contains_stored] at hplaces
    simp only [tokens_stored] at htokens
    rw [ext hplaces htokens]

theorem eq_iff_agrees {m n : Marking} : m = n ↔ (∀ place, m.contains place = n.contains place) ∧ m.Agrees n := by
  constructor
  · rintro rfl
    exact ⟨fun _ => rfl, Agrees.refl m⟩
  · rintro ⟨hplaces, hagrees⟩
    exact hagrees.eq hplaces

/-! ## The two ways of writing -/

theorem stored_put (place color : String) (n : Count) :
    (m.put place color n).stored = m.stored.put place color n := by
  rw [Store.put, counts_stored, ← Holding.counts_put, stored, put, SortedMap.map_insert]
  rfl

theorem stored_addPlace (place : String) :
    (m.addPlace place).stored = ⟨m.stored.places.insert place (m.stored.counts place)⟩ := by
  rw [counts_stored, stored, addPlace, SortedMap.map_insert]
  rfl

/-- Setting several counts of a place that was just set. -/
theorem stored_foldl_put (place : String) (places : SortedMap String (SortedMap String Count)) :
    ∀ (added : List (String × Count)) (m : Marking) (counts : SortedMap String Count),
      m.stored = ⟨places.insert place counts⟩ →
      (added.foldl (fun m e => if e.2.isZero then m else m.put place e.1 e.2) m).stored =
        ⟨places.insert place (Store.fill counts added)⟩
  | [], _, _, h => h
  | (color, n) :: rest, m, counts, h => by
    rw [List.foldl_cons, Store.fill, List.foldl_cons]
    by_cases hzero : n.isZero = true
    -- a zero does not even replace a count that was listed before it
    · rw [if_pos hzero, if_pos hzero]
      exact stored_foldl_put place places rest m counts h
    · rw [if_neg hzero, if_neg hzero]
      refine stored_foldl_put place places rest _ _ ?_
      have hcounts : m.stored.counts place = counts := by
        simp [h, Store.counts, SortedMap.get?_insert]
      -- the marking sets the place count by count, the store once: only the last time is seen
      rw [stored_put, Store.put, hcounts, if_neg hzero, h, SortedMap.insert_insert]

theorem stored_putAll (place : String) (added : List (String × Count)) :
    (m.putAll place added).stored =
      ⟨m.stored.places.insert place (Store.fill (m.stored.counts place) added)⟩ :=
  stored_foldl_put place m.stored.places added _ _ (m.stored_addPlace place)

theorem stored_ofPlaces (places : List (String × List (String × Count))) :
    (ofPlaces places).stored = Store.ofPlaces places :=
  (List.foldl_hom stored fun m p => (m.stored_putAll p.1 p.2).symm).symm

/-! ## Firing

Weights are read in the marking before, which is the same on both sides.
-/

theorem tokensIn_stored : m.stored.tokensIn net = net.tokensIn m := by
  funext place color
  unfold Store.tokensIn FlatNet.tokensIn
  cases color with
  | none => simp only [total_stored]
  | some color => simp only [tokens_stored]

theorem parameterValue_stored :
    ∀ definitions : List (String × Expr), m.stored.parameterValue net definitions = net.parameterValue m definitions
  | [] => rfl
  | (key, e) :: rest => by
    funext id
    rw [Store.parameterValue, FlatNet.parameterValue, tokensIn_stored, parameterValue_stored rest]

theorem reading_stored : m.stored.reading net = net.reading m := by
  rw [Store.reading, FlatNet.reading, tokensIn_stored, parameterValue_stored]

theorem weigh_stored (arc : String) (e : Expr) : m.stored.weigh net arc e = net.weigh m arc e := by
  rw [Store.weigh, reading_stored]
  rfl

theorem stored_takeWeights (arc : Arc) (short : FiringError) : ∀ (weights : List (String × Expr)) (left : Marking),
    (net.takeWeights m arc short left weights).map stored = m.stored.takeWeights net arc short left.stored weights
  | [], _ => rfl
  | (color, e) :: rest, left => by
    rw [FlatNet.takeWeights, Store.takeWeights, weigh_stored]
    refine map_bind_eq_left fun n => ?_
    rw [tokens_stored]
    cases (left.tokens arc.place color).sub? n with
    -- too little is there on both sides, and the refusal is the same
    | none => rfl
    | some after =>
      have hrest := stored_takeWeights arc short rest (left.put arc.place color after)
      rwa [stored_put] at hrest

theorem stored_giveWeights (arc : Arc) : ∀ (weights : List (String × Expr)) (left : Marking),
    (net.giveWeights m arc left weights).map stored = m.stored.giveWeights net arc left.stored weights
  | [], _ => rfl
  | (color, e) :: rest, left => by
    rw [FlatNet.giveWeights, Store.giveWeights, weigh_stored]
    refine map_bind_eq_left fun n => ?_
    rw [stored_giveWeights arc rest, stored_put, tokens_stored]

theorem stored_takeAll (short : Arc → FiringError) : ∀ (arcs : List FlatArc) (left : Marking),
    (net.takeAll m short left arcs).map stored = m.stored.takeAll net short left.stored arcs
  | [], _ => rfl
  | a :: rest, left => map_bind_eq (m.stored_takeWeights a.arc (short a.arc) a.weights left)
      fun taken => stored_takeAll short rest taken

theorem stored_giveAll : ∀ (arcs : List FlatArc) (left : Marking),
    (net.giveAll m left arcs).map stored = m.stored.giveAll net left.stored arcs
  | [], _ => rfl
  | a :: rest, left => map_bind_eq (m.stored_giveWeights a.arc a.weights left) fun given => stored_giveAll rest given

theorem stored_fire (net : FlatNet) (transition : String) :
    (net.fire m transition).map stored = m.stored.fire net transition :=
  map_bind_eq (m.stored_takeAll _ _ m) fun left => m.stored_giveAll _ left

theorem stored_fireBackwards (net : FlatNet) (transition : String) :
    (net.fireBackwards m transition).map stored = m.stored.fireBackwards net transition :=
  map_bind_eq (m.stored_takeAll _ _ m) fun left => m.stored_giveAll _ left

/-! ## Counts from elsewhere -/

theorem stored_restore (changes : List TokenChange) :
    (Simulation.restore m changes).stored = m.stored.restore changes :=
  (List.foldl_hom stored fun m change => (m.stored_put change.place change.color change.before).symm).symm

theorem stored_recount (colors : List String) (flat : String) (count : String → Count) :
    (colors.foldl (fun m color => m.put flat color (count color)) m).stored =
      colors.foldl (fun s color => s.put flat color (count color)) m.stored :=
  (List.foldl_hom stored fun m color => (m.stored_put flat color (count color)).symm).symm

theorem stored_pullPairs (tree : IncludeTree) (colors : List String) :
    ∀ (pairs : List (String × SourcePlace)) (m : Marking),
      (LiveNet.pullPairs tree colors pairs m).map stored = Store.pullPairs tree colors pairs m.stored
  | [], _ => rfl
  | (flat, source) :: rest, m => by
    rw [LiveNet.pullPairs, Store.pullPairs]
    refine map_bind_eq_left fun net => map_bind_eq_left fun place => ?_
    rw [stored_pullPairs tree colors rest, stored_recount]

theorem stored_pull (net : FlatNet) (tree : IncludeTree) :
    (LiveNet.pullPairs tree net.colors.names (LiveNet.primaryPairs net) m).map stored = m.stored.pull net tree :=
  stored_pullPairs tree net.colors.names (LiveNet.primaryPairs net) m

/-! ## Every way of writing -/

/-- A change that is refused on one side is refused on the other. -/
theorem stored_getD {change : Except ε Marking} {changed : Except ε Store} (h : change.map stored = changed) :
    (change.toOption.getD m).stored = changed.toOption.getD m.stored := by
  subst h
  cases change <;> rfl

theorem marking_setTokens (live : LiveNet) (place color : String) (n : Count) :
    (live.edited (.setTokens place color n)).marking =
      if live.net.places.contains place && live.net.colors.contains color then live.marking.put place color n
      else live.marking := by
  show (live.orKeep (live.setTokens place color n)).marking = _
  unfold LiveNet.setTokens FlatNet.place Table.contains
  cases live.net.places.get? place with
  | none => rfl
  | some found => cases live.net.colors.get? color <;> rfl

theorem marking_pull (live : LiveNet) (tree : IncludeTree) :
    (live.edited (.pull tree)).marking =
      (LiveNet.pullPairs tree live.net.colors.names (LiveNet.primaryPairs live.net) live.marking).toOption.getD
        live.marking := by
  show (live.orKeep (live.pull tree)).marking = _
  unfold LiveNet.pull
  cases LiveNet.pullPairs tree live.net.colors.names (LiveNet.primaryPairs live.net) live.marking <;> rfl

/-- The marking moves whether or not the schedule can follow. -/
theorem marking_undo (sim : Simulation) : sim.undo.1.marking =
    match sim.history.getLast? with
    | none => sim.marking
    | some last => Simulation.restore sim.marking last.changes := by
  have hundoing := sim.undoing_undo
  generalize sim.undo = outcome at hundoing ⊢
  cases hundoing with
  | idle history =>
    rw [history]
    rfl
  | stranded recorded _ =>
    rw [recorded]
    rfl
  | made recorded _ =>
    rw [recorded]
    rfl

/-- Writing does to the store what it does to the marking that is kept there. -/
theorem stored_written (writer : MarkingWriter) : (m.written writer).stored = m.stored.written writer := by
  cases writer with
  | withTokens place color n => exact m.stored_put place color n
  | fire net transition => exact m.stored_getD (m.stored_fire net transition)
  | fireBackwards net transition => exact m.stored_getD (m.stored_fireBackwards net transition)
  | setTokens live place color n =>
    rw [written, marking_setTokens, Store.written]
    split
    · exact m.stored_put place color n
    · rfl
  | undo sim =>
    rw [written, marking_undo, Store.written]
    -- the marking that is asked for the counts is the one the simulation was put into
    show (match sim.history.getLast? with | none => m | some last => Simulation.restore m last.changes).stored = _
    cases sim.history.getLast? with
    | none => rfl
    | some last => exact m.stored_restore last.changes
  | pull live tree =>
    rw [written, marking_pull]
    exact m.stored_getD (m.stored_pull live.net tree)

theorem stored_writtenAll (writers : List MarkingWriter) :
    (m.writtenAll writers).stored = m.stored.writtenAll writers :=
  (List.foldl_hom stored fun m writer => (m.stored_written writer).symm).symm

end Marking

namespace Store

/-- Whatever lists of places two stores are begun from, the empty list among them, and whatever is written into them: no
count of zero is stored, and the two are equal, and equal in order, just when they have the same places and the same
tokens. What is stored is the marking that is written in the same way, and markings are equal just then as well. -/
theorem canonical_writtenAll (places others : List (String × List (String × Count)))
    (writers more : List MarkingWriter) :
    let s := (ofPlaces places).writtenAll writers
    let t := (ofPlaces others).writtenAll more
    let m := (Marking.ofPlaces places).writtenAll writers
    let n := (Marking.ofPlaces others).writtenAll more
    (s = m.stored ∧ s.Canonical) ∧
      ((s = t ↔ s.Matches t) ∧ (compare s t = .eq ↔ s.Matches t)) ∧
      (m = n ↔ (∀ place, m.contains place = n.contains place) ∧ m.Agrees n) ∧
        (compare m n = .eq ↔ (∀ place, m.contains place = n.contains place) ∧ m.Agrees n) := by
  intro s t m n
  have hs : s = m.stored := by rw [Marking.stored_writtenAll, Marking.stored_ofPlaces]
  have ht : t = n.stored := by rw [Marking.stored_writtenAll, Marking.stored_ofPlaces]
  have hcanonical : s.Canonical := by
    rw [hs]
    exact m.canonical_stored
  have hequal : s = t ↔ s.Matches t := by
    rw [hs, ht]
    exact Marking.stored_eq_iff
  -- both orders tell what differs apart, so equal in order is equal
  refine ⟨⟨hs, hcanonical⟩, ⟨hequal, ?_⟩, Marking.eq_iff_agrees, ?_⟩
  · rw [Std.LawfulEqCmp.compare_eq_iff_eq]
    exact hequal
  · rw [Marking.compare_eq_iff]
    exact Marking.eq_iff_agrees

/-- A place that is given a count of zero is there all the same, whichever way it was written. -/
example : ofPlaces [("P0", [(defaultColor, Count.ofNat 1)]), ("P1", [(defaultColor, Count.zero)])] =
    (empty.put "P0" defaultColor (Count.ofNat 1)).put "P1" defaultColor Count.zero := by
  decide +kernel

end Store

end PetriTree
