import PetriTree.Proofs.Transfer

/-!
# PetriTree — what arrives in bounded places

The enabling test sums up what the arcs out of a transition bring to each bounded place, arc by arc, in a
map that starts empty. Evaluating and adding can be told apart here as well: the arcs come to a list of
transfers, and what the map holds at the end is what they bring to each place.

Main results:
* `arrivalsAt` — what transfers bring to a place, all colours together;
* `FlatNet.addArrivals_eq_ok` — the sums of a run that evaluates every weight;
* `FlatNet.hasRoomForAll_toOption` — the capacity test in terms of transfers.
-/

namespace PetriTree

/-- The tokens of all colours that transfers bring to a place, added to a sum one after the other. -/
def arrivalsAt (place : String) (sum : Count) (ts : List Transfer) : Count :=
  ts.foldl (fun sum t => if t.place = place then sum.add t.count else sum) sum

theorem arrivalsAt_append (place : String) (sum : Count) (ts us : List Transfer) :
    arrivalsAt place sum (ts ++ us) = arrivalsAt place (arrivalsAt place sum ts) us :=
  List.foldl_append

theorem arrivalsAt_eq_self {place : String} {ts : List Transfer} (h : ∀ t ∈ ts, t.place ≠ place)
    (sum : Count) : arrivalsAt place sum ts = sum := by
  induction ts with
  | nil => rfl
  | cons t rest ih =>
    have hrest := ih fun t' ht' => h t' (List.mem_cons_of_mem _ ht')
    rw [arrivalsAt, List.foldl_cons, if_neg (h t (List.mem_cons_self ..))]
    exact hrest

namespace FlatNet

variable {net : FlatNet} {m : Marking} {sources : List String}

/-- The arcs among several whose places are bounded and not among the sources. -/
def filling (net : FlatNet) (sources : List String) (arcs : List FlatArc) : List FlatArc :=
  arcs.filter fun a => !decide (net.capacity a.arc.place = 0 ∨ a.arc.place ∈ sources)

theorem place_of_transfersOf {arc : Arc} {weights : List (String × Expr)} {ts : List Transfer}
    (h : net.transfersOf m arc weights = .ok ts) : ∀ t ∈ ts, t.place = arc.place := by
  intro t ht
  have hmem : (t.place, t.color) ∈ ts.map fun t => (t.place, t.color) := List.mem_map_of_mem ht
  rw [ends_of_transfersOf h] at hmem
  obtain ⟨w, _, heq⟩ := List.mem_map.1 hmem
  exact (congrArg Prod.fst heq).symm

theorem place_of_transfers {arcs : List FlatArc} {ts : List Transfer} (h : net.transfers m arcs = .ok ts) :
    ∀ t ∈ ts, t.place ∈ arcs.map fun a => a.arc.place := by
  intro t ht
  have hmem : (t.place, t.color) ∈ ts.map fun t => (t.place, t.color) := List.mem_map_of_mem ht
  rw [ends_of_transfers h] at hmem
  obtain ⟨a, ha, hw⟩ := List.mem_flatMap.1 hmem
  obtain ⟨w, _, heq⟩ := List.mem_map.1 hw
  exact List.mem_map.2 ⟨a, ha, congrArg Prod.fst heq⟩

/-- Adding the weights of an arc is adding what its transfers bring. -/
theorem addWeights_eq (net : FlatNet) (m : Marking) (arc : Arc) (sum : Count)
    (weights : List (String × Expr)) : net.addWeights m arc.id sum weights =
      (net.transfersOf m arc weights).map (arrivalsAt arc.place sum) := by
  induction weights generalizing sum with
  | nil => rfl
  | cons w rest ih =>
    rw [addWeights, transfersOf]
    cases hn : net.weigh m arc.id w.2 with
    | error e => rfl
    | ok n =>
      show net.addWeights m arc.id (sum.add n) rest = _
      rw [ih]
      cases net.transfersOf m arc rest with
      | error e => rfl
      | ok others =>
        refine congrArg Except.ok ?_
        rw [arrivalsAt, arrivalsAt, List.foldl_cons, if_pos rfl]

theorem filling_cons (a : FlatArc) (rest : List FlatArc) : net.filling sources (a :: rest) =
    if net.capacity a.arc.place = 0 ∨ a.arc.place ∈ sources then net.filling sources rest
    else a :: net.filling sources rest := by
  rw [filling, List.filter_cons]
  by_cases h : net.capacity a.arc.place = 0 ∨ a.arc.place ∈ sources
  · rw [if_pos h, decide_eq_true h]
    rfl
  · rw [if_neg h, decide_eq_false h]
    rfl

/-- The sums of a run that evaluates every weight: what the transfers bring to each place that is filled,
on top of what was there. -/
theorem addArrivals_eq_ok {arrivals sums : SortedMap String Count} {arcs : List FlatArc}
    (h : net.addArrivals m sources arrivals arcs = .ok sums) :
    ∃ ts, net.transfers m (net.filling sources arcs) = .ok ts ∧
      ∀ place, sums.get? place = if place ∈ (net.filling sources arcs).map fun a => a.arc.place then
        some (arrivalsAt place ((arrivals.get? place).getD Count.zero) ts) else arrivals.get? place := by
  -- the sums grow from the front, so those of before are taken along
  induction arcs generalizing arrivals with
  | nil =>
    cases h
    exact ⟨[], rfl, fun place => rfl⟩
  | cons a rest ih =>
    rw [addArrivals] at h
    split at h
    · rename_i hskip
      rw [filling_cons, if_pos hskip]
      exact ih h
    · rename_i hfill
      rw [addWeights_eq, bind_eq_ok] at h
      obtain ⟨sum, hsum, h⟩ := h
      obtain ⟨first, hfirst, rfl⟩ := map_eq_ok.1 hsum
      obtain ⟨ts, hts, hsums⟩ := ih h
      rw [filling_cons, if_neg hfill]
      refine ⟨first ++ ts, ?_, fun place => ?_⟩
      · rw [transfers, hfirst, hts]
        rfl
      · rw [hsums place, SortedMap.get?_insert, arrivalsAt_append, List.map_cons]
        simp only [Std.LawfulEqCmp.compare_eq_iff_eq, List.mem_cons]
        by_cases hplace : place = a.arc.place
        -- the place of the first arc starts from its sum
        · subst hplace
          rw [if_pos rfl, if_pos (Or.inl rfl), Option.getD_some]
          split
          · rfl
          · -- no other arc fills the place
            rename_i hother
            have hnone : ∀ t ∈ ts, t.place ≠ a.arc.place := fun t ht heq =>
              hother (heq ▸ place_of_transfers hts t ht)
            rw [arrivalsAt_eq_self hnone]
        -- any other place does not see the first arc
        · have hnone : ∀ t ∈ first, t.place ≠ place := fun t ht heq =>
            hplace (heq ▸ place_of_transfersOf hfirst t ht)
          rw [if_neg hplace, arrivalsAt_eq_self hnone]
          simp only [hplace, false_or]

/-- The runs fail together, at the first weight without a value. -/
theorem addArrivals_eq_error {arrivals : SortedMap String Count} {arcs : List FlatArc} {x : FiringError}
    (h : net.addArrivals m sources arrivals arcs = .error x) :
    net.transfers m (net.filling sources arcs) = .error x := by
  induction arcs generalizing arrivals with
  | nil => cases h
  | cons a rest ih =>
    rw [addArrivals] at h
    split at h
    · rename_i hskip
      rw [filling_cons, if_pos hskip]
      exact ih h
    · rename_i hfill
      rw [filling_cons, if_neg hfill, transfers]
      rw [addWeights_eq] at h
      cases hfirst : net.transfersOf m a.arc a.weights with
      | error y =>
        rw [hfirst] at h
        cases h
        rfl
      | ok first =>
        rw [hfirst] at h
        have hrest := ih h
        show (net.transfers m (net.filling sources rest) >>= _) = _
        rw [hrest]
        rfl

/-- The capacity test in terms of transfers: every place that is filled has room for what arrives. -/
theorem hasRoomForAll_toOption (net : FlatNet) (m : Marking) (sources : List String) (arcs : List FlatArc) :
    (do
      let arrivals ← net.addArrivals m sources SortedMap.empty arcs
      return arrivals.entries.all fun e => net.hasRoom m e.1 e.2 : Except FiringError Bool).toOption =
    (net.transfers m (net.filling sources arcs)).toOption.map fun ts =>
      (net.filling sources arcs).all fun a =>
        net.hasRoom m a.arc.place (arrivalsAt a.arc.place Count.zero ts) := by
  cases hsums : net.addArrivals m sources SortedMap.empty arcs with
  | error x =>
    rw [addArrivals_eq_error hsums]
    rfl
  | ok sums =>
    obtain ⟨ts, hts, hlookup⟩ := addArrivals_eq_ok hsums
    have hempty : ∀ place, (SortedMap.empty : SortedMap String Count).get? place = none := fun _ => rfl
    rw [hts]
    refine congrArg some ?_
    rw [Bool.eq_iff_iff, List.all_eq_true, List.all_eq_true]
    constructor
    -- there is a sum for every place that is filled
    · intro hall a ha
      have hfound : sums.get? a.arc.place = some (arrivalsAt a.arc.place Count.zero ts) := by
        rw [hlookup, if_pos (List.mem_map.2 ⟨a, ha, rfl⟩), hempty]
        rfl
      exact hall _ (SortedMap.get?_eq_some_iff.1 hfound)
    -- and no sum for any other place
    · intro hall e he
      have hfound := SortedMap.get?_eq_some_iff.2 (he : (e.1, e.2) ∈ sums.entries)
      rw [hlookup, hempty] at hfound
      split at hfound
      · rename_i hmem
        obtain ⟨a, ha, hplace⟩ := List.mem_map.1 hmem
        have hroom := hall a ha
        rw [hplace] at hroom
        rw [← Option.some.inj hfound]
        exact hroom
      · cases hfound

end FlatNet

end PetriTree
