import PetriTree.Proofs.Breadth

/-!
# PetriTree — a bound cuts a suffix off

Two walks with different bounds run apart once the smaller space is full: the larger one goes on with nodes that the
smaller one does not have, while that one still visits its own. They are compared by what can be said about the first
nodes of a space, which is a space again (`cut`). While the nodes that are visited belong to the first ones, the
smaller space is the cut of the larger one, step by step. Afterwards the larger walk adds nothing that a cut shows.

Main results:
* `StateSpace.cut` — what a space says about its first nodes;
* `StateSpace.link_cut`, `visited_cut`, `walked_cut` — the steps of the smaller walk on the cut;
* `StateSpace.cut_link`, `cut_visited`, `cut_walked` — the steps that a cut does not show;
* `StateSpace.explore_of_le` — what a smaller bound leaves of a state space.
-/

namespace PetriTree.StateSpace

/-- What a space says about its first `n` nodes. It is truncated where there are more. -/
def cut (n : Nat) (space : StateSpace) : StateSpace where
  name := space.name
  nodes := space.nodes.take n
  edges := space.edges.filter fun e => e.source < n && e.target < n
  failures := space.failures.filter fun failure => failure.state < n
  isTruncated := space.isTruncated || decide (n < space.nodes.length)

variable {net : FlatNet} {n bound source : Nat} {m : Marking} {space : StateSpace}

/-! ## What is found in a cut -/

theorem find?_cut_of_lt {target : Nat} (h : space.find? m = some target) (hlt : target < n) :
    (space.cut n).find? m = some target := by
  rw [find?] at h ⊢
  rw [cut, List.findIdx?_take, h, Option.bind_some, Option.guard, if_pos (decide_eq_true hlt)]

theorem find?_cut_of_le {target : Nat} (h : space.find? m = some target) (hle : n ≤ target) :
    (space.cut n).find? m = none := by
  rw [find?] at h ⊢
  rw [cut, List.findIdx?_take, h, Option.bind_some, Option.guard, if_neg (by simpa using hle)]

theorem find?_cut_of_none (h : space.find? m = none) : (space.cut n).find? m = none := by
  rw [find?] at h ⊢
  rw [cut, List.findIdx?_take, h, Option.bind_none]

/-! ## Steps that a cut shows -/

/-- A link from one of the first nodes is made on the cut with the smaller bound. -/
theorem link_cut (hsource : source < n) (hbound : n ≤ bound) (next : Marking × SortedSet String) :
    link n source m (space.cut n) next = (link bound source m space next).cut n := by
  unfold link
  cases hfind : space.find? next.1 with
  | some target =>
    rcases Nat.lt_or_ge target n with hlt | hge
    · -- both draw the edge
      rw [find?_cut_of_lt hfind hlt]
      simp [cut, hsource, hlt]
    · -- the smaller space has no such node and no room for it
      have hmore : n < space.nodes.length := hge.trans_lt (find?_lt hfind)
      rw [find?_cut_of_le hfind hge]
      simp [cut, Nat.not_lt.2 hge, Nat.not_lt.2 hmore.le, hmore]
  | none =>
    rw [find?_cut_of_none hfind]
    rcases Nat.lt_or_ge space.nodes.length n with hlt | hge
    · -- both have room
      simp [cut, hsource, hlt, hlt.trans_le hbound, Nat.not_lt.2 hlt.le, List.take_of_length_le hlt.le,
        List.take_of_length_le, Nat.succ_le_of_lt hlt]
    · -- only the larger space may have room, and then its new node and edge are beyond the cut
      rcases Nat.lt_or_ge space.nodes.length bound with hroom | hfull
      · simp [cut, hroom, hge, Nat.not_lt.2 hge, List.take_append_of_le_length hge, Nat.lt_succ_of_le hge]
      · simp [cut, hge, Nat.not_lt.2 hfull]

theorem foldl_link_cut (hsource : source < n) (hbound : n ≤ bound) (entries : List (Marking × SortedSet String)) :
    entries.foldl (link n source m) (space.cut n) = (entries.foldl (link bound source m) space).cut n := by
  induction entries generalizing space with
  | nil => rfl
  | cons next rest ih =>
    rw [List.foldl_cons, List.foldl_cons, link_cut hsource hbound, ih]

/-- A node is judged by its marking alone. -/
theorem judge_cut (index : Nat) : (space.cut n).judge net index m = (space.judge net index m).cut n := by
  unfold judge
  split
  · rfl
  · simp [setEnabled, cut, List.take_modify]

theorem fail_cut {index : Nat} (hindex : index < n) (e : FiringError) :
    (space.cut n).fail index e = (space.fail index e).cut n := by
  rw [cut, fail, fail, cut, List.filter_append, List.filter_singleton, decide_eq_true hindex]
  rfl

/-- A visit to one of the first nodes is made on the cut with the smaller bound. -/
theorem visited_cut (hsource : source < n) (hbound : n ≤ bound) :
    (space.cut n).visited net n source m = (space.visited net bound source m).cut n := by
  unfold visited
  split
  · rw [judge_cut, fail_cut hsource]
  · rw [judge_cut, foldl_link_cut hsource hbound]

/-! ## Steps that a cut does not show -/

/-- A link from a later node is none between the first ones. -/
theorem cut_link (hsource : n ≤ source) (hmore : n < space.nodes.length) (next : Marking × SortedSet String) :
    (link bound source m space next).cut n = space.cut n := by
  unfold link
  split
  · simp [cut, Nat.not_lt.2 hsource]
  · split
    · simp [cut, Nat.not_lt.2 hsource, hmore, hmore.trans (Nat.lt_succ_self _), List.take_append_of_le_length hmore.le]
    · simp [cut, hmore]

theorem cut_foldl_link (hsource : n ≤ source) (hmore : n < space.nodes.length)
    (entries : List (Marking × SortedSet String)) :
    (entries.foldl (link bound source m) space).cut n = space.cut n := by
  induction entries generalizing space with
  | nil => rfl
  | cons next rest ih =>
    rw [List.foldl_cons, ih (hmore.trans_le (length_le_link ..)), cut_link hsource hmore]

theorem cut_judge {index : Nat} (hindex : n ≤ index) : (space.judge net index m).cut n = space.cut n := by
  unfold judge
  split
  · rfl
  · have hlength : (space.nodes.take n).length ≤ index := (List.length_take_le ..).trans hindex
    simp [setEnabled, cut, List.take_modify, List.modify_eq_self hlength]

theorem cut_fail {index : Nat} (hindex : n ≤ index) (e : FiringError) : (space.fail index e).cut n = space.cut n := by
  rw [cut, fail, List.filter_append, List.filter_singleton, decide_eq_false (Nat.not_lt.2 hindex), cond_false,
    List.append_nil]
  rfl

theorem cut_visited (hsource : n ≤ source) (hmore : n < space.nodes.length) :
    (space.visited net bound source m).cut n = space.cut n := by
  unfold visited
  split
  · rw [cut_fail hsource, cut_judge hsource]
  · rw [cut_foldl_link hsource (hmore.trans_eq (length_judge ..).symm), cut_judge hsource]

/-- Visits to later nodes say nothing about the first ones. -/
theorem cut_walked {index : Nat} (hindex : n ≤ index) (left : Nat) :
    (space.walked net bound left index).cut n = space.cut n := by
  induction left generalizing index space with
  | zero => rfl
  | succ left ih =>
    rw [walked]
    cases hnode : space.nodes[index]? with
    | none => rfl
    | some node =>
      -- a visit beyond the cut means that there are more nodes, so the cut is truncated already
      have hmore : n < space.nodes.length := hindex.trans_lt (List.getElem?_eq_some_iff.1 hnode).1
      exact (ih (hindex.trans (Nat.le_succ index))).trans (cut_visited hindex hmore)

/-! ## Walks with different bounds -/

/-- A walk through the first nodes is made on the cut, however far the larger walk goes on. -/
theorem walked_cut {left index : Nat} (hleft : index + left = n) (hbound : n ≤ bound) (more : Nat) :
    (space.cut n).walked net n left index = (space.walked net bound (left + more) index).cut n := by
  induction left generalizing index space with
  -- the smaller walk is over, and what the larger one still visits does not show
  | zero => exact (cut_walked (Nat.le_of_eq hleft.symm) _).symm
  | succ left ih =>
    have hindex : index < n := by omega
    rw [Nat.succ_add, walked, walked]
    have hsame : (space.cut n).nodes[index]? = space.nodes[index]? := List.getElem?_take_of_lt hindex
    rw [hsame]
    cases space.nodes[index]? with
    | none => rfl
    | some node =>
      dsimp only
      rw [visited_cut hindex hbound, ih (by omega)]

/-- A state space with a smaller bound is a cut of one with a larger bound, whatever the caches. -/
theorem explore_eq_cut {live : LiveNet} {cache cache' : EnabledCache} (h : cache.Trusted live)
    (h' : cache'.Trusted live) {few many : Nat} (hpos : 0 < few) (hle : few ≤ many) :
    (explore live few cache).2 = (explore live many cache').2.cut few := by
  obtain ⟨more, rfl⟩ := Nat.exists_eq_add_of_le hle
  have hstart : (start live.net.name live.marking).cut few = start live.net.name live.marking := by
    simp [start, cut, List.take_of_length_le, Nat.succ_le_of_lt hpos, Nat.not_lt.2 (Nat.succ_le_of_lt hpos)]
  rw [explore_eq h, explore_eq h', Nat.max_eq_left hpos, Nat.max_eq_left (hpos.trans_le hle),
    ← walked_cut (Nat.zero_add few) hle, hstart]

/-- A cut that is not truncated is the whole of an exact space. -/
theorem cut_eq_self {start : Marking} (hexact : Exact net start bound space) (h : (space.cut n).isTruncated = false) :
    space.cut n = space := by
  have hsize : space.nodes.length ≤ n := by
    simp only [cut, Bool.or_eq_false_iff, decide_eq_false_iff_not, Nat.not_lt] at h
    exact h.2
  -- edges and failures tell of nodes that there are
  have hlt : ∀ {i : Nat} {x : Marking}, space.markings[i]? = some x → i < n := by
    intro i x hx
    obtain ⟨hi, _⟩ := List.getElem?_eq_some_iff.1 hx
    rw [length_markings] at hi
    exact hi.trans_le hsize
  have hnodes : space.nodes.take n = space.nodes := List.take_of_length_le hsize
  have hedges : (space.edges.filter fun e => e.source < n && e.target < n) = space.edges := by
    refine List.filter_eq_self.2 fun e he => ?_
    obtain ⟨s, t, hs, ht, _⟩ := hexact.edge e he
    simp [hlt hs, hlt ht]
  have hfailures : (space.failures.filter fun failure => failure.state < n) = space.failures := by
    refine List.filter_eq_self.2 fun failure hfailure => ?_
    obtain ⟨s, _, hs, _⟩ := (hexact.failed failure).1 hfailure
    simp [hlt hs]
  have hcut : (space.isTruncated || decide (n < space.nodes.length)) = space.isTruncated := by
    simp [Nat.not_lt.2 hsize]
  rw [cut, hnodes, hedges, hfailures, hcut]

/-- What a smaller bound leaves of a state space, whatever the caches were asked before: the first nodes as they are,
with the edges between them and their failures. The nodes stand in the order of their distance, so these are the nearest
ones. And what is not marked as cut off is all there is. -/
theorem explore_of_le {nets nets' : List LiveNet} (h : (nets.map fun live => live.stamp.instanceId).Nodup)
    (h' : (nets'.map fun live => live.stamp.instanceId).Nodup) (requests requests' : List Request) (live : LiveNet)
    (hlive : live ∈ ((Session.start nets).performAll requests).nets)
    (hlive' : live ∈ ((Session.start nets').performAll requests').nets) {bound bound' : Nat} (hpos : 0 < bound)
    (hle : bound ≤ bound') :
    let few := (explore live bound ((Session.start nets).performAll requests).cache).2
    let many := (explore live bound' ((Session.start nets').performAll requests').cache).2
    few.name = many.name ∧
      few.nodes = many.nodes.take bound ∧ few.nodes.length = min bound many.nodes.length ∧
      few.edges = many.edges.filter (fun e => e.source < bound && e.target < bound) ∧
      few.failures = many.failures.filter (fun failure => failure.state < bound) ∧
      (∀ i j, i ≤ j → j < many.nodes.length → ∃ a b, many.Distance i a ∧ many.Distance j b ∧ a ≤ b) ∧
      (few.isTruncated = false → many.isTruncated = false ∧ few = many) := by
  have htrusted := ((Session.sound_start h).performAll requests).trusted live hlive
  have htrusted' := ((Session.sound_start h').performAll requests').trusted live hlive'
  have hcut := explore_eq_cut htrusted htrusted' hpos hle
  obtain ⟨last, hbreadth⟩ := breadthFirst_of_trusted htrusted' bound'
  have hexact := exact_of_trusted htrusted' bound'
  dsimp only
  rw [hcut]
  refine ⟨rfl, rfl, List.length_take, rfl, rfl, fun i j hij hj => hbreadth.distance_le hij hj, fun huncut => ?_⟩
  have hself := cut_eq_self hexact huncut
  exact ⟨hself ▸ huncut, hself⟩

/-- With room for one marking, the handover is cut off before it, and without the edge that leads there. -/
theorem explore_of_le_handover : ∃ live, (LiveNet.ofTree Registry.empty 0 handover).2 = .ok live ∧
    ([live].map fun live => live.stamp.instanceId).Nodup ∧ 0 < 1 ∧ 1 ≤ 5 ∧
    ∃ few many : StateSpace, few.nodes = many.nodes.take 1 ∧ many.nodes.length = 2 ∧ many.edges.length = 1 ∧
      few.edges = [] ∧ few.isTruncated = true ∧ ∃ a b, many.Distance 0 a ∧ many.Distance 1 b ∧ a ≤ b := by
  have hrun : (LiveNet.ofTree Registry.empty 0 handover).2.map (fun live =>
      let few := (explore live 1 ((Session.start [live]).performAll [.candidates 0 live.marking]).cache).2
      let many := (explore live 5 ((Session.start [live]).performAll []).cache).2
      (many.nodes.length, many.edges.length, few.edges.length, few.isTruncated)) = .ok (2, 1, 0, true) := by
    decide +kernel
  obtain ⟨live, hlive, hspaces⟩ := map_eq_ok.1 hrun
  simp only [Prod.mk.injEq] at hspaces
  obtain ⟨hsize, hedge, hnone, hcut⟩ := hspaces
  have hdistinct : ([live].map fun live => live.stamp.instanceId).Nodup := List.nodup_singleton _
  have hmem : live ∈ [live] := List.mem_singleton.2 rfl
  obtain ⟨_, hnodes, _, _, _, hordered, _⟩ :=
    explore_of_le hdistinct hdistinct [.candidates 0 live.marking] [] live hmem hmem (by decide : 0 < 1)
      (by decide : 1 ≤ 5)
  refine ⟨live, hlive, hdistinct, by decide, by decide, _, _, hnodes, hsize, hedge, List.length_eq_zero_iff.1 hnone,
    hcut, hordered 0 1 (by decide) (by omega)⟩

end PetriTree.StateSpace
