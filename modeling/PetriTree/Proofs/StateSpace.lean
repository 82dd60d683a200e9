import PetriTree.Proofs.Reachability
import PetriTree.StateSpace

/-!
# PetriTree — state spaces are exact

The walk through a state space keeps two things apart. Which links are due depends on the markings that
were visited, and which of them were drawn depends on the bound: a link is left out only when its target
is no node, the bound is reached and the space is marked as cut off. As no node is added from then on,
the target stays outside for good.

Main results:
* `StateSpace.Linked`, `Linked.link` — the links that were drawn, one more at a time;
* `StateSpace.Visited`, `Visited.visited`, `Visited.walked` — the nodes that were visited, one after the other;
* `StateSpace.Exact` — what a finished state space says about its net;
* `StateSpace.explore_exact` — every state space says that.
-/

namespace PetriTree.StateSpace

variable {net : FlatNet} {start : Marking} {bound : Nat} {space : StateSpace}
  {due : Marking → Marking → SortedSet String → Prop}

/-- The markings of the nodes, in the order in which they were found. -/
def markings (space : StateSpace) : List Marking := space.nodes.map StateNode.marking

theorem getElem?_find? {m : Marking} {i : Nat} (h : space.find? m = some i) : space.markings[i]? = some m := by
  obtain ⟨hlt, heq, _⟩ := List.findIdx?_eq_some_iff_getElem.1 h
  rw [markings, List.getElem?_map, List.getElem?_eq_getElem hlt]
  exact congrArg some (eq_of_beq heq)

/-- A marking that is found has a node. -/
theorem find?_lt {m : Marking} {i : Nat} (h : space.find? m = some i) : i < space.nodes.length :=
  (List.findIdx?_eq_some_iff_getElem.1 h).1

theorem notMem_markings {m : Marking} (h : space.find? m = none) : m ∉ space.markings := by
  intro hmem
  obtain ⟨node, hnode, rfl⟩ := List.mem_map.1 hmem
  have := List.findIdx?_eq_none_iff.1 h node hnode
  simp at this

theorem length_markings : space.markings.length = space.nodes.length := List.length_map _

/-! ## Links -/

/-- Is a space grown from the start within its bound, with an edge for every link that is due? -/
structure Linked (net : FlatNet) (start : Marking) (bound : Nat)
    (due : Marking → Marking → SortedSet String → Prop) (space : StateSpace) : Prop where
  /-- The first node is there whatever the bound. -/
  size_le : space.nodes.length ≤ max bound 1
  first : space.markings[0]? = some start
  distinct : space.markings.Nodup
  reached : ∀ m ∈ space.markings, net.Reaches start m
  edge : ∀ e ∈ space.edges, ∃ s t, space.markings[e.source]? = some s ∧ space.markings[e.target]? = some t ∧
    due s t e.transitions ∧ e.changes = TokenChange.diff s t
  pairs : (space.edges.map fun e => (e.source, e.target)).Nodup
  linked : ∀ s t group, due s t group →
    (∃ e ∈ space.edges, space.markings[e.source]? = some s ∧ space.markings[e.target]? = some t) ∨
      space.isTruncated = true ∧ t ∉ space.markings
  cut : space.isTruncated = true →
    space.nodes.length = max bound 1 ∧ ∃ m, net.Reaches start m ∧ m ∉ space.markings

/-- What is linked depends neither on what is known about the nodes nor on what failed. -/
theorem Linked.congr {due' : Marking → Marking → SortedSet String → Prop} {other : StateSpace}
    (h : Linked net start bound due space) (hmarkings : other.markings = space.markings)
    (hedges : other.edges = space.edges) (hcut : other.isTruncated = space.isTruncated)
    (hdue : ∀ s t group, due' s t group ↔ due s t group) : Linked net start bound due' other := by
  have hlength : other.nodes.length = space.nodes.length := by
    rw [← length_markings, hmarkings, length_markings]
  have hsame : due' = due := by
    funext s t group
    exact propext (hdue s t group)
  subst hsame
  constructor
  · exact hlength ▸ h.size_le
  · exact hmarkings ▸ h.first
  · exact hmarkings ▸ h.distinct
  · exact hmarkings ▸ h.reached
  · rw [hedges, hmarkings]
    exact h.edge
  · exact hedges ▸ h.pairs
  · rw [hedges, hmarkings, hcut]
    exact h.linked
  · rw [hcut, hlength, hmarkings]
    exact h.cut

/-- An edge between two nodes of which no link was due. -/
theorem Linked.draw (h : Linked net start bound due space) {source target : Nat} {s t : Marking}
    {group : SortedSet String} (hs : space.markings[source]? = some s) (ht : space.markings[target]? = some t)
    (hnew : ∀ other, ¬ due s t other) :
    Linked net start bound (fun s' t' other => due s' t' other ∨ s' = s ∧ (t', other) = (t, group))
      { space with edges := space.edges ++ [⟨source, target, group, TokenChange.diff s t⟩] } where
  size_le := h.size_le
  first := h.first
  distinct := h.distinct
  reached := h.reached
  edge := by
    intro e he
    rcases List.mem_append.1 he with he | he
    · obtain ⟨s', t', hs', ht', hdue, hchanges⟩ := h.edge e he
      exact ⟨s', t', hs', ht', Or.inl hdue, hchanges⟩
    · cases List.mem_singleton.1 he
      exact ⟨s, t, hs, ht, Or.inr ⟨rfl, rfl⟩, rfl⟩
  pairs := by
    show (List.map _ (space.edges ++ [_])).Nodup
    rw [List.map_append, List.map_singleton, List.nodup_append]
    refine ⟨h.pairs, List.nodup_singleton _, ?_⟩
    intro pair hpair pair' hpair' heq
    obtain ⟨e, he, rfl⟩ := List.mem_map.1 hpair
    rw [List.mem_singleton.1 hpair', Prod.mk.injEq] at heq
    -- an edge that is there was due, and this one was not
    obtain ⟨s', t', hs', ht', hdue, _⟩ := h.edge e he
    rw [heq.1, hs] at hs'
    rw [heq.2, ht] at ht'
    cases hs'
    cases ht'
    exact hnew _ hdue
  linked := by
    rintro s' t' other (hdue | ⟨rfl, heq⟩)
    · rcases h.linked s' t' other hdue with ⟨e, he, hends⟩ | hcut
      · exact Or.inl ⟨e, List.mem_append_left _ he, hends⟩
      · exact Or.inr hcut
    · cases heq
      exact Or.inl ⟨_, List.mem_append_right _ (List.mem_singleton.2 rfl), hs, ht⟩
  cut := h.cut

/-- A node that was not there, while the bound is not reached. -/
theorem Linked.grow (h : Linked net start bound due space) {m : Marking} (hnew : m ∉ space.markings)
    (hroom : space.nodes.length < bound) (hreach : net.Reaches start m) :
    Linked net start bound due { space with nodes := space.nodes ++ [fresh m] } := by
  have hmarkings : StateSpace.markings { space with nodes := space.nodes ++ [fresh m] } =
      space.markings ++ [m] := by
    rw [markings, markings, List.map_append]
    rfl
  have hkept : ∀ {i : Nat} {x : Marking}, space.markings[i]? = some x →
      (space.markings ++ [m])[i]? = some x := by
    intro i x hx
    obtain ⟨hlt, _⟩ := List.getElem?_eq_some_iff.1 hx
    rw [List.getElem?_append_left hlt, hx]
  -- a space that was cut off has no room left
  have huncut : space.isTruncated ≠ true := by
    intro hcut
    have := (h.cut hcut).1
    omega
  constructor
  · show (space.nodes ++ [fresh m]).length ≤ max bound 1
    rw [List.length_append, List.length_singleton]
    omega
  · exact hmarkings ▸ hkept h.first
  · rw [hmarkings, List.nodup_append]
    refine ⟨h.distinct, List.nodup_singleton _, fun x hx y hy => ?_⟩
    rintro rfl
    exact hnew (List.mem_singleton.1 hy ▸ hx)
  · intro x hx
    rw [hmarkings] at hx
    rcases List.mem_append.1 hx with hx | hx
    · exact h.reached x hx
    · exact List.mem_singleton.1 hx ▸ hreach
  · intro e he
    obtain ⟨s, t, hs, ht, hrest⟩ := h.edge e he
    rw [hmarkings]
    exact ⟨s, t, hkept hs, hkept ht, hrest⟩
  · exact h.pairs
  · intro s t group hdue
    rcases h.linked s t group hdue with ⟨e, he, hs, ht⟩ | ⟨hcut, _⟩
    · rw [hmarkings]
      exact Or.inl ⟨e, he, hkept hs, hkept ht⟩
    · exact absurd hcut huncut
  · exact fun hcut => absurd hcut huncut

/-- A link that would break the bound is left out. -/
theorem Linked.leaveOut (h : Linked net start bound due space) {s t : Marking} {group : SortedSet String}
    (hnew : t ∉ space.markings) (hfull : ¬ space.nodes.length < bound) (hreach : net.Reaches start t) :
    Linked net start bound (fun s' t' other => due s' t' other ∨ s' = s ∧ (t', other) = (t, group))
      { space with isTruncated := true } where
  size_le := h.size_le
  first := h.first
  distinct := h.distinct
  reached := h.reached
  edge := by
    intro e he
    obtain ⟨s', t', hs', ht', hdue, hchanges⟩ := h.edge e he
    exact ⟨s', t', hs', ht', Or.inl hdue, hchanges⟩
  pairs := h.pairs
  linked := by
    rintro s' t' other (hdue | ⟨rfl, heq⟩)
    · exact (h.linked s' t' other hdue).imp_right fun hcut => ⟨rfl, hcut.2⟩
    · cases heq
      exact Or.inr ⟨rfl, hnew⟩
  cut := by
    intro _
    have hsize := h.size_le
    have hfirst : 0 < space.nodes.length := by
      rw [← length_markings]
      exact (List.getElem?_eq_some_iff.1 h.first).1
    refine ⟨?_, t, hreach, hnew⟩
    show space.nodes.length = max bound 1
    omega

/-- One more link is due, and an edge is drawn for it unless that would break the bound. -/
theorem Linked.link (h : Linked net start bound due space) {source : Nat} {m : Marking}
    {next : Marking × SortedSet String} (hm : space.markings[source]? = some m)
    (hnew : ∀ group, ¬ due m next.1 group) (hreach : net.Reaches start next.1) :
    Linked net start bound (fun s t group => due s t group ∨ s = m ∧ (t, group) = next)
      (link bound source m space next) := by
  obtain ⟨t, group⟩ := next
  unfold StateSpace.link
  cases hfind : space.find? t with
  | some target => exact h.draw hm (getElem?_find? hfind) hnew
  | none =>
    have hoff := notMem_markings hfind
    by_cases hroom : space.nodes.length < bound
    -- the target becomes the last node, and then the edge is drawn
    · rw [if_pos hroom]
      have hmarkings : StateSpace.markings { space with nodes := space.nodes ++ [fresh t] } =
          space.markings ++ [t] := by
        rw [markings, markings, List.map_append]
        rfl
      obtain ⟨hlt, _⟩ := List.getElem?_eq_some_iff.1 hm
      refine (h.grow hoff hroom hreach).draw ?_ ?_ hnew
      · rw [hmarkings, List.getElem?_append_left hlt, hm]
      · rw [hmarkings, ← length_markings, List.getElem?_concat_length]
    · rw [if_neg hroom]
      exact h.leaveOut hoff hroom hreach

/-! ## Rounds of links -/

/-- Does a space have the nodes of an earlier one and new ones after them, and the same failures? -/
def Grown (before after : StateSpace) : Prop :=
  (∃ added : List Marking, after.nodes = before.nodes ++ added.map fresh) ∧ after.failures = before.failures

theorem Grown.markings {before after : StateSpace} (h : Grown before after) :
    ∃ added, after.markings = before.markings ++ added := by
  obtain ⟨⟨added, hadded⟩, _⟩ := h
  refine ⟨added, ?_⟩
  rw [StateSpace.markings, hadded, List.map_append, List.map_map]
  exact congrArg _ (List.map_id _)

theorem grown_link (bound source : Nat) (m : Marking) (space : StateSpace)
    (next : Marking × SortedSet String) : Grown space (link bound source m space next) := by
  unfold link
  split
  · exact ⟨⟨[], (List.append_nil _).symm⟩, rfl⟩
  · split
    · exact ⟨⟨[next.1], rfl⟩, rfl⟩
    · exact ⟨⟨[], (List.append_nil _).symm⟩, rfl⟩

theorem grown_foldl_link (bound source : Nat) (m : Marking) (entries : List (Marking × SortedSet String)) :
    ∀ space, Grown space (entries.foldl (link bound source m) space) := by
  induction entries with
  | nil => exact fun space => ⟨⟨[], (List.append_nil _).symm⟩, rfl⟩
  | cons next rest ih =>
    intro space
    obtain ⟨⟨first, hfirst⟩, hfailures⟩ := grown_link bound source m space next
    obtain ⟨⟨added, hadded⟩, hrest⟩ := ih (link bound source m space next)
    refine ⟨⟨first ++ added, ?_⟩, hrest.trans hfailures⟩
    rw [List.foldl_cons, hadded, hfirst, List.map_append, List.append_assoc]

/-- All the links out of one node become due, each of which leads somewhere else. -/
theorem Linked.foldl_link {source : Nat} {m : Marking} {entries : List (Marking × SortedSet String)}
    (h : Linked net start bound due space) (hm : space.markings[source]? = some m)
    (hdistinct : (entries.map Prod.fst).Nodup) (hnew : ∀ next ∈ entries, ∀ group, ¬ due m next.1 group)
    (hreach : ∀ next ∈ entries, net.Reaches start next.1) :
    Linked net start bound (fun s t group => due s t group ∨ s = m ∧ (t, group) ∈ entries)
      (entries.foldl (StateSpace.link bound source m) space) := by
  induction entries generalizing due space with
  | nil =>
    refine h.congr rfl rfl rfl fun s t group => ?_
    simp
  | cons next rest ih =>
    rw [List.map_cons, List.nodup_cons] at hdistinct
    have hfirst := h.link hm (hnew next (List.mem_cons_self ..)) (hreach next (List.mem_cons_self ..))
    have hm' : (StateSpace.link bound source m space next).markings[source]? = some m := by
      obtain ⟨added, hadded⟩ := (grown_link bound source m space next).markings
      obtain ⟨hlt, _⟩ := List.getElem?_eq_some_iff.1 hm
      rw [hadded, List.getElem?_append_left hlt, hm]
    have hrest := ih hfirst hm' hdistinct.2 ?_ fun next' hnext' => hreach next' (List.mem_cons_of_mem _ hnext')
    · refine hrest.congr rfl rfl rfl fun s t group => ?_
      rw [List.mem_cons, or_assoc, ← and_or_left]
    · rintro next' hnext' group (hdue | ⟨_, heq⟩)
      · exact hnew next' (List.mem_cons_of_mem _ hnext') group hdue
      · have hsame : next'.1 = next.1 := by rw [← heq]
        exact hdistinct.1 (List.mem_map.2 ⟨next', hnext', hsame⟩)

/-! ## Visits -/

/-- A node as a visit leaves it. -/
def judged (net : FlatNet) (m : Marking) : StateNode :=
  match net.candidates m with
  | .ok found => ⟨m, found, found.isEmpty⟩
  | .error _ => fresh m

/-- The failure of a visited marking whose successors have no value. -/
def failure (net : FlatNet) (visited : Marking × Nat) : Option StateFailure :=
  match net.targets visited.1 with
  | .ok _ => none
  | .error e => some ⟨visited.2, e.component, e.message⟩

/-- The links that are due once some markings were visited. -/
def dueFrom (net : FlatNet) (done : List Marking) (s t : Marking) (group : SortedSet String) : Prop :=
  s ∈ done ∧ ∃ groups, net.targets s = .ok groups ∧ groups.get? t = some group

/-- Were the first nodes visited, and no others? -/
structure Visited (net : FlatNet) (start : Marking) (bound : Nat) (done : List Marking) (space : StateSpace) :
    Prop where
  linked : Linked net start bound (dueFrom net done) space
  nodes : ∃ rest : List Marking, space.nodes = done.map (judged net) ++ rest.map fresh
  failures : space.failures = done.zipIdx.filterMap (failure net)

theorem marking_judged (m : Marking) : (judged net m).marking = m := by
  unfold judged
  split <;> rfl

/-- All transitions are asked to fire, whatever the clock. -/
theorem successors_eq_targets {live : LiveNet} {m : Marking} {cache : EnabledCache} (h : cache.Agrees live m) :
    (cache.successors live m true).2 = live.net.targets m := by
  have hall : ∀ ts : List String, ts.filter (fun t => true || live.mayFireNow t) = ts := by
    intro ts
    simp
  rw [EnabledCache.successors_eq h]
  simp only [hall]
  rfl

/-- What a visit finds out about its node. -/
def judge (net : FlatNet) (index : Nat) (m : Marking) (space : StateSpace) : StateSpace :=
  match net.candidates m with
  | .error _ => space
  | .ok found => space.setEnabled index found

/-- A visit, the cache aside. -/
def visited (net : FlatNet) (bound index : Nat) (m : Marking) (space : StateSpace) : StateSpace :=
  match net.targets m with
  | .error e => (space.judge net index m).fail index e
  | .ok groups => groups.entries.foldl (link bound index m) (space.judge net index m)

/-- A cache that is trusted does not show in what a visit does, and stays trusted. -/
theorem visit_eq {live : LiveNet} {cache : EnabledCache} (h : cache.Trusted live) (space : StateSpace)
    (bound index : Nat) (m : Marking) : (space.visit live bound index m cache).2 = space.visited live.net bound index m ∧
      (space.visit live bound index m cache).1.Trusted live := by
  have hasked := h.candidates (Or.inl rfl) m
  have hanswer := EnabledCache.candidates_eq (h.agrees m)
  unfold visit visited judge
  generalize cache.candidates live m = asked at hasked hanswer
  obtain ⟨cache', answer⟩ := asked
  simp only at hasked hanswer
  subst hanswer
  cases hfound : live.net.candidates m with
  | error e =>
    have htargets : live.net.targets m = .error e := by
      rw [FlatNet.targets, hfound]
      rfl
    rw [htargets]
    exact ⟨rfl, hasked⟩
  | ok found =>
    have htargets := successors_eq_targets (hasked.agrees m)
    have hlater := EnabledCache.successors_fst cache' live m true ▸ hasked.candidates (Or.inl rfl) m
    dsimp only
    split
    · -- nothing may fire, so there are no links
      rename_i hempty
      rw [FlatNet.targets_of_isEmpty hfound hempty]
      exact ⟨rfl, hasked⟩
    · generalize cache'.successors live m true = asked at htargets hlater
      obtain ⟨cache'', answer⟩ := asked
      simp only at htargets hlater
      subst htargets
      cases live.net.targets m with
      | error e => exact ⟨rfl, hlater⟩
      | ok groups => exact ⟨rfl, hlater⟩

/-- A walk, the cache aside. -/
def walked (net : FlatNet) (bound : Nat) : Nat → Nat → StateSpace → StateSpace
  | 0, _, space => space
  | left + 1, index, space =>
    match space.nodes[index]? with
    | none => space
    | some node => walked net bound left (index + 1) (space.visited net bound index node.marking)

theorem walk_eq {live : LiveNet} {cache : EnabledCache} (h : cache.Trusted live) (bound left index : Nat)
    (space : StateSpace) : (walk live bound left index cache space).2 = walked live.net bound left index space := by
  induction left generalizing index cache space with
  | zero => rfl
  | succ left ih =>
    rw [walk, walked]
    cases space.nodes[index]? with
    | none => rfl
    | some node =>
      obtain ⟨hvisit, htrusted⟩ := visit_eq h space bound index node.marking
      dsimp only
      rw [ih htrusted, hvisit]

/-- What is explored does not depend on the cache, as long as it can be trusted. -/
theorem explore_eq {live : LiveNet} {cache : EnabledCache} (h : cache.Trusted live) (bound : Nat) :
    (explore live bound cache).2 = walked live.net bound (max bound 1) 0 (StateSpace.start live.net.name live.marking) :=
  walk_eq h ..

theorem dueFrom_snoc {done : List Marking} {m : Marking} (s t : Marking) (group : SortedSet String) :
    dueFrom net (done ++ [m]) s t group ↔
      dueFrom net done s t group ∨ s = m ∧ ∃ groups, net.targets m = .ok groups ∧ groups.get? t = some group := by
  unfold dueFrom
  rw [List.mem_append, List.mem_singleton]
  constructor
  · rintro ⟨hs | rfl, hgroup⟩
    · exact Or.inl ⟨hs, hgroup⟩
    · exact Or.inr ⟨rfl, hgroup⟩
  · rintro (⟨hs, hgroup⟩ | ⟨rfl, hgroup⟩)
    · exact ⟨Or.inl hs, hgroup⟩
    · exact ⟨Or.inr rfl, hgroup⟩

theorem failures_snoc {done : List Marking} {m : Marking} : (done ++ [m]).zipIdx.filterMap (failure net) =
    done.zipIdx.filterMap (failure net) ++ (failure net (m, done.length)).toList := by
  rw [List.zipIdx_append, List.filterMap_append]
  congr 1
  simp only [List.zipIdx_singleton, Nat.zero_add]
  cases hfailure : failure net (m, done.length) <;> simp [hfailure]

theorem markings_eq {done rest : List Marking}
    (h : space.nodes = done.map (judged net) ++ rest.map fresh) : space.markings = done ++ rest := by
  rw [markings, h, List.map_append, List.map_map, List.map_map]
  congr 1
  · exact (List.map_congr_left fun m _ => marking_judged m).trans (List.map_id _)
  · exact List.map_id _

/-- Judging the first node that was not visited. -/
theorem nodes_judge {done rest : List Marking} {m : Marking}
    (h : space.nodes = done.map (judged net) ++ (m :: rest).map fresh) :
    (space.judge net done.length m).nodes = (done ++ [m]).map (judged net) ++ rest.map fresh := by
  rw [List.map_append, List.map_singleton, judged, judge, List.append_assoc]
  cases net.candidates m with
  | error e => exact h
  | ok found =>
    have hindex : done.length = (done.map (judged net)).length + 0 := by
      rw [List.length_map, Nat.add_zero]
    show space.nodes.modify done.length _ = _
    rw [h, List.modify, hindex, List.modifyTailIdx_add]
    rfl

/-- Judging a node changes nothing else. -/
theorem judge_rest (net : FlatNet) (index : Nat) (m : Marking) (space : StateSpace) :
    (space.judge net index m).edges = space.edges ∧
      (space.judge net index m).failures = space.failures ∧
      (space.judge net index m).isTruncated = space.isTruncated := by
  unfold judge
  split <;> exact ⟨rfl, rfl, rfl⟩

/-- A visit keeps a space in order and has visited one marking more. -/
theorem Visited.visited {done : List Marking} {node : StateNode} (h : Visited net start bound done space)
    (hnode : space.nodes[done.length]? = some node) :
    Visited net start bound (done ++ [node.marking]) (space.visited net bound done.length node.marking) := by
  obtain ⟨rest, hnodes⟩ := h.nodes
  -- the node is the first that was not visited
  obtain ⟨m, rest, rfl, rfl⟩ : ∃ m later, rest = m :: later ∧ node = fresh m := by
    rw [hnodes, List.getElem?_append_right (by simp), List.length_map, Nat.sub_self] at hnode
    cases rest with
    | nil => cases hnode
    | cons m later =>
      cases hnode
      exact ⟨m, later, rfl, rfl⟩
  show Visited net start bound (done ++ [m]) (space.visited net bound done.length m)
  have hjudged := nodes_judge hnodes
  have hmarkings : space.markings = done ++ m :: rest := markings_eq hnodes
  have hsame : (space.judge net done.length m).markings = space.markings := by
    rw [markings_eq hjudged, hmarkings, List.append_assoc]
    rfl
  obtain ⟨hedges, hfailures, hcut⟩ := judge_rest net done.length m space
  unfold StateSpace.visited
  cases htargets : net.targets m with
  | error e =>
    refine ⟨h.linked.congr hsame hedges hcut fun s t group => ?_, ⟨rest, hjudged⟩, ?_⟩
    · rw [dueFrom_snoc, htargets]
      simp
    · show (space.judge net done.length m).failures ++ _ = _
      rw [hfailures, failures_snoc, h.failures, failure, htargets]
      rfl
  | ok groups =>
    have hlinked : Linked net start bound (dueFrom net done) (space.judge net done.length m) :=
      h.linked.congr hsame hedges hcut fun _ _ _ => Iff.rfl
    have hm : (space.judge net done.length m).markings[done.length]? = some m := by
      rw [hsame, hmarkings, List.getElem?_append_right (Nat.le_refl _), Nat.sub_self]
      rfl
    -- no link was due from here, as a marking is visited once only
    have hnew : ∀ t group, ¬ dueFrom net done m t group := by
      rintro t group ⟨hmem, _⟩
      have hdistinct := hmarkings ▸ h.linked.distinct
      exact (List.nodup_append.1 hdistinct).2.2 m hmem m (List.mem_cons_self ..) rfl
    have hreach : ∀ next ∈ groups.entries, net.Reaches start next.1 := by
      intro next hnext
      have hgroup : groups.get? next.1 = some next.2 := SortedMap.get?_eq_some_iff.2 hnext
      obtain ⟨⟨transition, hmem⟩, hfires⟩ := (FlatNet.targets_spec htargets).1 _ _ hgroup
      have hstart := hlinked.reached m (List.mem_of_getElem? hm)
      exact hstart.tail ⟨transition, (hfires transition).1 hmem⟩
    have hrounds := hlinked.foldl_link hm groups.nodup_keys (fun next _ group => hnew next.1 group) hreach
    obtain ⟨⟨added, hadded⟩, hkept⟩ := grown_foldl_link bound done.length m groups.entries
      (space.judge net done.length m)
    refine ⟨hrounds.congr rfl rfl rfl fun s t group => ?_, ⟨rest ++ added, ?_⟩, ?_⟩
    · rw [dueFrom_snoc, htargets]
      simp only [Except.ok.injEq, exists_eq_left', SortedMap.get?_eq_some_iff]
    · rw [hadded, hjudged, List.append_assoc, ← List.map_append]
    · show (groups.entries.foldl (link bound done.length m) _).failures = _
      rw [hkept, hfailures, failures_snoc, failure, htargets]
      exact h.failures.trans (List.append_nil _).symm

theorem visited_start (net : FlatNet) (name : String) (start : Marking) (bound : Nat) :
    Visited net start bound [] (StateSpace.start name start) where
  linked := by
    refine ⟨Nat.le_max_right bound 1, rfl, List.nodup_singleton _, fun m hm => ?_, fun e he => ?_, List.nodup_nil,
      fun s t group hdue => ?_, fun hcut => ?_⟩
    · rw [List.mem_singleton.1 hm]
      exact Relation.ReflTransGen.refl
    · cases he
    · cases hdue.1
    · cases hcut
  nodes := ⟨[start], rfl⟩
  failures := rfl

/-- A walk that may visit as many nodes as the bound allows ends with all of them visited. -/
theorem Visited.walked {left : Nat} {done : List Marking} (h : Visited net start bound done space)
    (hleft : done.length + left = max bound 1) :
    ∃ all, Visited net start bound all (space.walked net bound left done.length) ∧
      (space.walked net bound left done.length).nodes.length ≤ all.length := by
  induction left generalizing done space with
  | zero =>
    -- as many were visited as there can be nodes
    have hsize : space.nodes.length ≤ done.length := by
      have := h.linked.size_le
      omega
    exact ⟨done, h, hsize⟩
  | succ left ih =>
    rw [StateSpace.walked]
    cases hnode : space.nodes[done.length]? with
    | none => exact ⟨done, h, List.getElem?_eq_none_iff.1 hnode⟩
    | some node =>
      have hlength : (done ++ [node.marking]).length = done.length + 1 := by
        rw [List.length_append, List.length_singleton]
      have hrest := ih (h.visited hnode) (by omega)
      rw [hlength] at hrest
      exact hrest

/-! ## Exactness -/

/-- What a finished state space says about a net and the marking it starts from: the nodes are markings
that firing reaches, each once, with what may fire there; the edges are the firings between them, each
pair once; and whatever is missing is owned up to, by the mark of a cut or by a failure. -/
structure Exact (net : FlatNet) (start : Marking) (bound : Nat) (space : StateSpace) : Prop where
  size_le : space.nodes.length ≤ bound
  first : space.markings[0]? = some start
  distinct : space.markings.Nodup
  reached : ∀ m ∈ space.markings, net.Reaches start m
  enabled : ∀ node ∈ space.nodes, ∀ found, net.candidates node.marking = .ok found → node.enabled = found
  dead : ∀ node ∈ space.nodes, node.isDead = true ↔ net.candidates node.marking = .ok SortedSet.empty
  pairs : (space.edges.map fun e => (e.source, e.target)).Nodup
  /-- An edge carries all the transitions between its ends, and there is at least one. -/
  edge : ∀ e ∈ space.edges, ∃ s t, space.markings[e.source]? = some s ∧ space.markings[e.target]? = some t ∧
    (∃ transition, transition ∈ e.transitions) ∧
    (∀ transition, transition ∈ e.transitions ↔ net.Fires s transition t) ∧
    e.changes = TokenChange.diff s t
  failed : ∀ failure, failure ∈ space.failures ↔ ∃ m e, space.markings[failure.state]? = some m ∧
    net.targets m = .error e ∧ failure.component = e.component ∧ failure.reason = e.message
  /-- Between two nodes no firing is missing unless the first one failed. -/
  joined : ∀ i j s t groups, space.markings[i]? = some s → space.markings[j]? = some t →
    net.targets s = .ok groups → net.Steps s t → ∃ e ∈ space.edges, e.source = i ∧ e.target = j
  cut : space.isTruncated = true →
    space.nodes.length = bound ∧ ∃ m, net.Reaches start m ∧ m ∉ space.markings
  complete : space.isTruncated = false → space.failures = [] →
    (∀ m, m ∈ space.markings ↔ net.Reaches start m) ∧
      ∀ i j s t, space.markings[i]? = some s → space.markings[j]? = some t →
        ((∃ e ∈ space.edges, e.source = i ∧ e.target = j) ↔ net.Steps s t)

theorem eq_empty_of_isEmpty {found : SortedSet String} (h : found.isEmpty = true) : found = SortedSet.empty := by
  obtain ⟨⟨entries, hentries⟩⟩ := found
  cases List.isEmpty_iff.1 h
  rfl

theorem mem_failures (net : FlatNet) (done : List Marking) (failure : StateFailure) :
    failure ∈ done.zipIdx.filterMap (StateSpace.failure net) ↔ ∃ m e, done[failure.state]? = some m ∧
      net.targets m = .error e ∧ failure.component = e.component ∧ failure.reason = e.message := by
  rw [List.mem_filterMap]
  constructor
  · rintro ⟨⟨m, i⟩, hmem, hfailure⟩
    unfold StateSpace.failure at hfailure
    split at hfailure
    · cases hfailure
    · rename_i e he
      cases hfailure
      exact ⟨m, e, List.mem_zipIdx_iff_getElem?.1 hmem, he, rfl, rfl⟩
  · rintro ⟨m, e, hm, he, hcomponent, hreason⟩
    refine ⟨(m, failure.state), List.mem_zipIdx_iff_getElem?.2 hm, ?_⟩
    rw [StateSpace.failure, he]
    obtain ⟨state, component, reason⟩ := failure
    simp only at hcomponent hreason
    rw [hcomponent, hreason]

theorem enabled_judged {m : Marking} {found : SortedSet String} (h : net.candidates m = .ok found) :
    (judged net m).enabled = found := by
  rw [judged, h]

theorem isDead_judged (m : Marking) :
    (judged net m).isDead = true ↔ net.candidates m = .ok SortedSet.empty := by
  unfold judged
  split
  · rename_i found hfound
    rw [hfound]
    constructor
    · exact fun h => congrArg Except.ok (eq_empty_of_isEmpty h)
    · intro h
      cases h
      rfl
  · rename_i e he
    rw [he]
    simp [fresh]

/-- Two nodes with the same marking are one. -/
theorem index_eq {i j : Nat} {m : Marking} (h : space.markings.Nodup) (hi : space.markings[i]? = some m)
    (hj : space.markings[j]? = some m) : i = j := by
  obtain ⟨hlt, _⟩ := List.getElem?_eq_some_iff.1 hi
  exact (List.getElem?_inj hlt h).1 (hi.trans hj.symm)

theorem Visited.joined {done : List Marking} (h : Visited net start bound done space)
    (hall : space.markings = done) {i j : Nat} {s t : Marking}
    {groups : SortedMap Marking (SortedSet String)} (hs : space.markings[i]? = some s)
    (ht : space.markings[j]? = some t) (htargets : net.targets s = .ok groups) (hsteps : net.Steps s t) :
    ∃ e ∈ space.edges, e.source = i ∧ e.target = j := by
  obtain ⟨group, hgroup⟩ := (FlatNet.targets_spec htargets).2 t hsteps
  have hdue : dueFrom net done s t group := ⟨hall ▸ List.mem_of_getElem? hs, groups, htargets, hgroup⟩
  rcases h.linked.linked s t group hdue with ⟨e, he, hsource, htarget⟩ | ⟨_, hoff⟩
  · exact ⟨e, he, index_eq h.linked.distinct hsource hs, index_eq h.linked.distinct htarget ht⟩
  · exact absurd (List.mem_of_getElem? ht) hoff

/-- Where nothing was cut off and nothing failed, the nodes are closed under firing. -/
theorem Visited.closed {done : List Marking} (h : Visited net start bound done space)
    (hall : space.markings = done) (hcut : space.isTruncated = false) (hfailures : space.failures = [])
    {m : Marking} (hm : net.Reaches start m) : m ∈ space.markings := by
  induction hm with
  | refl => exact List.mem_of_getElem? h.linked.first
  | @tail s t _ hsteps ih =>
    obtain ⟨i, hi⟩ := List.mem_iff_getElem?.1 ih
    cases htargets : net.targets s with
    | error e =>
      -- a marking without successors would have been noted as a failure
      have hmem := (mem_failures net done ⟨i, e.component, e.message⟩).2
        ⟨s, e, hall ▸ hi, htargets, rfl, rfl⟩
      rw [← h.failures, hfailures] at hmem
      cases hmem
    | ok groups =>
      obtain ⟨group, hgroup⟩ := (FlatNet.targets_spec htargets).2 t hsteps
      rcases h.linked.linked s t group ⟨hall ▸ ih, groups, htargets, hgroup⟩ with ⟨e, _, _, htarget⟩ | ⟨hcut', _⟩
      · exact List.mem_of_getElem? htarget
      · rw [hcut] at hcut'
        cases hcut'

/-- A space whose nodes were all visited is exact. -/
theorem Visited.exact {done : List Marking} (h : Visited net start bound done space)
    (hsize : space.nodes.length ≤ done.length) : Exact net start (max bound 1) space := by
  obtain ⟨rest, hnodes⟩ := h.nodes
  -- no node waits to be visited
  have hrest : rest = [] := by
    rw [hnodes, List.length_append, List.length_map, List.length_map] at hsize
    exact List.eq_nil_of_length_eq_zero (by omega)
  subst hrest
  have hall : space.markings = done := (markings_eq hnodes).trans (List.append_nil done)
  rw [List.map_nil, List.append_nil] at hnodes
  have hedge : ∀ e ∈ space.edges, ∃ s t, space.markings[e.source]? = some s ∧
      space.markings[e.target]? = some t ∧ (∃ transition, transition ∈ e.transitions) ∧
      (∀ transition, transition ∈ e.transitions ↔ net.Fires s transition t) ∧
      e.changes = TokenChange.diff s t := by
    intro e he
    obtain ⟨s, t, hs, ht, ⟨_, groups, htargets, hgroup⟩, hchanges⟩ := h.linked.edge e he
    obtain ⟨hsome, hfires⟩ := (FlatNet.targets_spec htargets).1 t e.transitions hgroup
    exact ⟨s, t, hs, ht, hsome, hfires, hchanges⟩
  have hfailed : ∀ failure, failure ∈ space.failures ↔ ∃ m e, space.markings[failure.state]? = some m ∧
      net.targets m = .error e ∧ failure.component = e.component ∧ failure.reason = e.message := by
    intro failure
    rw [h.failures, hall]
    exact mem_failures net done failure
  refine ⟨h.linked.size_le, h.linked.first, h.linked.distinct, h.linked.reached, ?_, ?_, h.linked.pairs,
    hedge, hfailed, fun i j s t groups => h.joined hall, h.linked.cut, fun hcut hfailures => ⟨fun m => ?_, ?_⟩⟩
  · intro node hnode found hfound
    obtain ⟨m, _, rfl⟩ := List.mem_map.1 (hnodes ▸ hnode)
    exact enabled_judged (marking_judged m ▸ hfound)
  · intro node hnode
    obtain ⟨m, _, rfl⟩ := List.mem_map.1 (hnodes ▸ hnode)
    rw [marking_judged]
    exact isDead_judged m
  · exact ⟨h.linked.reached m, h.closed hall hcut hfailures⟩
  · intro i j s t hs ht
    constructor
    · rintro ⟨e, he, rfl, rfl⟩
      obtain ⟨s', t', hs', ht', ⟨transition, hmem⟩, hfires, _⟩ := hedge e he
      rw [hs] at hs'
      rw [ht] at ht'
      cases hs'
      cases ht'
      exact ⟨transition, (hfires transition).1 hmem⟩
    · intro hsteps
      cases htargets : net.targets s with
      | error e =>
        have hmem := (hfailed ⟨i, e.component, e.message⟩).2 ⟨s, e, hs, htargets, rfl, rfl⟩
        rw [hfailures] at hmem
        cases hmem
      | ok groups => exact h.joined hall hs ht htargets hsteps

/-- Where nothing was cut off and nothing failed, a firing in a marking that is reached is part of an edge. -/
theorem Exact.exists_edge (h : Exact net start bound space) (hcut : space.isTruncated = false)
    (hfailures : space.failures = []) {s t : Marking} {transition : String} (hs : net.Reaches start s)
    (hfires : net.Fires s transition t) :
    ∃ e ∈ space.edges, space.markings[e.source]? = some s ∧ space.markings[e.target]? = some t ∧
      transition ∈ e.transitions := by
  obtain ⟨hnodes, hedges⟩ := h.complete hcut hfailures
  have hsteps : net.Steps s t := ⟨transition, hfires⟩
  obtain ⟨i, hi⟩ := List.mem_iff_getElem?.1 ((hnodes s).2 hs)
  obtain ⟨j, hj⟩ := List.mem_iff_getElem?.1 ((hnodes t).2 (hs.tail hsteps))
  obtain ⟨e, he, rfl, rfl⟩ := (hedges i j s t hi hj).2 hsteps
  obtain ⟨s', t', hs', ht', _, hall, _⟩ := h.edge e he
  rw [hi] at hs'
  rw [hj] at ht'
  cases hs'
  cases ht'
  exact ⟨e, he, hi, hj, (hall transition).2 hfires⟩

/-- A cache that is trusted leads to an exact state space. -/
theorem exact_of_trusted {live : LiveNet} {cache : EnabledCache} (hcache : cache.Trusted live) (bound : Nat) :
    Exact live.net live.marking (max bound 1) (explore live bound cache).2 := by
  have hstart := visited_start live.net live.net.name live.marking bound
  obtain ⟨all, hvisited, hsize⟩ := hstart.walked (Nat.zero_add (max bound 1))
  rw [explore_eq hcache]
  exact hvisited.exact hsize

/-- Whatever the cache was asked before and whatever was done to the nets it serves, a state space is
exact for the net as it is now. -/
theorem explore_exact {nets : List LiveNet} (h : (nets.map fun live => live.stamp.instanceId).Nodup)
    (requests : List Request) (live : LiveNet)
    (hlive : live ∈ ((Session.start nets).performAll requests).nets) (hbound : 0 < bound) :
    Exact live.net live.marking bound
      (explore live bound ((Session.start nets).performAll requests).cache).2 := by
  have htrusted := ((Session.sound_start h).performAll requests).trusted live hlive
  have hmax : max bound 1 = bound := by omega
  have hexact := exact_of_trusted htrusted bound
  rwa [hmax] at hexact

/-- A token that a transition hands over from one place to another. -/
def handover : IncludeTree := Sample.single
  [Sample.place "P" 1, Sample.place "Q" 0, Sample.transition "T" Rate.one,
    Sample.arc "a" "P" "T" .placeToTransition "1", Sample.arc "b" "Q" "T" .transitionToPlace "1"]

/-- The token is handed over once, and then nothing is left to do: two markings are reached. -/
theorem explore_exact_handover : ∃ live, (LiveNet.ofTree Registry.empty 0 handover).2 = .ok live ∧
    ([live].map fun live => live.stamp.instanceId).Nodup ∧ 0 < 5 ∧
    ∃ first second : Marking, first ≠ second ∧
      ∀ m, live.net.Reaches live.marking m ↔ m = first ∨ m = second := by
  have hrun : (LiveNet.ofTree Registry.empty 0 handover).2.map (fun live =>
      let space := (explore live 5 ((Session.start [live]).performAll [.candidates 0 live.marking]).cache).2
      (space.nodes.length, space.isTruncated, space.failures.length)) = .ok (2, false, 0) := by
    decide +kernel
  obtain ⟨live, hlive, hspace⟩ := map_eq_ok.1 hrun
  simp only [Prod.mk.injEq] at hspace
  obtain ⟨hsize, hcut, hfailures⟩ := hspace
  have hdistinct : ([live].map fun live => live.stamp.instanceId).Nodup := List.nodup_singleton _
  have hexact : Exact live.net live.marking 5 (explore live 5 _).2 :=
    explore_exact hdistinct [.candidates 0 live.marking] live (List.mem_singleton.2 rfl) (by decide)
  obtain ⟨hreached, _⟩ := hexact.complete hcut (List.length_eq_zero_iff.1 hfailures)
  -- two nodes have two markings, which are different ones
  rw [← length_markings] at hsize
  obtain ⟨first, second, hpair⟩ := List.length_eq_two.1 hsize
  have hdiffer := hpair ▸ hexact.distinct
  refine ⟨live, hlive, hdistinct, by decide, first, second, ?_, fun m => ?_⟩
  · rintro rfl
    simp at hdiffer
  · rw [← hreached m, hpair]
    simp

end PetriTree.StateSpace
