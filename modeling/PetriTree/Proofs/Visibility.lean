import PetriTree.Proofs.Lifecycle
import PetriTree.Proofs.Newcomer

/-!
# PetriTree — who sees what

A place enters the interface in two ways. When it is published it is entered in the maps of all nodes that the
access scope selects at the time, and when a node comes later it is offered what is published already and reaches
it. Both lead to the same: a map has exactly the places that reach its node, however the calls followed one
another.

What keeps the two together is that scopes select nodes by their routes, which no call changes, and that two
homes with one away id never reach a node together. A scope that comes to a new node has come to the node above
it before, whose map would have refused the second of them.

The names of nodes do depend on the order of calls, since a node takes the first name that is free, and away ids
are made of names.

Main results:
* `IncludeTree.Grows` — the trees that grow by including and publishing, with the calls that were made;
* `IncludeTree.Told` — what is in the maps, `Told.attach`, `Told.publish` — one more call, `Grows.told` — any number
  of them.
-/

namespace PetriTree

/-- The places of a net that are marked as home. -/
def Net.homes (net : Net) : List String := (net.places.values.filter fun p => p.status.merge == .home).map Place.id

/-- A call that lets a tree grow. The node it is made for is told by its route. -/
inductive Growth where
  | attach (above : List String) (net : Net) (name : String)
  | publish (route : List String) (place : String)

namespace IncludeTree

variable {tree after : IncludeTree} {net : Net} {name : String} {scope : Scope} {calls : List Growth}
  {parent id : NodeId} {below : Net} {label place away : String}

/-- The trees that grow from a net by calls that are not refused, with all calls so far. The homes that the net
brings along are published when its tree is made; nets that are included have none. -/
inductive Grows (net : Net) (name : String) (scope : Scope) : List Growth → IncludeTree → Prop
  | new : Grows net name scope (net.homes.map (.publish [])) ((IncludeTree.new net name).withAccessScope scope)
  | attach {tree after : IncludeTree} {calls : List Growth} {parent id : NodeId} {below : Net} {label : String} :
      Grows net name scope calls tree → below.Closed → tree.attach parent below label = .ok (id, after) →
      Grows net name scope (calls ++ [.attach (tree.route parent) below label]) after
  | publish {tree after : IncludeTree} {calls : List Growth} {id : NodeId} {place away : String} :
      Grows net name scope calls tree → tree.publish id place = (after, .ok away) →
      Grows net name scope (calls ++ [.publish (tree.route id) place]) after

/-- The place was published at its node. -/
def Issued (tree : IncludeTree) (calls : List Growth) (home : HomeRef) : Prop :=
  (tree.node? home.node).isSome ∧ .publish (tree.route home.node) home.place ∈ calls

/-- What a map has for a home: its entry, under its away id. -/
structure Shows (tree : IncludeTree) (n : NodeId) (home : HomeRef) (key : String) (e : InterfacePlace) : Prop where
  filed : ∃ owner, tree.node? home.node = some owner ∧ key = awayId owner home.place
  reads : e = homeEntry key home n

/-- The maps have exactly the places that were published and reach their nodes, and the nodes are those that were
included. -/
structure Told (scope : Scope) (calls : List Growth) (tree : IncludeTree) : Prop where
  hung : tree.Hung
  scope : tree.accessScope = scope
  issued : ∀ route place, .publish route place ∈ calls → ∃ id, (tree.node? id).isSome ∧ tree.route id = route
  routes : ∀ route, (∃ id, (tree.node? id).isSome ∧ tree.route id = route) ↔
    route = [] ∨ ∃ above net name, .attach above net name ∈ calls ∧ route = above ++ [name]
  entries : ∀ n key e, tree.ledger.entry n key = some e ↔
    ∃ home, tree.Issued calls home ∧ n ∈ tree.reach home.node ∧ tree.Shows n home key e

theorem Unmoved.shows_iff (h : tree.Unmoved after) {home : HomeRef} (hhome : (tree.node? home.node).isSome) {n : NodeId}
    {key : String} {e : InterfacePlace} : after.Shows n home key e ↔ tree.Shows n home key e := by
  obtain ⟨owner, howner⟩ := Option.isSome_iff_exists.1 hhome
  obtain ⟨owner', howner', hcalled, _⟩ := h.called _ owner howner
  have haway : awayId owner' home.place = awayId owner home.place := by rw [awayId, hcalled.qualifiedName, awayId]
  constructor
  · rintro ⟨⟨found, hfound, rfl⟩, hreads⟩
    rw [howner'] at hfound
    cases hfound
    exact ⟨⟨owner, howner, haway⟩, hreads⟩
  · rintro ⟨⟨found, hfound, rfl⟩, hreads⟩
    rw [howner] at hfound
    cases hfound
    exact ⟨⟨owner', howner', haway.symm⟩, hreads⟩

/-! ## A tree of one node -/

/-- The only node of a new tree is called as the tree is. -/
theorem exists_root_new (net : Net) (name : String) : ∃ owner, (IncludeTree.new net name).node? rootId = some owner ∧
    owner.localName = name ∧ owner.name = name ∧ owner.qualifiedName = name := by
  have hremaps := (posted_new net name).remaps
  have hroot := node?_sprout net name rootId
  rw [if_pos rfl] at hroot
  obtain ⟨owner, howner, hframe⟩ := hremaps.frame.exists_after hroot
  obtain ⟨hcalled, hlocal⟩ := calledAs_of_frame hframe
  exact ⟨owner, howner, hlocal, hcalled.name, hcalled.qualifiedName⟩

/-- The homes that a net brings along are in the map of its node. -/
theorem Told.new (net : Net) (name : String) (scope : Scope) :
    Told scope (net.homes.map (.publish [])) ((IncludeTree.new net name).withAccessScope scope) := by
  set start := (IncludeTree.new net name).withAccessScope scope
  have hung : start.Hung := (Hung.new net name).keeps ⟨rfl, rfl, fun _ => rfl⟩
  have hposted := posted_new net name
  have honly : ∀ id, (start.node? id).isSome → id = rootId := fun id hlive => eq_root_of_new hlive
  have hroot : start.root = rootId := root_new net name
  have hroute : start.route rootId = [] := hroot ▸ hung.route_root
  have hlive : (start.node? rootId).isSome := hroot ▸ hung.top
  obtain ⟨owner, howner, _, _, hname⟩ : ∃ owner, start.node? rootId = some owner ∧ _ := exists_root_new net name
  have haway : ∀ place, awayId owner place = name ++ "." ++ place := fun place => by rw [awayId, hname]
  -- with one node only, a home is issued exactly if the net marks it
  have hissued : ∀ home : HomeRef, start.Issued (net.homes.map (.publish [])) home ↔
      home.node = rootId ∧ home.place ∈ net.homes := by
    intro home
    constructor
    · rintro ⟨hhome, hmem⟩
      obtain ⟨place, hplace, heq⟩ := List.mem_map.1 hmem
      exact ⟨honly _ hhome, (Growth.publish.inj heq).2 ▸ hplace⟩
    · rintro ⟨hnode, hplace⟩
      rw [Issued, hnode, hroute]
      exact ⟨hlive, List.mem_map_of_mem hplace⟩
  refine ⟨hung, rfl, fun route place hmem => ?_, fun route => ?_, fun n key e => ?_⟩
  · obtain ⟨_, _, heq⟩ := List.mem_map.1 hmem
    exact ⟨rootId, hlive, hroute.trans (Growth.publish.inj heq).1⟩
  · simp only [List.mem_map, reduceCtorEq, and_false, exists_false, false_and, or_false]
    constructor
    · rintro ⟨id, hid, rfl⟩
      rw [honly id hid, hroute]
    · rintro rfl
      exact ⟨rootId, hlive, hroute⟩
  · rw [show start.ledger.entry n key = some e ↔ _ from hposted.entries n key e]
    constructor
    · rintro ⟨rfl, place, hplace, rfl, rfl⟩
      refine ⟨⟨rootId, place⟩, (hissued _).2 ⟨rfl, hplace⟩, mem_scopeNodes_self howner _, ⟨owner, howner, ?_⟩, ?_⟩
      · rw [haway]
      · rw [homeEntry, if_pos rfl]
    · rintro ⟨home, hhome, hreach, ⟨owner', howner', hkey⟩, rfl⟩
      obtain ⟨hnode, hplace⟩ := (hissued home).1 hhome
      have hn : n = rootId := honly n (hung.live_of_mem_scopeNodes hreach)
      rw [hnode, howner] at howner'
      cases howner'
      refine ⟨hn, home.place, hplace, hkey.trans (haway _), ?_⟩
      rw [homeEntry, if_pos (hn.trans hnode.symm), ← hnode]

/-! ## A node more -/

namespace Joins

variable (h : tree.Joins parent id label after) (hung : tree.Hung)

include h

theorem ne_new {n : NodeId} (hlive : (tree.node? n).isSome) : n ≠ id := by
  rintro rfl
  rw [h.fresh] at hlive
  cases hlive

/-- The route of the new node is new. -/
theorem route_ne {n : NodeId} (hlive : (tree.node? n).isSome) : tree.route n ≠ after.route id := by
  intro heq
  rw [← h.route n hlive] at heq
  exact h.ne_new hlive (h.hung.route_injective id ((h.live id).2 (Or.inl rfl)) n ((h.live n).2 (Or.inr hlive)) heq)

include hung

/-- What reaches the new node reached the node above it. -/
theorem reach_above {home : NodeId} (hhome : (tree.node? home).isSome) (hmem : id ∈ after.reach home) :
    parent ∈ tree.reach home := by
  have hlive := (h.live id).2 (Or.inl rfl)
  rw [reach, h.hung.mem_scopeNodes_iff ((h.live home).2 (Or.inr hhome)) hlive, h.scope, h.route home hhome] at hmem
  rw [reach, hung.mem_scopeNodes_iff hhome h.above]
  refine Scope.Covers.above (h.last ▸ hmem) fun hprefix => ?_
  -- nobody stands below the new node yet
  obtain ⟨n, hn, hroute⟩ := hung.exists_of_prefix_route home hhome _ hprefix
  exact h.route_ne hn (hroute.trans h.last.symm)

end Joins

theorem homeEntry_eq_home {key : String} {home : HomeRef} {n : NodeId} :
    (homeEntry key home n).state = .home ↔ n = home.node := by
  rw [homeEntry]
  split <;> simp [*]

namespace Told

/-- The node of a published home has it in its map. -/
theorem own (h : Told scope calls tree) {home : HomeRef} (hissued : tree.Issued calls home) {key : String}
    {e : InterfacePlace} (hshows : tree.Shows home.node home key e) : tree.ledger.entry home.node key = some e := by
  obtain ⟨owner, howner⟩ := Option.isSome_iff_exists.1 hissued.1
  exact (h.entries _ _ _).2 ⟨home, hissued, mem_scopeNodes_self howner _, hshows⟩

/-- An entry as home is that of a place of the node itself. -/
theorem home_of_entry (h : Told scope calls tree) {n : NodeId} {key : String} {e : InterfacePlace}
    (hentry : tree.ledger.entry n key = some e) (hstate : e.state = .home) :
    ∃ home, tree.Issued calls home ∧ home.node = n ∧ tree.Shows home.node home key e := by
  obtain ⟨home, hissued, _, hshows⟩ := (h.entries n key e).1 hentry
  have hnode : n = home.node := homeEntry_eq_home.1 (hshows.reads ▸ hstate)
  exact ⟨home, hissued, hnode.symm, hnode ▸ hshows⟩

/-- Entries of one map under one key are for one home. -/
theorem home_unique (h : Told scope calls tree) {n : NodeId} {home home' : HomeRef} {key : String}
    {e e' : InterfacePlace} (hissued : tree.Issued calls home) (hissued' : tree.Issued calls home')
    (hreach : n ∈ tree.reach home.node) (hreach' : n ∈ tree.reach home'.node) (hshows : tree.Shows home.node home key e)
    (hshows' : tree.Shows home'.node home' key e') : home = home' := by
  have hentry := (h.entries n key (homeEntry key home n)).2 ⟨home, hissued, hreach, hshows.filed, rfl⟩
  have hentry' := (h.entries n key (homeEntry key home' n)).2 ⟨home', hissued', hreach', hshows'.filed, rfl⟩
  rw [hentry] at hentry'
  exact congrArg InterfacePlace.home (Option.some.inj hentry')

section Attach

variable (h : Told scope calls tree) (hjoins : tree.Joins parent id label after)

include h hjoins

/-- A new node has published nothing. -/
theorem issued_attach_iff {home : HomeRef} : after.Issued (calls ++ [.attach (tree.route parent) below label]) home ↔
    tree.Issued calls home := by
  have hcalls : ∀ route place, Growth.publish route place ∈ calls ++ [.attach (tree.route parent) below label] ↔
      Growth.publish route place ∈ calls := by simp
  rw [Issued, Issued, hcalls]
  constructor
  · rintro ⟨hlive, hmem⟩
    rcases (hjoins.live _).1 hlive with heq | hlive
    · obtain ⟨n, hn, hroute⟩ := h.issued _ _ hmem
      exact absurd (heq ▸ hroute) (hjoins.route_ne hn)
    · exact ⟨hlive, hjoins.route _ hlive ▸ hmem⟩
  · rintro ⟨hlive, hmem⟩
    exact ⟨(hjoins.live _).2 (Or.inr hlive), (hjoins.route _ hlive).symm ▸ hmem⟩

theorem routes_attach (route : List String) : (∃ n, (after.node? n).isSome ∧ after.route n = route) ↔
    route = [] ∨ ∃ above net name,
      .attach above net name ∈ calls ++ [.attach (tree.route parent) below label] ∧ route = above ++ [name] := by
  have hbefore : (∃ n, (after.node? n).isSome ∧ after.route n = route) ↔
      (∃ n, (tree.node? n).isSome ∧ tree.route n = route) ∨ route = tree.route parent ++ [label] := by
    constructor
    · rintro ⟨n, hlive, hroute⟩
      rcases (hjoins.live n).1 hlive with rfl | hlive
      · exact Or.inr (hroute.symm.trans hjoins.last)
      · exact Or.inl ⟨n, hlive, (hjoins.route n hlive).symm.trans hroute⟩
    · rintro (⟨n, hlive, hroute⟩ | hroute)
      · exact ⟨n, (hjoins.live n).2 (Or.inr hlive), (hjoins.route n hlive).trans hroute⟩
      · exact ⟨id, (hjoins.live id).2 (Or.inl rfl), hjoins.last.trans hroute.symm⟩
  rw [hbefore, h.routes, or_assoc]
  refine or_congr_right ⟨?_, ?_⟩
  · rintro (⟨above, net, name, hmem, hroute⟩ | hroute)
    · exact ⟨above, net, name, List.mem_append_left _ hmem, hroute⟩
    · exact ⟨_, below, label, by simp, hroute⟩
  · rintro ⟨above, net, name, hmem, hroute⟩
    rcases List.mem_append.1 hmem with hmem | hmem
    · exact Or.inl ⟨above, net, name, hmem, hroute⟩
    · cases List.mem_singleton.1 hmem
      exact Or.inr hroute

end Attach

/-- The map of a node that comes in has the homes that reach it, and no other map changes. -/
theorem attach (h : Told scope calls tree) (hclosed : below.Closed)
    (hcommand : tree.attach parent below label = .ok (id, after)) :
    Told scope (calls ++ [.attach (tree.route parent) below label]) after := by
  have hjoins := h.hung.joins hclosed hcommand
  refine ⟨hjoins.hung, hjoins.scope.trans h.scope, fun route place hmem => ?_, h.routes_attach hjoins,
    fun n key e => ?_⟩
  · obtain ⟨n, hlive, hroute⟩ := h.issued route place (by simpa using hmem)
    exact ⟨n, (hjoins.live n).2 (Or.inr hlive), (hjoins.route n hlive).trans hroute⟩
  simp only [h.issued_attach_iff hjoins]
  by_cases hn : n = id
  · subst hn
    rw [h.hung.entry_joined hclosed hcommand ?unique]
    case unique =>
      -- two homes that reach the new node reached the node above it, which has one of them only under a key
      intro home k e₁ home' k' e₂ hentry hstate hreach hentry' hstate' hreach' hkey
      obtain ⟨home, hissued, rfl, hshows⟩ := h.home_of_entry hentry hstate
      obtain ⟨home', hissued', rfl, hshows'⟩ := h.home_of_entry hentry' hstate'
      have hsame : k = k' := by
        rw [hshows.reads, hshows'.reads] at hkey
        exact hkey
      subst hsame
      have hhome := h.home_unique hissued hissued' (hjoins.reach_above h.hung hissued.1 hreach)
        (hjoins.reach_above h.hung hissued'.1 hreach') hshows hshows'
      rw [hshows.reads, hshows'.reads, hhome]
    constructor
    · rintro ⟨_, k, e₀, hentry, hstate, hreach, rfl, rfl⟩
      obtain ⟨home, hissued, rfl, hshows⟩ := h.home_of_entry hentry hstate
      have hne := (hjoins.ne_new hissued.1).symm
      refine ⟨home, hissued, hreach, (hjoins.shows_iff hissued.1).2 ⟨?_, ?_⟩⟩
      · rw [hshows.reads]
        exact hshows.filed
      · rw [hshows.reads, homeEntry, homeEntry, if_neg hne]
    · rintro ⟨home, hissued, hreach, hshows⟩
      obtain ⟨hfiled, rfl⟩ := (hjoins.shows_iff hissued.1).1 hshows
      have hown : tree.Shows home.node home key (homeEntry key home home.node) := ⟨hfiled, rfl⟩
      refine ⟨home.node, key, _, h.own hissued hown, homeEntry_eq_home.2 rfl, hreach, rfl, ?_⟩
      rw [homeEntry, homeEntry, if_neg (hjoins.ne_new hissued.1).symm]
  -- the other maps are as before, and so is what reaches them
  · rw [hjoins.kept n hn, h.entries]
    refine exists_congr fun home => and_congr_right fun hissued => ?_
    rw [hjoins.shows_iff hissued.1]
    refine and_congr_left fun _ => ⟨fun hmem => ?_, fun hmem => ?_⟩
    · exact (hjoins.mem_reach h.hung hissued.1 (h.hung.live_of_mem_scopeNodes hmem)).2 hmem
    · have hlive := ((hjoins.live n).1 (hjoins.hung.live_of_mem_scopeNodes hmem)).resolve_left hn
      exact (hjoins.mem_reach h.hung hissued.1 hlive).1 hmem

end Told

/-! ## A place more -/

/-- Publishing concerns maps and the status of a place. -/
theorem Hung.unmoved_publish (h : tree.Hung) (hcommand : tree.publish id place = (after, .ok away)) :
    tree.Unmoved after ∧ ∀ n, (after.node? n).isSome → (tree.node? n).isSome := by
  obtain ⟨report, heq⟩ | ⟨owner, found, net, _, heq⟩ := publish_cases tree id place
  · rw [hcommand] at heq
    cases heq
  · rw [hcommand] at heq
    cases heq
    have hview := (remaps_announced tree (awayId owner place) ⟨id, place⟩).frame.trans (frame_setNet _ id net)
    exact ⟨h.unmoved_of_frame hview (accessScope_enter ..), fun n hn => hview.seat.isSome n ▸ hn⟩

namespace Told

section Publish

variable (h : Told scope calls tree) (hunmoved : tree.Unmoved after) (honly : ∀ n, (after.node? n).isSome →
  (tree.node? n).isSome)

include hunmoved honly

theorem reach_publish (hung : tree.Hung) {home n : NodeId} (hhome : (tree.node? home).isSome) :
    n ∈ after.reach home ↔ n ∈ tree.reach home := by
  have hmem : (tree.node? n).isSome → (n ∈ after.reach home ↔ n ∈ tree.reach home) := hunmoved.mem_reach hung hhome
  constructor
  · exact fun hn => (hmem (honly n (hunmoved.hung.live_of_mem_scopeNodes hn))).1 hn
  · exact fun hn => (hmem (hung.live_of_mem_scopeNodes hn)).2 hn

include h

/-- One home more. -/
theorem issued_publish_iff (hlive : (tree.node? id).isSome) {home : HomeRef} :
    after.Issued (calls ++ [.publish (tree.route id) place]) home ↔ tree.Issued calls home ∨ home = ⟨id, place⟩ := by
  rw [Issued, Issued, List.mem_append, List.mem_singleton]
  constructor
  · rintro ⟨hhome, hmem⟩
    have hhome := honly _ hhome
    rw [hunmoved.route _ hhome] at hmem
    refine hmem.imp (fun hmem => ⟨hhome, hmem⟩) fun hlast => ?_
    obtain ⟨hroute, hplace⟩ := Growth.publish.inj hlast
    have hnode := h.hung.route_injective id hlive _ hhome hroute
    cases home
    cases hnode
    cases hplace
    rfl
  · rintro (⟨hhome, hmem⟩ | rfl)
    · rw [hunmoved.route _ hhome]
      exact ⟨hunmoved.isSome hhome, Or.inl hmem⟩
    · rw [hunmoved.route _ hlive]
      exact ⟨hunmoved.isSome hlive, Or.inr rfl⟩

theorem routes_publish (route : List String) : (∃ n, (after.node? n).isSome ∧ after.route n = route) ↔
    route = [] ∨ ∃ above net name,
      .attach above net name ∈ calls ++ [.publish (tree.route id) place] ∧ route = above ++ [name] := by
  have hsame : (∃ n, (after.node? n).isSome ∧ after.route n = route) ↔
      ∃ n, (tree.node? n).isSome ∧ tree.route n = route := by
    constructor
    · rintro ⟨n, hn, hroute⟩
      exact ⟨n, honly n hn, (hunmoved.route n (honly n hn)).symm.trans hroute⟩
    · rintro ⟨n, hn, hroute⟩
      exact ⟨n, hunmoved.isSome hn, (hunmoved.route n hn).trans hroute⟩
  rw [hsame, h.routes]
  simp

/-- What is shown is what was shown before, and the place where it reaches. -/
theorem shown_publish {owner : TreeNode} (howner : tree.node? id = some owner) {n : NodeId} {key : String}
    {e : InterfacePlace} : (∃ home, after.Issued (calls ++ [.publish (tree.route id) place]) home ∧
      n ∈ after.reach home.node ∧ after.Shows n home key e) ↔
    tree.ledger.entry n key = some e ∨
      n ∈ tree.reach id ∧ key = awayId owner place ∧ e = homeEntry key ⟨id, place⟩ n := by
  have hlive : (tree.node? id).isSome := Option.isSome_of_eq_some howner
  have hshows : after.Shows n ⟨id, place⟩ key e ↔ tree.Shows n ⟨id, place⟩ key e := hunmoved.shows_iff hlive
  rw [h.entries]
  constructor
  · rintro ⟨home, hissued, hreach, hshown⟩
    rcases (h.issued_publish_iff hunmoved honly hlive).1 hissued with hissued | rfl
    · exact Or.inl ⟨home, hissued, (reach_publish hunmoved honly h.hung hissued.1).1 hreach,
        (hunmoved.shows_iff hissued.1).1 hshown⟩
    · obtain ⟨⟨owner', howner', hkey⟩, he⟩ := hshows.1 hshown
      rw [howner] at howner'
      cases howner'
      exact Or.inr ⟨(reach_publish hunmoved honly h.hung hlive).1 hreach, hkey, he⟩
  · rintro (⟨home, hissued, hreach, hshown⟩ | ⟨hreach, hkey, he⟩)
    · exact ⟨home, (h.issued_publish_iff hunmoved honly hlive).2 (Or.inl hissued),
        (reach_publish hunmoved honly h.hung hissued.1).2 hreach, (hunmoved.shows_iff hissued.1).2 hshown⟩
    · exact ⟨⟨id, place⟩, (h.issued_publish_iff hunmoved honly hlive).2 (Or.inr rfl),
        (reach_publish hunmoved honly h.hung hlive).2 hreach,
        hshows.2 ⟨⟨owner, howner, hkey⟩, he⟩⟩

end Publish

/-- A published place is entered in all maps that it reaches, where its key was free. -/
theorem publish (h : Told scope calls tree) (hcommand : tree.publish id place = (after, .ok away)) :
    Told scope (calls ++ [.publish (tree.route id) place]) after := by
  obtain ⟨hunmoved, honly⟩ := h.hung.unmoved_publish hcommand
  obtain ⟨report, heq⟩ | ⟨owner, found, net, hpublishes, heq⟩ := publish_cases tree id place
  · rw [hcommand] at heq
    cases heq
  rw [hcommand] at heq
  cases heq
  have hlive : (tree.node? id).isSome := by
    rw [hpublishes.live]
    rfl
  refine ⟨hunmoved.hung, hunmoved.scope.trans h.scope, fun route other hmem => ?_, h.routes_publish hunmoved honly,
    fun n key e => ?_⟩
  · rcases List.mem_append.1 hmem with hmem | hmem
    · obtain ⟨n, hn, hroute⟩ := h.issued route other hmem
      exact ⟨n, hunmoved.isSome hn, (hunmoved.route n hn).trans hroute⟩
    · cases List.mem_singleton.1 hmem
      exact ⟨id, hunmoved.isSome hlive, hunmoved.route id hlive⟩
  rw [hpublishes.ledger.2.1, h.shown_publish hunmoved honly hpublishes.live]
  -- where the place reaches, nothing was under its key before
  by_cases hat : n ∈ tree.reach id ∧ key = awayId owner place
  · obtain ⟨hreach, rfl⟩ := hat
    rw [if_pos ⟨⟨hreach, h.hung.live_of_mem_scopeNodes hreach⟩, rfl⟩, vacant_iff.1 hpublishes.vacant n hreach]
    simp [hreach, eq_comm]
  · rw [if_neg fun hin => hat ⟨hin.1.1, hin.2⟩]
    exact (or_iff_left fun hin => hat ⟨hin.1, hin.2.1⟩).symm

end Told

/-! ## Any number of calls -/

theorem Grows.told (h : Grows net name scope calls tree) : Told scope calls tree := by
  induction h with
  | new => exact .new net name scope
  | attach _ hclosed hcommand ih => exact ih.attach hclosed hcommand
  | publish _ hcommand ih => exact ih.publish hcommand

end IncludeTree

end PetriTree
