import PetriTree.Proofs.Visibility

/-!
# PetriTree — calls in another order

The same calls can be made in any order in which none of them is refused. Nodes are made in another order then
and have other ids, but each has a counterpart that is reached by the same aliases, and the map of the counterpart
has the counterparts of the same homes, in the same states.

The keys of maps need not be the same. They are made of the names of nodes, and a node takes the first name that
is free when it comes in. Where no alias is that of the root or of a node above, every node is called by its alias,
and then keys are the same too.

Main results:
* `Grows.names_eq_aliases` — where no alias is used again further down, names are aliases;
* `IncludeTree.SameMaps` — maps that tell the same of the same homes;
* `Grows.maps` — what is in the maps, and that the order of the calls has no part in it;
* `awayIds_differ` — two orders of the same calls that lead to different keys.
-/

namespace PetriTree.IncludeTree

variable {tree after tree' : IncludeTree} {net : Net} {name : String} {scope : Scope} {calls calls' : List Growth}
  {parent id : NodeId} {label : String}

/-! ## Names -/

theorem Grows.arises (h : Grows net name scope calls tree) : tree.Arises := by
  induction h with
  | new => exact (Arises.new net name).withAccessScope scope
  | @attach tree after _ parent id below label _ _ hcommand ih =>
    have hperform := ih.perform (.attach parent below label)
    rwa [perform, hcommand] at hperform
  | @publish tree after _ id place away _ hcommand ih =>
    have hperform := ih.perform (.publish id place)
    rwa [perform, hcommand] at hperform

theorem alias_eq_root_or_last (h : tree.Hung) (halias : tree.alias? id = some label) :
    id = tree.root ∨ ∃ rest, tree.route id = rest ++ [label] := by
  cases hparent : tree.parent? id with
  | none => exact Or.inl ((h.parentless id (isSome_of_alias? halias)).1 hparent)
  | some above => exact Or.inr ⟨_, h.route_below hparent halias⟩

/-- Every node is called by its alias. -/
def NamesAreAliases (tree : IncludeTree) : Prop :=
  ∀ id node, tree.node? id = some node → node.name = node.localName

/-- Near a new node nobody has its alias, if the way to it has no alias twice. -/
theorem Joins.alias_ne (h : tree.Joins parent id label after) (hroot : after.alias? after.root = some name)
    (hdistinct : (name :: after.route id).Nodup) {other : NodeId} (hnear : after.Near id other) :
    after.alias? other ≠ some label := by
  intro halias
  have hlive := (h.live id).2 (Or.inl rfl)
  have hother := isSome_of_alias? halias
  have hne : other ≠ id := fun heq => h.hung.not_near_self (heq ▸ hnear)
  rw [h.last] at hdistinct
  rcases alias_eq_root_or_last h.hung halias with rfl | ⟨rest, hrest⟩
  · rw [hroot] at halias
    cases halias
    exact (List.nodup_cons.1 hdistinct).1 (by simp)
  rcases hnear with hup | hsibling
  -- a node above with the alias makes it stand twice on the way
  · have hpassed := (h.hung.prefix_route_iff hother id hlive).2 (Or.inr hup)
    rw [h.last, List.prefix_concat_iff, ← h.last, h.hung.route_inj hlive hother] at hpassed
    have hmem := (hpassed.resolve_left hne).subset (hrest ▸ List.mem_append_right rest (List.mem_singleton_self label))
    have hdisjoint := (List.nodup_append.1 (List.nodup_cons.1 hdistinct).2).2.2
    exact hdisjoint label hmem label (List.mem_singleton_self label) rfl
  · -- a sibling with the alias would be the node itself
    obtain ⟨above, hparent⟩ := h.hung.exists_parent_of_near (Or.inr hsibling)
    have hparent' := ((h.hung.mem_siblings_iff hparent).1 hsibling).1
    obtain ⟨own, hown⟩ := exists_alias_of_parent? hparent
    have hroute := h.hung.route_below hparent hown
    have hsame := List.singleton_inj.1 (List.append_inj' (h.last.symm.trans hroute) rfl).2
    rw [← hsame, ← h.hung.route_below hparent' halias] at hroute
    exact hne (h.hung.route_injective id hlive other hother hroute.symm)

theorem Unmoved.alias?_eq (h : tree.Unmoved after) (hlive : (tree.node? id).isSome) :
    after.alias? id = tree.alias? id := by
  obtain ⟨node, hnode⟩ := Option.isSome_iff_exists.1 hlive
  obtain ⟨node', hnode', _, hlocal⟩ := h.called id node hnode
  rw [IncludeTree.alias?_eq hnode, IncludeTree.alias?_eq hnode', hlocal]

theorem Grows.alias_root (h : Grows net name scope calls tree) : tree.alias? tree.root = some name := by
  induction h with
  | new =>
    obtain ⟨owner, howner, hlocal, _⟩ := exists_root_new net name
    have hroot : ((IncludeTree.new net name).withAccessScope scope).root = rootId := root_new net name
    rw [hroot]
    exact (IncludeTree.alias?_eq howner).trans (congrArg some hlocal)
  | attach hgrows hclosed hcommand ih =>
    have hung := hgrows.told.hung
    have hjoins := hung.joins hclosed hcommand
    rw [hjoins.root, hjoins.alias?_eq hung.top, ih]
  | publish hgrows hcommand ih =>
    have hung := hgrows.told.hung
    have hunmoved := (hung.unmoved_publish hcommand).1
    rw [hunmoved.root, hunmoved.alias?_eq hung.top, ih]

/-- What nodes of before were called like their aliases still are. -/
theorem Unmoved.name_eq (h : tree.Unmoved after) (hnames : tree.NamesAreAliases) (hlive : (tree.node? id).isSome)
    {node : TreeNode} (hnode : after.node? id = some node) :
    node.name = node.localName := by
  obtain ⟨old, hold⟩ := Option.isSome_iff_exists.1 hlive
  obtain ⟨node', hnode', hcalled, hlocal⟩ := h.called id old hold
  rw [hnode] at hnode'
  cases hnode'
  rw [hcalled.name, hnames id old hold, hlocal]

/-- If no alias is that of the root or of a node above, every node is called by its alias. -/
theorem Grows.names_eq_aliases (h : Grows net name scope calls tree)
    (hdistinct : ∀ n, (tree.node? n).isSome → (name :: tree.route n).Nodup) : tree.NamesAreAliases := by
  induction h with
  | new =>
    intro n node hnode
    obtain ⟨owner, howner, hlocal, hname, _⟩ := exists_root_new net name
    have hnode : (IncludeTree.new net name).node? n = some node := hnode
    rw [eq_root_of_new (Option.isSome_of_eq_some hnode), howner] at hnode
    cases hnode
    rw [hname, hlocal]
  | @attach tree after _ parent id below label hgrows hclosed hcommand ih =>
    have hung := hgrows.told.hung
    have hjoins := hung.joins hclosed hcommand
    -- routes of before are kept, so the condition held before as well
    have hnames := ih fun n hn => hjoins.route n hn ▸ hdistinct n (hjoins.isSome hn)
    have hroot : after.alias? after.root = some name := (hgrows.attach hclosed hcommand).alias_root
    obtain ⟨new, hnew, hname, hlocal⟩ := hung.name_joined hclosed hcommand fun other old hold hnear heq => by
      have hlive : (tree.node? other).isSome := Option.isSome_of_eq_some hold
      refine hjoins.alias_ne hroot (hdistinct id ((hjoins.live id).2 (Or.inl rfl))) hnear ?_
      rw [hjoins.alias?_eq hlive, IncludeTree.alias?_eq hold, ← hnames other old hold, heq]
    intro n node hnode
    rcases (hjoins.live n).1 (Option.isSome_of_eq_some hnode) with rfl | hlive
    · rw [hnew] at hnode
      cases hnode
      rw [hname, hlocal]
    · exact hjoins.name_eq hnames hlive hnode
  | publish hgrows hcommand ih =>
    obtain ⟨hunmoved, honly⟩ := hgrows.told.hung.unmoved_publish hcommand
    have hnames := ih fun n hn => hunmoved.route n hn ▸ hdistinct n (hunmoved.isSome hn)
    exact fun n node hnode => hunmoved.name_eq hnames (honly n (Option.isSome_of_eq_some hnode)) hnode

/-- The names on the way to a node are the aliases then. -/
theorem trail_eq_route (hnames : tree.NamesAreAliases) (id : NodeId) : tree.trail id = tree.route id := by
  rw [trail, route, namesOf]
  refine congrArg List.reverse (List.filterMap_congr fun n _ => ?_)
  rw [alias?]
  cases hnode : tree.node? n with
  | none => rfl
  | some node => exact congrArg some (hnames n node hnode)

theorem Grows.qualifiedName_eq (h : Grows net name scope calls tree)
    (hdistinct : ∀ n, (tree.node? n).isSome → (name :: tree.route n).Nodup) {node : TreeNode}
    (hnode : tree.node? id = some node) : node.qualifiedName = ".".intercalate (name :: tree.route id) := by
  have hung := h.told.hung
  have hnames := h.names_eq_aliases hdistinct
  obtain ⟨top, htop, hlocal⟩ := Option.map_eq_some_iff.1 h.alias_root
  have hqualified := (h.arises.named.path_eq_trail hung htop id (Option.isSome_of_eq_some hnode) node hnode).2
  rw [hqualified, trail_eq_route hnames, hnames _ top htop, hlocal]

/-! ## Maps -/

/-- The nodes are reached by the same aliases. -/
def Counterpart (tree tree' : IncludeTree) (n n' : NodeId) : Prop :=
  (tree.node? n).isSome ∧ (tree'.node? n').isSome ∧ tree'.route n' = tree.route n

/-- Every node has its counterpart, and their maps tell the same of the same homes. -/
structure SameMaps (tree tree' : IncludeTree) : Prop where
  there : ∀ n, (tree.node? n).isSome → ∃! n', tree.Counterpart tree' n n'
  back : ∀ n', (tree'.node? n').isSome → ∃! n, tree.Counterpart tree' n n'
  entries : ∀ n n' home home', tree.Counterpart tree' n n' → tree.Counterpart tree' home home' → ∀ place state,
    (∃ key, tree.ledger.entry n key = some ⟨key, ⟨home, place⟩, state⟩) ↔
      ∃ key, tree'.ledger.entry n' key = some ⟨key, ⟨home', place⟩, state⟩
  /-- If the nodes of a home are called the same, it has the same key as well. -/
  keys : ∀ n n' home home', tree.Counterpart tree' n n' → tree.Counterpart tree' home home' →
    (tree.node? home).map TreeNode.qualifiedName = (tree'.node? home').map TreeNode.qualifiedName →
      ∀ key place state, tree.ledger.entry n key = some ⟨key, ⟨home, place⟩, state⟩ ↔
        tree'.ledger.entry n' key = some ⟨key, ⟨home', place⟩, state⟩

namespace Told

/-- An entry says where its home is and whether that is here; all else is settled by the calls. -/
theorem entry_iff (h : Told scope calls tree) {n : NodeId} (hn : (tree.node? n).isSome) (home : HomeRef)
    {owner : TreeNode} (howner : tree.node? home.node = some owner) (key : String) (state : MergeState) :
    tree.ledger.entry n key = some ⟨key, home, state⟩ ↔
      (.publish (tree.route home.node) home.place ∈ calls ∧
        scope.Covers (tree.route home.node) (tree.route n) ∧ state = if n = home.node then .home else .available) ∧
      key = awayId owner home.place := by
  have hhome : (tree.node? home.node).isSome := Option.isSome_of_eq_some howner
  have hreach : n ∈ tree.reach home.node ↔ scope.Covers (tree.route home.node) (tree.route n) := by
    rw [reach, h.scope, h.hung.mem_scopeNodes_iff hhome hn]
  rw [h.entries, ← hreach]
  constructor
  · rintro ⟨found, ⟨_, hissued⟩, hreached, ⟨owner', howner', hkey⟩, hreads⟩
    cases hreads
    rw [howner] at howner'
    cases howner'
    exact ⟨⟨hissued, hreached, rfl⟩, hkey⟩
  · rintro ⟨⟨hissued, hreached, rfl⟩, hkey⟩
    exact ⟨home, ⟨hhome, hissued⟩, hreached, ⟨owner, howner, hkey⟩, rfl⟩

theorem exists_counterpart (h : Told scope calls tree) (h' : Told scope calls' tree') (hperm : calls.Perm calls')
    {n : NodeId} (hn : (tree.node? n).isSome) : ∃ n', tree.Counterpart tree' n n' := by
  have hroute := (h.routes (tree.route n)).1 ⟨n, hn, rfl⟩
  simp only [hperm.mem_iff, ← h'.routes] at hroute
  obtain ⟨n', hn', hsame⟩ := hroute
  exact ⟨n', hn, hn', hsame⟩

/-- The order of the calls has no part in what the maps tell. -/
theorem sameMaps (h : Told scope calls tree) (h' : Told scope calls' tree') (hperm : calls.Perm calls') :
    tree.SameMaps tree' := by
  have hentry : ∀ n n' home home', tree.Counterpart tree' n n' → tree.Counterpart tree' home home' → ∀ place state,
      ((.publish (tree.route home) place ∈ calls ∧ scope.Covers (tree.route home) (tree.route n) ∧
          state = if n = home then MergeState.home else .available) ↔
        (.publish (tree'.route home') place ∈ calls' ∧ scope.Covers (tree'.route home') (tree'.route n') ∧
          state = if n' = home' then .home else .available)) := by
    intro n n' home home' hn hhome place state
    -- all that decides about an entry is told by routes, which counterparts share
    have hsame : n = home ↔ n' = home' := by
      rw [← h.hung.route_inj hhome.1 hn.1, ← h'.hung.route_inj hhome.2.1 hn.2.1, hn.2.2, hhome.2.2]
    rw [hn.2.2, hhome.2.2, hperm.mem_iff]
    simp only [hsame]
  refine ⟨fun n hn => ?_, fun n' hn' => ?_, fun n n' home home' hn hhome place state => ?_,
    fun n n' home home' hn hhome hnames key place state => ?_⟩
  · obtain ⟨n', hcounterpart⟩ := h.exists_counterpart h' hperm hn
    refine ⟨n', hcounterpart, fun other hother => ?_⟩
    exact h'.hung.route_injective n' hcounterpart.2.1 other hother.2.1 (hother.2.2.trans hcounterpart.2.2.symm)
  · obtain ⟨n, hn, hlive, hroute⟩ := h'.exists_counterpart h hperm.symm hn'
    refine ⟨n, ⟨hlive, hn, hroute.symm⟩, fun other hother => ?_⟩
    exact h.hung.route_injective n hlive other hother.1 (hother.2.2.symm.trans hroute.symm)
  · obtain ⟨owner, howner⟩ := Option.isSome_iff_exists.1 hhome.1
    obtain ⟨owner', howner'⟩ := Option.isSome_iff_exists.1 hhome.2.1
    have hleft := h.entry_iff hn.1 ⟨home, place⟩ howner
    have hright := h'.entry_iff hn.2.1 ⟨home', place⟩ howner'
    simp only [hleft, hright, exists_and_left, exists_eq, and_true]
    exact hentry n n' home home' hn hhome place state
  · obtain ⟨owner, howner⟩ := Option.isSome_iff_exists.1 hhome.1
    obtain ⟨owner', howner'⟩ := Option.isSome_iff_exists.1 hhome.2.1
    rw [howner, howner'] at hnames
    have haway : awayId owner place = awayId owner' place := by rw [awayId, Option.some.inj hnames, awayId]
    rw [h.entry_iff hn.1 ⟨home, place⟩ howner, h'.entry_iff hn.2.1 ⟨home', place⟩ howner', haway]
    exact and_congr_left fun _ => hentry n n' home home' hn hhome place state

end Told

/-- A tree grows by including closed nets and by publishing places, under an access scope that was fixed when it was
made. A node has an entry for a home exactly if the place was published and the access scope selects the node from
there. There is one such entry, as home in the node of the place itself and as available elsewhere, and its key is the
away id of the home. The same calls in another order lead to maps that tell the same; keys are the same too where the
nodes of the homes are called the same, as they are if no alias is that of the root or of a node above. -/
theorem Grows.maps (h : Grows net name scope calls tree) :
    (∀ n node, tree.node? n = some node → ∀ home,
      ((∃ e ∈ node.interface.values, e.home = home) ↔
        tree.Issued calls home ∧ n ∈ tree.scopeNodes home.node scope) ∧
      ∀ key e, node.interface.get? key = some e → e.home = home →
        e.state = (if n = home.node then .home else .available) ∧ e.awayId = key ∧
          ∃ owner, tree.node? home.node = some owner ∧ key = awayId owner home.place) ∧
    ∀ calls' tree', Grows net name scope calls' tree' → calls.Perm calls' → tree.SameMaps tree' ∧
      ((∀ n, (tree.node? n).isSome → (name :: tree.route n).Nodup) → ∀ n n', tree.Counterpart tree' n n' →
        (tree.node? n).map TreeNode.qualifiedName = (tree'.node? n').map TreeNode.qualifiedName) := by
  have htold := h.told
  refine ⟨fun n node hnode home => ⟨⟨?_, ?_⟩, fun key e hkey hhome => ?_⟩, fun calls' tree' h' hperm =>
    ⟨htold.sameMaps h'.told hperm, fun hdistinct n n' hcounterpart => ?_⟩⟩
  · rintro ⟨e, he, rfl⟩
    obtain ⟨key, hkey⟩ := Table.mem_values_iff.1 he
    obtain ⟨home, hissued, hreach, hshows⟩ := (htold.entries n key e).1 ((entry_eq hnode key).trans hkey)
    rw [hshows.reads]
    exact ⟨hissued, htold.scope ▸ hreach⟩
  · rintro ⟨hissued, hreach⟩
    obtain ⟨owner, howner⟩ := Option.isSome_iff_exists.1 hissued.1
    rw [← htold.scope] at hreach
    have hentry := (htold.entries n (awayId owner home.place) _).2 ⟨home, hissued, hreach, ⟨owner, howner, rfl⟩, rfl⟩
    exact ⟨_, Table.mem_values_iff.2 ⟨_, (entry_eq hnode _).symm.trans hentry⟩, rfl⟩
  · obtain ⟨found, hissued, hreach, hfiled, rfl⟩ := (htold.entries n key e).1 ((entry_eq hnode key).trans hkey)
    cases hhome
    exact ⟨rfl, rfl, hfiled⟩
  · obtain ⟨node, hnode⟩ := Option.isSome_iff_exists.1 hcounterpart.1
    obtain ⟨node', hnode'⟩ := Option.isSome_iff_exists.1 hcounterpart.2.1
    have hdistinct' : ∀ m', (tree'.node? m').isSome → (name :: tree'.route m').Nodup := fun m' hm' => by
      obtain ⟨m, _, hm, hroute⟩ := h'.told.exists_counterpart htold hperm.symm hm'
      exact hroute ▸ hdistinct m hm
    rw [hnode, hnode', Option.map_some, Option.map_some, h.qualifiedName_eq hdistinct hnode,
      h'.qualifiedName_eq hdistinct' hnode', hcounterpart.2.2]

/-! ## Two orders -/

/-- A net with a place that can be published. -/
def source : Net := Sample.netOf [Sample.place "P" 1]

/-- The tree of a net without any places, called `a`. -/
def start : IncludeTree := (IncludeTree.new (Sample.netOf []) "a").withAccessScope .ancestors

/-- The source comes in under the alias `a` and an empty net under the alias `a1`, and then the place is published. -/
def sourceFirst : IncludeTree := start.performAll
  [.attach rootId source "a", .attach rootId (Sample.netOf []) "a1", .publish ⟨1⟩ "P"]

/-- The same, with the empty net first. -/
def sourceLast : IncludeTree := start.performAll
  [.attach rootId (Sample.netOf []) "a1", .attach rootId source "a", .publish ⟨2⟩ "P"]

/-- A net comes in at the root. -/
theorem Grows.attach_root (h : Grows net name scope calls tree) (below : Net) (label : String) (hclosed : below.Closed)
    (hanswer : (tree.attach rootId below label).toOption.map Prod.fst = some id) (hroute : tree.route rootId = []) :
    Grows net name scope (calls ++ [.attach [] below label]) (tree.perform (.attach rootId below label)).1 :=
  hroute ▸ h.attach hclosed (attach_eq_perform hanswer)

/-- A place of a net that came in at the root is published. -/
theorem Grows.publish_below (h : Grows net name scope calls tree) (id : NodeId) (place : String) {away : String}
    (hanswer : (tree.publish id place).2 = .ok away) (hroute : tree.route id = [label]) :
    Grows net name scope (calls ++ [.publish [label] place]) (tree.perform (.publish id place)).1 :=
  hroute ▸ h.publish (Prod.ext rfl hanswer)

theorem grows_sourceFirst : Grows (Sample.netOf []) "a" .ancestors
    [.attach [] source "a", .attach [] (Sample.netOf []) "a1", .publish ["a"] "P"] sourceFirst := by
  have hstart : Grows (Sample.netOf []) "a" .ancestors [] start := .new
  have hsource := hstart.attach_root source "a" (by decide +kernel) (by decide +kernel : _ = some ⟨1⟩)
    (by decide +kernel)
  have hempty := hsource.attach_root (Sample.netOf []) "a1" (by decide +kernel) (by decide +kernel : _ = some ⟨2⟩)
    (by decide +kernel)
  exact hempty.publish_below ⟨1⟩ "P" (by decide +kernel : _ = Except.ok "a.a1.P") (by decide +kernel)

theorem grows_sourceLast : Grows (Sample.netOf []) "a" .ancestors
    [.attach [] (Sample.netOf []) "a1", .attach [] source "a", .publish ["a"] "P"] sourceLast := by
  have hstart : Grows (Sample.netOf []) "a" .ancestors [] start := .new
  have hempty := hstart.attach_root (Sample.netOf []) "a1" (by decide +kernel) (by decide +kernel : _ = some ⟨1⟩)
    (by decide +kernel)
  have hsource := hempty.attach_root source "a" (by decide +kernel) (by decide +kernel : _ = some ⟨2⟩)
    (by decide +kernel)
  exact hsource.publish_below ⟨2⟩ "P" (by decide +kernel : _ = Except.ok "a.a2.P") (by decide +kernel)

/-- The root sees the place in both orders. -/
theorem maps_sourceFirst : (∃ node, sourceFirst.node? rootId = some node ∧
      ∃ e ∈ node.interface.values, e.home = ⟨⟨1⟩, "P"⟩) ∧ sourceFirst.SameMaps sourceLast := by
  obtain ⟨hseen, horder⟩ := grows_sourceFirst.maps
  obtain ⟨node, hnode⟩ : ∃ node, sourceFirst.node? rootId = some node :=
    Option.isSome_iff_exists.1 (by decide +kernel)
  have hroute : sourceFirst.route ⟨1⟩ = ["a"] := by decide +kernel
  refine ⟨⟨node, hnode, ((hseen rootId node hnode ⟨⟨1⟩, "P"⟩).1).2 ⟨⟨by decide +kernel, ?_⟩, by decide +kernel⟩⟩,
    (horder _ _ grows_sourceLast (.swap ..)).1⟩
  rw [hroute]
  simp

/-- The source has another name in one order than in the other: below a root called `a` it is called `a1` if it
comes first, and `a2` if a node with the alias `a1` is there. So the root has the place under different keys. -/
theorem awayIds_differ :
    Grows (Sample.netOf []) "a" .ancestors
      [.attach [] source "a", .attach [] (Sample.netOf []) "a1", .publish ["a"] "P"] sourceFirst ∧
    Grows (Sample.netOf []) "a" .ancestors
      [.attach [] (Sample.netOf []) "a1", .attach [] source "a", .publish ["a"] "P"] sourceLast ∧
    sourceFirst.ledger.entry rootId "a.a1.P" = some ⟨"a.a1.P", ⟨⟨1⟩, "P"⟩, .available⟩ ∧
    sourceLast.ledger.entry rootId "a.a1.P" = none ∧
    sourceLast.ledger.entry rootId "a.a2.P" = some ⟨"a.a2.P", ⟨⟨2⟩, "P"⟩, .available⟩ :=
  ⟨grows_sourceFirst, grows_sourceLast, by decide +kernel, by decide +kernel, by decide +kernel⟩

end PetriTree.IncludeTree
