import PetriTree.Proofs.Naming
import PetriTree.Proofs.Publication
import PetriTree.Proofs.Route

/-!
# PetriTree — a closed net comes in

A net without a place of the interface gets a node, and what is published already is offered to it.
Everything else is as before: the other nodes keep their maps, their names and their routes.

Offers are taken one after the other, and one whose away id is taken is passed over. As long as no two of them
have the same away id, all are taken.

Main results:
* `Net.Closed` — no place is part of the interface;
* `get?_offered_iff`, `Rooted.mem_reachingEntries` — what is offered, and where it comes from;
* `IncludeTree.Joins`, `Hung.joins` — what is as before when a closed net comes in;
* `Hung.entry_joined` — what is in the map of its node.
-/

namespace PetriTree

namespace Net

/-- No place is part of the interface. -/
def Closed (net : Net) : Prop := ∀ place ∈ net.places.values, place.status.isInterface = false

instance (net : Net) : Decidable net.Closed := inferInstanceAs (Decidable (∀ _ ∈ _, _))

end Net

namespace IncludeTree

variable {tree after : IncludeTree}

/-! ## What is offered -/

section Offered

theorem contains_offered (map : Table InterfacePlace) (entries : List InterfacePlace) (key : String) :
    (offered map entries).contains key = (map.contains key || entries.any fun e => e.awayId == key) := by
  induction entries generalizing map with
  | nil => simp [offered]
  | cons first rest ih =>
    rw [offered, List.foldl_cons, ← offered, ih, List.any_cons]
    by_cases hkey : first.awayId = key
    · split
      · rename_i hfirst
        rw [hkey] at hfirst
        simp [hfirst]
      · simp [Table.contains_insert, hkey]
    · have hne : (first.awayId == key) = false := by simpa using hkey
      split <;> simp [Table.contains_insert, hkey, hne]

/-- A key that one home only has is offered with this home. -/
theorem get?_offered_iff {entries : List InterfacePlace} {key : String} {e : InterfacePlace}
    (hunique : ∀ a ∈ entries, ∀ b ∈ entries, a.awayId = b.awayId → a = b) :
    (offered Table.empty entries).get? key = some e ↔
      ∃ e₀ ∈ entries, e₀.awayId = key ∧ e = { e₀ with state := .available } := by
  constructor
  · intro h
    exact (get?_offered h).resolve_left fun hnone => by cases hnone
  · rintro ⟨e₀, he₀, hkey, rfl⟩
    have hcontains : (offered Table.empty entries).contains key = true := by
      have hany : (entries.any fun e => e.awayId == key) = true := List.any_eq_true.2 ⟨e₀, he₀, by simpa using hkey⟩
      rw [contains_offered, hany, Bool.or_true]
    obtain ⟨found, hfound⟩ := Option.isSome_iff_exists.1 hcontains
    obtain ⟨e₁, he₁, hkey₁, rfl⟩ := (get?_offered hfound).resolve_left fun hnone => by cases hnone
    rw [hfound, hunique e₁ he₁ e₀ he₀ (hkey₁.trans hkey.symm)]

theorem Rooted.mem_reachingEntries (h : tree.Rooted) {id : NodeId} {e : InterfacePlace} :
    e ∈ tree.reachingEntries id ↔ ∃ home key, home ≠ id ∧ tree.ledger.entry home key = some e ∧
      e.state = .home ∧ id ∈ tree.reach home := by
  rw [reachingEntries, List.mem_flatMap]
  constructor
  · rintro ⟨⟨home, owner⟩, hwalk, hmem⟩
    dsimp only at hmem
    split at hmem
    · cases hmem
    · rename_i hne
      obtain ⟨hvalue, hstate⟩ := List.mem_filter.1 hmem
      obtain ⟨key, hkey⟩ := Table.mem_values_iff.1 hvalue
      simp only [Bool.and_eq_true, beq_iff_eq, List.contains_iff_mem] at hstate
      exact ⟨home, key, hne, (entry_eq (IncludeTree.mem_walk.1 hwalk).2 key).trans hkey, hstate⟩
  · rintro ⟨home, key, hne, hentry, hstate, hreach⟩
    obtain ⟨owner, howner, hkey⟩ := entry_eq_some.1 hentry
    refine ⟨(home, owner), h.mem_walk howner, ?_⟩
    dsimp only
    rw [if_neg hne, List.mem_filter]
    refine ⟨Table.mem_values_iff.2 ⟨key, hkey⟩, ?_⟩
    simp only [Bool.and_eq_true, beq_iff_eq, List.contains_iff_mem]
    exact ⟨hstate, hreach⟩

end Offered

/-! ## What is as before -/

theorem calledAs_of_frame {node node' : TreeNode} (h : node'.frame = node.frame) :
    node.CalledAs node' ∧ node'.localName = node.localName :=
  ⟨⟨(congrArg TreeNode.parent h :), (congrArg TreeNode.name h :), (congrArg TreeNode.qualifiedName h :),
    (congrArg TreeNode.path h :)⟩, (congrArg TreeNode.localName h :)⟩

theorem calledAs_trans {a b c : TreeNode} (h : a.CalledAs b ∧ b.localName = a.localName)
    (h' : b.CalledAs c ∧ c.localName = b.localName) : a.CalledAs c ∧ c.localName = a.localName :=
  ⟨⟨h'.1.parent.trans h.1.parent, h'.1.name.trans h.1.name, h'.1.qualifiedName.trans h.1.qualifiedName,
    h'.1.path.trans h.1.path⟩, h'.2.trans h.2⟩

/-- Nodes stay where they are, under their names, and are reached as before. -/
structure Unmoved (tree after : IncludeTree) : Prop where
  hung : after.Hung
  root : after.root = tree.root
  scope : after.accessScope = tree.accessScope
  called : ∀ id node, tree.node? id = some node →
    ∃ node', after.node? id = some node' ∧ node.CalledAs node' ∧ node'.localName = node.localName
  route : ∀ id, (tree.node? id).isSome → after.route id = tree.route id

theorem Unmoved.isSome (h : tree.Unmoved after) {id : NodeId} (hlive : (tree.node? id).isSome) :
    (after.node? id).isSome := by
  obtain ⟨node, hnode⟩ := Option.isSome_iff_exists.1 hlive
  obtain ⟨node', hnode', _⟩ := h.called id node hnode
  exact Option.isSome_of_eq_some hnode'

theorem Hung.unmoved_of_frame (h : tree.Hung) (hview : tree.SameView TreeNode.frame after)
    (hscope : after.accessScope = tree.accessScope) : tree.Unmoved after where
  hung := h.keeps hview.seat
  root := hview.root
  scope := hscope
  called id node hnode := by
    obtain ⟨node', hnode', hframe⟩ := hview.exists_after hnode
    exact ⟨node', hnode', calledAs_of_frame hframe⟩
  route := route_kept h (h.keeps hview.seat) hview.root (fun id _ => hview.seat.parent?_eq id)
    fun id _ => hview.seat.alias?_eq id

/-- What reaches what does not change. -/
theorem Unmoved.mem_reach (h : tree.Unmoved after) (hung : tree.Hung) {home n : NodeId}
    (hhome : (tree.node? home).isSome) (hn : (tree.node? n).isSome) : n ∈ after.reach home ↔ n ∈ tree.reach home := by
  rw [reach, reach, h.scope, hung.mem_scopeNodes_iff hhome hn,
    h.hung.mem_scopeNodes_iff (h.isSome hhome) (h.isSome hn), h.route home hhome, h.route n hn]

/-- A new node hangs below another one, and all else is as before, apart from its own map. -/
structure Joins (tree : IncludeTree) (parent new : NodeId) (name : String) (after : IncludeTree) : Prop
    extends tree.Unmoved after where
  fresh : tree.node? new = none
  above : (tree.node? parent).isSome
  live : ∀ id, (after.node? id).isSome ↔ id = new ∨ (tree.node? id).isSome
  last : after.route new = tree.route parent ++ [name]
  kept : ∀ id, id ≠ new → ∀ key, after.ledger.entry id key = tree.ledger.entry id key

theorem accessScope_resolveNames (tree : IncludeTree) (id : NodeId) :
    (tree.resolveNames id).accessScope = tree.accessScope := by
  unfold resolveNames
  split
  · rfl
  · split
    · rfl
    · split <;> rfl

/-- Names are recomputed for one node only. -/
theorem node?_resolveNames {id other : NodeId} (hne : other ≠ id) :
    (tree.resolveNames id).node? other = tree.node? other := by
  unfold resolveNames
  split
  · rfl
  · split
    · rw [node?_modifyNode, if_neg hne]
    · split
      · rfl
      · rw [node?_modifyNode, if_neg hne]

section Attach

variable {parent id : NodeId} {owner : TreeNode} {below : Net} {name : String}

/-- The tree with a node for a net, which is not called anything yet. -/
def planted (tree : IncludeTree) (parent : NodeId) (net : Net) (name : String) : IncludeTree :=
  tree.grow parent name ⟨name, "", "", "", some parent, Table.empty, net, Table.empty⟩

theorem node?_planted (howner : tree.node? parent = some owner) : (tree.planted parent below name).node?
    tree.nodes.nextId = some ⟨name, "", "", "", some parent, Table.empty, below, Table.empty⟩ := by
  rw [planted, node?_grow_eq howner, if_pos rfl]

/-- The new node gets its names, and nothing else changes. -/
theorem included_eq (tree : IncludeTree) (parent : NodeId) (net : Net) (name : String) :
    tree.included parent net name = (tree.planted parent net name).resolveNames tree.nodes.nextId := rfl

/-- It gets its map, and nothing else changes. -/
theorem frame_seeded (tree : IncludeTree) (parent : NodeId) (net : Net) (name : String) :
    (tree.included parent net name).SameView TreeNode.frame (tree.seeded parent net name).touch :=
  ((remaps_seedAvailable ..).trans (remaps_touch _)).frame

theorem seat_planted (tree : IncludeTree) (parent : NodeId) (net : Net) (name : String) :
    (tree.planted parent net name).SameView TreeNode.seat (tree.seeded parent net name).touch :=
  (seat_resolveNames ..).trans (frame_seeded ..).seat

/-- A closed net comes with nothing to register. -/
theorem attach_closed (hclosed : below.Closed) (hcommand : tree.attach parent below name = .ok (id, after)) :
    ∃ owner, tree.node? parent = some owner ∧ isAlias name = true ∧ owner.children.contains name = false ∧
      id = tree.nodes.nextId ∧ after = (tree.seeded parent below name).touch := by
  obtain ⟨owner, howner, halias, hfree, rfl, rfl⟩ := attach_eq_ok hcommand
  exact ⟨owner, howner, halias, hfree, rfl,
    congrArg touch (registerHomes_seeded howner (Net.standing?_eq_none hclosed))⟩

theorem Hung.joins (h : tree.Hung) (hclosed : below.Closed)
    (hcommand : tree.attach parent below name = .ok (id, after)) : tree.Joins parent id name after := by
  have hung' := h.attach hcommand
  obtain ⟨owner, howner, halias, hfree, rfl, rfl⟩ := attach_closed hclosed hcommand
  have hview := seat_planted tree parent below name
  -- seats are settled when the node is put in: what follows gives it its names and its map
  have hlive : ∀ id, ((tree.seeded parent below name).touch.node? id).isSome ↔
      id = tree.nodes.nextId ∨ (tree.node? id).isSome := by
    intro id
    rw [hview.isSome, planted, node?_grow_eq howner]
    split
    · simp [*]
    · split
      · rename_i heq
        simp [heq, howner]
      · simp [*]
  have hold : ∀ id, (tree.node? id).isSome → id ≠ tree.nodes.nextId := fun id hlive => by
    obtain ⟨node, hnode⟩ := Option.isSome_iff_exists.1 hlive
    exact ne_nextId hnode
  have hroute : ∀ id, (tree.node? id).isSome → (tree.seeded parent below name).touch.route id = tree.route id := by
    refine route_kept h hung' hview.root (fun id hlive => ?_) fun id hlive => ?_
    · rw [hview.parent?_eq, planted, parent?_grow howner, if_neg (hold id hlive)]
    · rw [hview.alias?_eq, planted, alias?_grow howner, if_neg (hold id hlive)]
  have hparent : (tree.node? parent).isSome := Option.isSome_of_eq_some howner
  refine ⟨⟨hung', hview.root, accessScope_resolveNames .., fun id node hnode => ?_, hroute⟩, node?_nextId tree,
    hparent, hlive, ?_, fun id hne key => entry_seeded howner hne key⟩
  · have hne : id ≠ tree.nodes.nextId := ne_nextId hnode
    obtain ⟨old, hold, hcalled⟩ : ∃ old, (tree.included parent below name).node? id = some old ∧
        node.CalledAs old ∧ old.localName = node.localName := by
      rw [included_eq, node?_resolveNames hne, planted, node?_grow_eq howner, if_neg hne]
      split
      · rename_i heq
        rw [heq, howner] at hnode
        cases hnode
        exact ⟨_, rfl, ⟨rfl, rfl, rfl, rfl⟩, rfl⟩
      · exact ⟨node, hnode, ⟨rfl, rfl, rfl, rfl⟩, rfl⟩
    obtain ⟨node', hnode', hframe⟩ := (frame_seeded ..).exists_after hold
    exact ⟨node', hnode', calledAs_trans hcalled (calledAs_of_frame hframe)⟩
  · have hup : (tree.seeded parent below name).touch.parent? tree.nodes.nextId = some parent := by
      rw [hview.parent?_eq, planted, parent?_grow howner, if_pos rfl]
    have hname : (tree.seeded parent below name).touch.alias? tree.nodes.nextId = some name := by
      rw [hview.alias?_eq, planted, alias?_grow howner, if_pos rfl]
    rw [hung'.route_below hup hname, hroute parent hparent]

/-- The map of the new node has the homes that reach it, if no two of them have the same away id. -/
theorem Hung.entry_joined (h : tree.Hung) (hclosed : below.Closed)
    (hcommand : tree.attach parent below name = .ok (id, after))
    (hunique : ∀ home k e home' k' e', tree.ledger.entry home k = some e → e.state = .home → id ∈ after.reach home →
      tree.ledger.entry home' k' = some e' → e'.state = .home → id ∈ after.reach home' → e.awayId = e'.awayId → e = e')
    (key : String) (e : InterfacePlace) : after.ledger.entry id key = some e ↔
      ∃ home k e₀, tree.ledger.entry home k = some e₀ ∧ e₀.state = .home ∧ id ∈ after.reach home ∧
        e₀.awayId = key ∧ e = { e₀ with state := .available } := by
  obtain ⟨owner, howner, halias, hfree, rfl, rfl⟩ := attach_closed hclosed hcommand
  have hincluded : (tree.included parent below name).Hung :=
    (h.grow_attached below howner halias hfree).keeps (seat_resolveNames ..)
  have hreach : ∀ home, (tree.seeded parent below name).touch.reach home =
      (tree.included parent below name).reach home := fun home =>
    ((remaps_seedAvailable ..).trans (remaps_touch _)).scopeNodes home _
  -- the entries of the new node itself are none yet
  have hmem : ∀ e₀, e₀ ∈ (tree.included parent below name).reachingEntries tree.nodes.nextId ↔
      ∃ home k, tree.ledger.entry home k = some e₀ ∧ e₀.state = .home ∧
        tree.nodes.nextId ∈ (tree.seeded parent below name).touch.reach home := by
    intro e₀
    rw [hincluded.toRooted.mem_reachingEntries]
    refine exists_congr fun home => exists_congr fun k => ?_
    rw [(ledger_included howner home k).1, hreach]
    refine and_iff_right_of_imp fun ⟨hentry, _⟩ heq => ?_
    rw [heq, entry_nextId] at hentry
    cases hentry
  obtain ⟨node, hnode, _, hempty⟩ := exists_included below name howner
  have hoffered : (tree.seeded parent below name).touch.ledger.entry tree.nodes.nextId key =
      (offered Table.empty ((tree.included parent below name).reachingEntries tree.nodes.nextId)).get? key := by
    rw [ledger_touch, seeded, seedAvailable, entry_modifyNode, if_pos rfl, hnode, Option.bind_some, hempty]
    rfl
  rw [hoffered, get?_offered_iff fun a ha b hb => ?_]
  · simp only [hmem]
    constructor
    · rintro ⟨e₀, ⟨home, k, hentry, hstate, hreached⟩, hkey, heq⟩
      exact ⟨home, k, e₀, hentry, hstate, hreached, hkey, heq⟩
    · rintro ⟨home, k, e₀, hentry, hstate, hreached, hkey, heq⟩
      exact ⟨e₀, ⟨home, k, hentry, hstate, hreached⟩, hkey, heq⟩
  · obtain ⟨home, k, hentry, hstate, hreached⟩ := (hmem a).1 ha
    obtain ⟨home', k', hentry', hstate', hreached'⟩ := (hmem b).1 hb
    exact hunique home k a home' k' b hentry hstate hreached hentry' hstate' hreached'

/-- What counts as taken are the names of the nodes near the new one, which were there before. -/
theorem of_mem_takenNames (howner : tree.node? parent = some owner)
    (hung : (tree.planted parent below name).Hung) {taken : String}
    (hmem : taken ∈ (tree.planted parent below name).takenNames tree.nodes.nextId) :
    ∃ other old, tree.node? other = some old ∧ old.name = taken ∧
      (tree.planted parent below name).Near tree.nodes.nextId other := by
  obtain ⟨other, hnear, found, hfound, hname⟩ : ∃ other, (tree.planted parent below name).Near tree.nodes.nextId other ∧
      ∃ found, (tree.planted parent below name).node? other = some found ∧ found.name = taken := by
    rcases List.mem_append.1 hmem with hmem | hmem
    · obtain ⟨other, hother, heq⟩ := List.mem_filterMap.1 hmem
      exact ⟨other, Or.inl hother, Option.map_eq_some_iff.1 heq⟩
    · obtain ⟨other, hother, heq⟩ := List.mem_filterMap.1 (List.mem_filter.1 hmem).1
      exact ⟨other, Or.inr hother, Option.map_eq_some_iff.1 heq⟩
  rcases node?_grow howner hfound with ⟨heq, _⟩ | ⟨old, hold, _, _, hsame, _⟩
  · exact (hung.not_near_self (heq ▸ hnear)).elim
  · exact ⟨other, old, hold, hsame.symm.trans hname, hnear⟩

/-- A new node is called by its alias if no node near it is called so. -/
theorem Hung.name_joined (h : tree.Hung) (hclosed : below.Closed)
    (hcommand : tree.attach parent below name = .ok (id, after))
    (hnew : ∀ other old, tree.node? other = some old → after.Near id other → old.name ≠ name) :
    ∃ node, after.node? id = some node ∧ node.name = name ∧ node.localName = name := by
  have hjoins := h.joins hclosed hcommand
  obtain ⟨owner, howner, halias, hfree, rfl, rfl⟩ := attach_closed hclosed hcommand
  have hplanted : (tree.planted parent below name).Hung := h.grow_attached below howner halias hfree
  have hview := seat_planted tree parent below name
  have hlive : ∀ n, n = tree.nodes.nextId ∨ (tree.node? n).isSome → ((tree.planted parent below name).node? n).isSome :=
    fun n hn => hview.isSome n ▸ (hjoins.live n).2 hn
  -- names are given before the map is filled, but who is near does not change in between
  have htaken : name ∉ (tree.planted parent below name).takenNames tree.nodes.nextId := by
    intro hmem
    obtain ⟨other, old, hold, hname, hnear⟩ := of_mem_takenNames howner hplanted hmem
    refine hnew other old hold ?_ hname
    exact hview.symm.continues.near hjoins.hung hplanted (hlive _ (Or.inl rfl)) (hlive _ (Or.inr (Option.isSome_of_eq_some hold)))
      (by simp) (by simp) hnear
  have hfound : (tree.planted parent below name).node? tree.nodes.nextId = _ := node?_planted howner
  obtain ⟨above, habove⟩ := Option.isSome_iff_exists.1 (hlive parent (Or.inr hjoins.above))
  obtain ⟨node, hnode, hname, hlocal⟩ : ∃ node, (tree.included parent below name).node? tree.nodes.nextId =
      some node ∧ node.name = name ∧ node.localName = name := by
    rw [included_eq, resolveNames, hfound]
    dsimp only
    rw [habove]
    dsimp only
    rw [node?_modifyNode, if_pos rfl, hfound]
    exact ⟨_, rfl, freeName_eq_self htaken, rfl⟩
  obtain ⟨node', hnode', hframe⟩ := (frame_seeded ..).exists_after hnode
  obtain ⟨hcalled, hsame⟩ := calledAs_of_frame hframe
  exact ⟨node', hnode', hcalled.name.trans hname, hsame.trans hlocal⟩

end Attach

end IncludeTree

end PetriTree
