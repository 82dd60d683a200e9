import PetriTree.Proofs.Guards
import PetriTree.Proofs.Traversal

/-!
# PetriTree — homes that are attached

A net is attached with places that are marked as home, and each is to be published: its node knows it as home,
and it is available in every other node that the access scope reaches. A place whose away id is taken there is
passed over.

But the new node is offered first what other nodes have as their home, and then a place is passed over as well
if the node was offered one of the same name. The name is all that is compared, and not the node that has the
place. So a net that is attached twice publishes its homes only once. The second time they are in no map, and
they cannot be published later either, since they are marked as home already.

Main results:
* `IncludeTree.Published` — what every map in the scope has to say about a home;
* `IncludeTree.Names` — a node was offered a place of the same name;
* `published_registerHomes`, `absent_registerHomes` — which places are registered, and what is left of the
  others;
* `Arises.homes_published` — what becomes of the homes of a net that is attached;
* `homes_unpublished` — a net that is attached twice.
-/

namespace PetriTree.IncludeTree

variable {tree after : IncludeTree} {id : NodeId} {owner : TreeNode} {place : Place}

/-- A home is known as such in its own node and is available in all others that it reaches. -/
structure Published (tree : IncludeTree) (home : HomeRef) (key : String) : Prop where
  own : tree.ledger.entry home.node key = some ⟨key, home, .home⟩
  others : ∀ n ∈ tree.reach home.node, n ≠ home.node →
    tree.ledger.entry n key = some ⟨key, home, .available⟩

/-- The map of a node has a place of this name, whichever node is its home. -/
def Names (tree : IncludeTree) (id : NodeId) (place : String) : Prop :=
  ∃ node ∈ tree.node? id, ∃ e ∈ node.interface.values, e.home.place = place

theorem reach_touch (tree : IncludeTree) (id : NodeId) : tree.touch.reach id = tree.reach id :=
  (remaps_touch tree).scopeNodes id tree.accessScope

theorem Published.touch {home : HomeRef} {key : String} (h : tree.Published home key) :
    tree.touch.Published home key where
  own := h.own
  others n hn := h.others n (reach_touch tree home.node ▸ hn)

instance (tree : IncludeTree) (id : NodeId) (place : String) : Decidable (tree.Names id place) :=
  inferInstanceAs (Decidable (∃ _ ∈ _, _))

/-! ## Registering -/

/-- A home of the net is registered unless the map has a place of its name. -/
theorem mem_unregisteredHomes (howner : tree.node? id = some owner) (hplace : place ∈ owner.net.places.values)
    (hhome : place.status.merge = .home) : place.id ∈ unregisteredHomes owner ↔ ¬tree.Names id place.id := by
  have hnames : tree.Names id place.id ↔ ∃ e ∈ owner.interface.values, e.home.place = place.id := by
    simp [Names, howner]
  rw [hnames, unregisteredHomes, List.mem_map]
  constructor
  · rintro ⟨found, hfound, hid⟩ ⟨e, he, hsame⟩
    have hnone := (List.mem_filter.1 hfound).2
    simp only [Bool.and_eq_true, List.all_eq_true, bne_iff_ne] at hnone
    exact hnone.2 e he (hsame.trans hid.symm)
  · intro hnone
    refine ⟨place, List.mem_filter.2 ⟨hplace, ?_⟩, rfl⟩
    simp only [Bool.and_eq_true, beq_iff_eq, List.all_eq_true, bne_iff_ne]
    exact ⟨hhome, fun e he hsame => hnone ⟨e, he, hsame⟩⟩

section Register

variable (howner : tree.node? id = some owner) (hplace : place ∈ owner.net.places.values)
  (hhome : place.status.merge = .home)
  (hvacant : tree.Vacant (awayId owner place.id) (tree.reach id))

include howner hplace hhome hvacant

theorem published_registerHomes (hlive : ∀ n ∈ tree.reach id, (tree.node? n).isSome)
    (hnames : ¬tree.Names id place.id) :
    (tree.registerHomes id).Published ⟨id, place.id⟩ (awayId owner place.id) := by
  have hposts := posts_registerHomes howner
  have hmem := (mem_unregisteredHomes howner hplace hhome).2 hnames
  have hposted := fun n hn => hposts.posted place.id hmem hvacant n hn (hlive n hn)
  have hself : id ∈ tree.reach id := mem_scopeNodes_self howner tree.accessScope
  constructor
  · rw [hposted id hself, homeEntry, if_pos rfl]
  · intro n hn hne
    rw [hposts.reach_eq] at hn
    rw [hposted n hn, homeEntry, if_neg hne]

/-- No other home of the net has the key, so that it stays free. -/
theorem absent_registerHomes (hnames : tree.Names id place.id) :
    ∀ n ∈ tree.reach id, (tree.registerHomes id).ledger.entry n (awayId owner place.id) = none := by
  intro n hn
  have hnot : ∀ other ∈ unregisteredHomes owner, awayId owner place.id ≠ awayId owner other := by
    intro other hother hkey
    rw [← awayId_injective owner hkey] at hother
    exact (mem_unregisteredHomes howner hplace hhome).1 hother hnames
  rw [(posts_registerHomes howner).kept n _ fun other hother hkey _ => hnot other hother hkey]
  exact vacant_iff.1 hvacant n hn

end Register

/-! ## Attaching -/

/-- The homes of a net are registered after its node was offered those of others. -/
theorem exists_seeded_of_attach {parent : NodeId} {net : Net} {name : String}
    (hcommand : tree.attach parent net name = .ok (id, after)) :
    ∃ owner, tree.node? parent = some owner ∧ id = tree.nodes.nextId ∧
      after = ((tree.seeded parent net name).registerHomes tree.nodes.nextId).touch := by
  obtain ⟨owner, howner, _, _, rfl, rfl⟩ := attach_eq_ok hcommand
  exact ⟨owner, howner, rfl, rfl⟩

/-- What a new node is offered are places that other nodes have as their home. -/
theorem exists_home_of_names {parent : NodeId} {net : Net} {name p : String}
    (howner : tree.node? parent = some owner)
    (hnames : (tree.seeded parent net name).Names tree.nodes.nextId p) :
    ∃ home key e, tree.ledger.entry home key = some e ∧ e.state = .home ∧ e.home.place = p := by
  obtain ⟨node, hnode, e, he, hsame⟩ := hnames
  obtain ⟨key, hkey⟩ := Table.mem_values_iff.1 he
  obtain ⟨home, k, e₀, hlisted, hstate, _, rfl⟩ := entry_seeded_nextId howner ((entry_eq hnode key).trans hkey)
  exact ⟨home, k, e₀, hlisted, hstate, hsame⟩

/-- Attaching gives the new node its names and what is offered to it, and then registers its homes. A home
whose key no map in the scope has by then is published if the node was not offered a place of the same name.
If it was, the home is in no map of the scope. Where no home of the tree has this name, the place is
published. -/
theorem Arises.homes_published (h : tree.Arises) {parent : NodeId} {net : Net} {name : String}
    (hcommand : tree.attach parent net name = .ok (id, after)) (hplace : place ∈ net.places.values)
    (hhome : place.status.merge = .home) :
    ∃ node, after.node? id = some node ∧
      ((tree.seeded parent net name).Vacant (awayId node place.id) (after.reach id) →
        (after.Published ⟨id, place.id⟩ (awayId node place.id) ↔
            ¬(tree.seeded parent net name).Names id place.id) ∧
          ((tree.seeded parent net name).Names id place.id → ∀ n ∈ after.reach id,
            after.ledger.entry n (awayId node place.id) = none) ∧
          ((∀ home key e, tree.ledger.entry home key = some e → e.state = .home → e.home.place ≠ place.id) →
            after.Published ⟨id, place.id⟩ (awayId node place.id))) := by
  have hhung : after.Hung := by
    have harises := h.perform (.attach parent net name)
    rw [IncludeTree.perform, hcommand] at harises
    exact harises.hung
  obtain ⟨owner, howner, rfl, rfl⟩ := exists_seeded_of_attach hcommand
  obtain ⟨seed, hseed, rfl⟩ : ∃ seed, (tree.seeded parent net name).node? tree.nodes.nextId = some seed ∧
      seed.net = net := exists_seeded howner
  set seeded := tree.seeded parent seed.net name
  set new := tree.nodes.nextId
  have hposts := posts_registerHomes hseed
  obtain ⟨node, hnode⟩ := Option.isSome_iff_exists.1
    ((hposts.remaps.shape.isSome new).trans (by rw [hseed]; rfl))
  have haway := hposts.remaps.awayId_eq hseed hnode
  have hreach := (reach_touch (seeded.registerHomes new) new).trans hposts.reach_eq
  have hlive : ∀ n ∈ seeded.reach new, (seeded.node? n).isSome := fun n hn => by
    rw [← hposts.remaps.shape.isSome]
    exact hhung.live_of_mem_scopeNodes (hreach ▸ hn)
  refine ⟨node, hnode, fun hvacant => ?_⟩
  rw [haway, hreach] at hvacant ⊢
  have hpublished : ¬seeded.Names new place.id →
      (seeded.registerHomes new).touch.Published ⟨new, place.id⟩ (awayId seed place.id) := fun hnames =>
    (published_registerHomes hseed hplace hhome hvacant hlive hnames).touch
  have habsent := absent_registerHomes hseed hplace hhome hvacant
  refine ⟨⟨fun hdone hnames => ?_, hpublished⟩, habsent, fun hfresh => hpublished fun hnames => ?_⟩
  · have hself : new ∈ seeded.reach new := mem_scopeNodes_self hseed seeded.accessScope
    have hown := hdone.own
    rw [ledger_touch, habsent hnames new hself] at hown
    cases hown
  · obtain ⟨home, key, e, hlisted, hstate, hsame⟩ := exists_home_of_names howner hnames
    exact hfresh home key e hlisted hstate hsame

/-! ## Attached once, and twice -/

/-- The tree that a net leaves when it is attached. -/
theorem attach_eq_perform {parent : NodeId} {net : Net} {name : String}
    (h : (tree.attach parent net name).toOption.map Prod.fst = some id) :
    tree.attach parent net name = .ok (id, (tree.perform (.attach parent net name)).1) := by
  rw [IncludeTree.perform]
  cases hattach : tree.attach parent net name with
  | error report =>
    rw [hattach] at h
    cases h
  | ok answer =>
    rw [hattach] at h
    cases h
    rfl

/-- The root includes a net with a home. -/
def lending : IncludeTree := ((IncludeTree.new (Sample.netOf []) "root").perform (.attach rootId lender "a")).1

theorem arises_lending : lending.Arises := (Arises.new (Sample.netOf []) "root").perform (.attach rootId lender "a")

/-- A net with a home of another name. -/
def otherLender : Net := Sample.netOf [.place (Sample.placeOf { PlaceStatus.plain with merge := .home } "Q" 1)]

/-- A home is published next to one of another name. -/
theorem homes_published_lending : lending.ledger.entry ⟨1⟩ "root.a.P" = some ⟨"root.a.P", ⟨⟨1⟩, "P"⟩, .home⟩ ∧
    ∃ after, lending.attach rootId otherLender "b" = .ok (⟨2⟩, after) ∧
      after.Published ⟨⟨2⟩, "Q"⟩ "root.b.Q" := by
  have hlisted : lending.ledger.entry ⟨1⟩ "root.a.P" = some ⟨"root.a.P", ⟨⟨1⟩, "P"⟩, .home⟩ := by decide +kernel
  have hanswer : (lending.attach rootId otherLender "b").toOption.map Prod.fst = some ⟨2⟩ := by decide +kernel
  obtain ⟨place, hplace, hid, hhome⟩ : ∃ place ∈ otherLender.places.values,
      place.id = "Q" ∧ place.status.merge = .home := by decide +kernel
  have hcommand := attach_eq_perform hanswer
  obtain ⟨node, hnode, hbecomes⟩ := Arises.homes_published arises_lending hcommand hplace hhome
  rw [hid] at hbecomes
  set after := (lending.perform (.attach rootId otherLender "b")).1
  have haway : (after.node? ⟨2⟩).map (fun node => awayId node "Q") = some "root.b.Q" := by decide +kernel
  have hreach : after.reach ⟨2⟩ = [⟨2⟩, rootId, ⟨1⟩] := by decide +kernel
  rw [hnode, Option.map_some, Option.some.injEq] at haway
  rw [haway, hreach] at hbecomes
  have hvacant : ∀ n ∈ [⟨2⟩, rootId, ⟨1⟩],
      (lending.seeded rootId otherLender "b").ledger.entry n "root.b.Q" = none := by decide +kernel
  have hnames : ¬(lending.seeded rootId otherLender "b").Names lending.nodes.nextId "Q" := by decide +kernel
  exact ⟨hlisted, after, hcommand, (hbecomes (vacant_iff.2 hvacant)).1.2 hnames⟩

/-- The tree with the same net included once more, under another alias. -/
def lendingTwice : IncludeTree := (lending.perform (.attach rootId lender "b")).1

/-- The net is attached a second time. No map has the away id of its home, neither the one of the new node as it
is offered the first home, nor any other that the new home reaches. Yet the home is entered nowhere, and it
cannot be published later, as its place is marked already. -/
theorem homes_unpublished :
    lending.Arises ∧ lending.attach rootId lender "b" = .ok (⟨2⟩, lendingTwice) ∧
    (∃ place ∈ lender.places.values, place.id = "P" ∧ place.status.merge = .home) ∧
    (lendingTwice.node? ⟨2⟩).map (fun node => awayId node "P") = some "root.b.P" ∧
    lendingTwice.reach ⟨2⟩ = [⟨2⟩, rootId, ⟨1⟩] ∧
    (lending.seeded rootId lender "b").Vacant "root.b.P" (lendingTwice.reach ⟨2⟩) ∧
    ¬lendingTwice.Published ⟨⟨2⟩, "P"⟩ "root.b.P" ∧
    (∀ n ∈ lendingTwice.reach ⟨2⟩, lendingTwice.ledger.entry n "root.b.P" = none) ∧
    (lendingTwice.publish ⟨2⟩ "P").2 = .error ⟨[.alreadyInterface "P"]⟩ := by
  have hanswer : (lending.attach rootId lender "b").toOption.map Prod.fst = some ⟨2⟩ := by decide +kernel
  have hreach : lendingTwice.reach ⟨2⟩ = [⟨2⟩, rootId, ⟨1⟩] := by decide +kernel
  have hvacant : ∀ n ∈ [⟨2⟩, rootId, ⟨1⟩],
      (lending.seeded rootId lender "b").ledger.entry n "root.b.P" = none := by decide +kernel
  have habsent : ∀ n ∈ [⟨2⟩, rootId, ⟨1⟩], lendingTwice.ledger.entry n "root.b.P" = none := by decide +kernel
  refine ⟨arises_lending, attach_eq_perform hanswer, by decide +kernel, by decide +kernel, hreach, ?_, ?_, ?_, ?_⟩
  · rw [hreach]
    exact vacant_iff.2 hvacant
  · intro hpublished
    have hown := hpublished.own
    rw [habsent ⟨2⟩ (by simp)] at hown
    cases hown
  · rw [hreach]
    exact habsent
  · decide +kernel

end PetriTree.IncludeTree
