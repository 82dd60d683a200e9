import PetriTree.Proofs.Custody

/-!
# PetriTree — guards that look for users

A place that is used is neither withdrawn nor taken out with its node. Both guards look for users in the maps,
one by the key and the other by the home, while the users are places in nets. So a guard misses a place whose
node has no entry for it under the key, or has none at all. This is so after a rename in some nodes only, and
for a net that is attached with places it used elsewhere. Otherwise no user is missed.

Main results:
* `IncludeTree.Uses` — a place of a node stands for a home;
* `IncludeTree.Rooted.withdraw_uses`, `IncludeTree.Rooted.detach_uses` — which users are left by a guard;
* `IncludeTree.Arises.users_seen` — those whose node does not have them in its map, and in a tree that
  accounts for its users none.
-/

namespace PetriTree.IncludeTree

variable {tree after : IncludeTree} {id : NodeId} {away key : String} {home : HomeRef}

/-- Does a place of a node stand for a home? -/
def Uses (tree : IncludeTree) (id : NodeId) (key : String) (home : HomeRef) : Prop :=
  ∃ status ∈ tree.ledger.standing id key, status.merge = .inUse ∧ status.home = some home

instance (tree : IncludeTree) (id : NodeId) (key : String) (home : HomeRef) :
    Decidable (tree.Uses id key home) := inferInstanceAs (Decidable (∃ _ ∈ _, _))

/-- A user that is left after a place was withdrawn has no entry in use under the key. -/
theorem Rooted.withdraw_uses (h : tree.Rooted) {entry : InterfacePlace}
    (he : tree.ledger.entry id away = some entry) (hcommand : tree.withdraw id away = (after, .ok ()))
    {n : NodeId} (huses : after.Uses n key entry.home) :
    tree.Uses n key entry.home ∧ tree.usesKey n away = false := by
  rcases withdraw_cases tree id away with ⟨_, heq⟩ | ⟨node, found, released, hwithdraws, hrelease, heq⟩
  · rw [heq] at hcommand
    cases hcommand
  · rw [heq] at hcommand
    cases hcommand
    have hsame := (entry_eq hwithdraws.live away).trans hwithdraws.listed
    rw [he] at hsame
    cases hsame
    obtain ⟨_, _, hstands⟩ := ledger_release hwithdraws.live hrelease
    constructor
    -- the place that is withdrawn is no user, all others stand for what they stood for
    · obtain ⟨status, hstatus, hrest⟩ := huses
      rw [ledger_touch, Option.mem_def, hstands] at hstatus
      split at hstatus
      · cases hstatus
      · exact ⟨status, hstatus, hrest⟩
    -- the guard has looked under this key in every node
    · rw [Bool.eq_false_iff]
      intro hused
      obtain ⟨e, hlisted, huse⟩ := usesKey_iff.1 hused
      exact h.unused hwithdraws hlisted huse

/-- A user that is left after a subtree was taken out has no entry in use for what it uses there. -/
theorem Rooted.detach_uses (h : tree.Rooted) {parent : NodeId} {name : String} {net : Net}
    (hchild : ((tree.node? parent).bind fun node => node.children.get? name) = some id)
    (hcommand : tree.detach parent name = (after, .ok net)) (hhome : home.node ∈ tree.subtree id)
    {n : NodeId} (huses : after.Uses n key home) : tree.Uses n key home ∧
      ∀ k e, tree.ledger.entry n k = some e → e.state = .inUse → e.home ≠ home := by
  rcases detach_cases tree parent name with ⟨_, heq⟩ | ⟨node, child, hdetaches, heq⟩
  · rw [heq] at hcommand
    cases hcommand
  · rw [hcommand] at heq
    subst heq
    rw [hdetaches.live, Option.bind_some, hdetaches.child] at hchild
    cases hchild
    obtain ⟨status, hstatus, hrest⟩ := huses
    rw [ledger_touch, Option.mem_def, standing_prune] at hstatus
    split at hstatus
    · cases hstatus
    · rename_i hstays
      refine ⟨⟨status, hstatus, hrest⟩, fun k e he huse heq => ?_⟩
      exact h.not_mem_of_outsideUses hdetaches.unused hstays he huse (heq ▸ hhome)

/-- In a tree that accounts for its users, a user has an entry in use for its home. -/
theorem Covered.entry_of_uses (h : tree.Covered) (huses : tree.Uses id key home) :
    ∃ e, tree.ledger.entry id key = some e ∧ e.state = .inUse ∧ e.home = home := by
  obtain ⟨status, hstatus, huse, hhome⟩ := huses
  obtain ⟨e, he, hstate, hsame⟩ := h.entered hstatus huse
  exact ⟨e, he, hstate, Option.some.inj (hsame.symm.trans hhome)⟩

/-- Whatever a tree came from, the users that a guard misses are places that their nodes do not have in their
maps: not under the key of a place that is withdrawn, or not for the home that goes with its node. Where nets
are attached that borrow nothing, and no rename leaves out a node that knows of the place, no user is missed:
when a place was withdrawn nothing stands for it any more, and when a subtree was taken out nothing outside
stands for a place in it. -/
theorem Arises.users_seen (h : tree.Arises) :
    (∀ id away entry after, tree.ledger.entry id away = some entry →
      tree.withdraw id away = (after, .ok ()) → ∀ n key, after.Uses n key entry.home →
        tree.Uses n key entry.home ∧ tree.usesKey n away = false) ∧
    (∀ parent name id net after, ((tree.node? parent).bind fun node => node.children.get? name) = some id →
      tree.detach parent name = (after, .ok net) → ∀ n key home, home.node ∈ tree.subtree id →
        after.Uses n key home → tree.Uses n key home ∧
          ∀ k e, tree.ledger.entry n k = some e → e.state = .inUse → e.home ≠ home) ∧
    (tree.Accounted →
      (∀ id away entry after, tree.ledger.entry id away = some entry →
        tree.withdraw id away = (after, .ok ()) → ∀ n key, ¬ after.Uses n key entry.home) ∧
      ∀ parent name id net after, ((tree.node? parent).bind fun node => node.children.get? name) = some id →
        tree.detach parent name = (after, .ok net) → ∀ n key home, home.node ∈ tree.subtree id →
          ¬ after.Uses n key home) := by
  have hrooted := h.knit.toRooted
  refine ⟨fun id away entry after he hcommand n key => hrooted.withdraw_uses he hcommand,
    fun parent name id net after hchild hcommand n key home hhome => hrooted.detach_uses hchild hcommand hhome,
    fun haccounted => ⟨fun id away entry after he hcommand n key huses => ?_,
      fun parent name id net after hchild hcommand n key home hhome huses => ?_⟩⟩
  -- the entry of a user has the key of the home, and there the guard looks
  · obtain ⟨hbefore, hmissed⟩ := hrooted.withdraw_uses he hcommand huses
    obtain ⟨e, hlisted, huse, hsame⟩ := haccounted.covered.entry_of_uses hbefore
    have hkey := haccounted.covered.agree hlisted he hsame
    rw [usesKey_iff.2 ⟨e, hkey ▸ hlisted, huse⟩] at hmissed
    cases hmissed
  -- the entry of a user has the home itself, whatever its key
  · obtain ⟨hbefore, hmissed⟩ := hrooted.detach_uses hchild hcommand hhome huses
    obtain ⟨e, hlisted, huse, hsame⟩ := haccounted.covered.entry_of_uses hbefore
    exact hmissed key e hlisted huse hsame

/-- A net with a place that is a home already. -/
def lender : Net := Sample.netOf [.place (Sample.placeOf { PlaceStatus.plain with merge := .home } "P" 2)]

/-- A node takes a place of another one, which then gets another key everywhere. The root takes it under that
key, and both give it up again. -/
def told : IncludeTree :=
  (IncludeTree.new (Sample.netOf []) "root").performAll
    [.attach rootId lender "a", .attach rootId (Sample.netOf []) "b", .useInterface ⟨2⟩ "root.a.P",
      .execute ⟨2⟩ .all (.rename "root.a.P" "shared"), .useInterface rootId "shared",
      .dropInterface ⟨2⟩ "shared", .dropInterface rootId "shared"]

theorem independent_lender : lender.Independent := by
  have hplaces : ∀ e ∈ lender.places.entries, e.2.status.merge ≠ .inUse ∧ e.2.id = e.1 := by decide +kernel
  exact ⟨fun key place hplace => (hplaces _ (Table.get?_eq_some_iff.1 hplace)).1,
    fun key place hplace _ => (hplaces _ (Table.get?_eq_some_iff.1 hplace)).2⟩

theorem accounted_told : told.Accounted := by
  have htaken := (((Accounted.new "root" independent_nil).perform (.attach rootId lender "a")
    independent_lender).perform (.attach rootId (Sample.netOf []) "b") independent_nil).perform
      (.useInterface ⟨2⟩ "root.a.P") trivial
  have hrenamed := htaken.perform (.execute ⟨2⟩ .all (.rename "root.a.P" "shared"))
    (htaken.covered.rooted.whole_all ⟨2⟩ "root.a.P")
  exact ((hrenamed.perform (.useInterface rootId "shared") trivial).perform
    (.dropInterface ⟨2⟩ "shared") trivial).perform (.dropInterface rootId "shared") trivial

/-- Nothing stands for the place after it was withdrawn, or after its node was taken out. -/
theorem users_seen_told :
    (∃ after, told.withdraw ⟨1⟩ "shared" = (after, .ok ()) ∧ ∀ n key, ¬ after.Uses n key ⟨⟨1⟩, "P"⟩) ∧
    ∃ after net, told.detach rootId "a" = (after, .ok net) ∧ ∀ n key, ¬ after.Uses n key ⟨⟨1⟩, "P"⟩ := by
  have hwithdrawn : (told.withdraw ⟨1⟩ "shared").2.toOption = some () := by decide +kernel
  have hdetached : (told.detach rootId "a").2.toOption.isSome = true := by decide +kernel
  have hentry : told.ledger.entry ⟨1⟩ "shared" = some ⟨"shared", ⟨⟨1⟩, "P"⟩, .home⟩ := by decide +kernel
  have hchild : ((told.node? rootId).bind fun node => node.children.get? "a") = some ⟨1⟩ := by
    decide +kernel
  have hinside : (⟨1⟩ : NodeId) ∈ told.subtree ⟨1⟩ := by decide +kernel
  obtain ⟨net, hnet⟩ := Option.isSome_iff_exists.1 hdetached
  have hsecond : told.withdraw ⟨1⟩ "shared" = ((told.withdraw ⟨1⟩ "shared").1, .ok ()) :=
    Prod.ext rfl (toOption_eq_some.1 hwithdrawn)
  have hanswer : told.detach rootId "a" = ((told.detach rootId "a").1, .ok net) :=
    Prod.ext rfl (toOption_eq_some.1 hnet)
  obtain ⟨_, _, hnone⟩ := Arises.users_seen accounted_told.arises
  obtain ⟨hwithdraws, hdetaches⟩ := hnone accounted_told
  exact ⟨⟨_, hsecond, hwithdraws ⟨1⟩ "shared" _ _ hentry hsecond⟩,
    _, net, hanswer, fun n key => hdetaches rootId "a" ⟨1⟩ net _ hchild hanswer n key ⟨⟨1⟩, "P"⟩ hinside⟩

/-- The node renames what it uses, in its own map only. -/
def nicknamed : IncludeTree := lent.performAll [.execute rootId .node (.rename "root.a.P" "mine")]

/-- A node uses a place, is taken out, and its net is attached again. -/
def returned : IncludeTree :=
  let tree := (Sample.pair [] [Sample.place "P" 2] "a").performAll
    [.attach rootId (Sample.netOf []) "b", .publish ⟨1⟩ "P", .useInterface ⟨2⟩ "root.a.P"]
  match tree.detach rootId "b" with
  | (tree, .ok net) => (tree.perform (.attach rootId net "b")).1
  | (tree, .error _) => tree

/-- A home that is filed under another key than its id is registered for the place that has this key, which
is published under another name later on. -/
def entitled : IncludeTree :=
  let net := { Net.new "sample" with
    places := (Table.empty.insert "P" (Sample.placeOf { PlaceStatus.plain with merge := .home } "Q" 2)).insert
      "Q" (Sample.placeOf PlaceStatus.plain "R" 0) }
  (IncludeTree.new (Sample.netOf []) "root").performAll
    [.attach rootId net "a", .useInterface rootId "root.a.Q", .rename ⟨1⟩ "b", .publish ⟨1⟩ "Q"]

theorem users_missed :
    (∃ after, nicknamed.withdraw ⟨1⟩ "root.a.P" = (after, .ok ()) ∧ after.Uses rootId "mine" ⟨⟨1⟩, "P"⟩) ∧
    (∃ after, returned.withdraw ⟨1⟩ "root.a.P" = (after, .ok ()) ∧
      after.Uses ⟨3⟩ "root.a.P" ⟨⟨1⟩, "P"⟩) ∧
    (∃ after net, returned.detach rootId "a" = (after, .ok net) ∧
      after.Uses ⟨3⟩ "root.a.P" ⟨⟨1⟩, "P"⟩) ∧
    ∃ after, entitled.withdraw ⟨1⟩ "root.b.Q" = (after, .ok ()) ∧
      after.Uses rootId "root.a.Q" ⟨⟨1⟩, "Q"⟩ := by
  have hnicknamed : (nicknamed.withdraw ⟨1⟩ "root.a.P").2.toOption = some () ∧
      (nicknamed.withdraw ⟨1⟩ "root.a.P").1.Uses rootId "mine" ⟨⟨1⟩, "P"⟩ := by decide +kernel
  have hreturned : (returned.withdraw ⟨1⟩ "root.a.P").2.toOption = some () ∧
      (returned.withdraw ⟨1⟩ "root.a.P").1.Uses ⟨3⟩ "root.a.P" ⟨⟨1⟩, "P"⟩ := by decide +kernel
  have hdetached : (returned.detach rootId "a").2.toOption.isSome = true ∧
      (returned.detach rootId "a").1.Uses ⟨3⟩ "root.a.P" ⟨⟨1⟩, "P"⟩ := by decide +kernel
  have hentitled : (entitled.withdraw ⟨1⟩ "root.b.Q").2.toOption = some () ∧
      (entitled.withdraw ⟨1⟩ "root.b.Q").1.Uses rootId "root.a.Q" ⟨⟨1⟩, "Q"⟩ := by decide +kernel
  obtain ⟨net, hnet⟩ := Option.isSome_iff_exists.1 hdetached.1
  exact ⟨⟨_, Prod.ext rfl (toOption_eq_some.1 hnicknamed.1), hnicknamed.2⟩,
    ⟨_, Prod.ext rfl (toOption_eq_some.1 hreturned.1), hreturned.2⟩,
    ⟨_, net, Prod.ext rfl (toOption_eq_some.1 hnet), hdetached.2⟩,
    _, Prod.ext rfl (toOption_eq_some.1 hentitled.1), hentitled.2⟩

end PetriTree.IncludeTree
