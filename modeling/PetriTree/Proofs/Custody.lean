import PetriTree.Proofs.Knit

/-!
# PetriTree — books that leave out homes

A net may be attached with places that are marked as home already. They are registered one by one, and one
whose key is taken in some map is passed over. From then on the books of the whole tree do not balance, but
those of a tree without such homes do, and these are all that a guard needs: a place that stands for a home
has an entry in use, and the entries of one home have one key.

A command that gives entries another key keeps this when it is whole: when it reaches every node that knows
of the home.

Main results:
* `IncludeTree.Covered` — the tree has sound books, up to homes that nobody was told of;
* `Covered.publish` … `Covered.execute` — the commands that keep it so;
* `Covered.registerHomes` — registering the homes of a net that has just been attached;
* `IncludeTree.Accounted`, `Accounted.covered` — the trees that come about in this way.
-/

namespace PetriTree

/-! ## What is left out -/

/-- What some places record is left out. None of them is in use. -/
def Ledger.Omits (part full : NodeId → String → Option PlaceStatus) : Prop :=
  ∀ id place, part id place = full id place ∨
    part id place = none ∧ ∀ status, full id place = some status → status.merge ≠ .inUse

namespace Ledger.Omits

variable {part full full' : NodeId → String → Option PlaceStatus}

theorem refl (full : NodeId → String → Option PlaceStatus) : Omits full full := fun _ _ => Or.inl rfl

theorem eq_none (h : Omits part full) {id : NodeId} {place : String} (hfull : full id place = none) :
    part id place = none := by
  rcases h id place with heq | ⟨hnone, _⟩
  · rw [heq, hfull]
  · exact hnone

/-- A place in use is never left out. -/
theorem eq_some (h : Omits part full) {id : NodeId} {place : String} {status : PlaceStatus}
    (hfull : full id place = some status) (huse : status.merge = .inUse) : part id place = some status := by
  rcases h id place with heq | ⟨_, hunused⟩
  · rw [heq, hfull]
  · exact absurd huse (hunused status hfull)

/-- Both records change at the same places, and are the same there after it. -/
theorem overlay (h : Omits part full) (concerned : NodeId → String → Prop)
    [∀ n k, Decidable (concerned n k)] {status : Option PlaceStatus}
    (hfull : ∀ n k, full' n k = if concerned n k then status else full n k) :
    Omits (fun n k => if concerned n k then status else part n k) full' := by
  intro n k
  dsimp only
  rw [hfull]
  split
  · exact Or.inl rfl
  · exact h n k

end Ledger.Omits

namespace IncludeTree

variable {tree after : IncludeTree}

/-- A rooted tree whose books are sound when some places that are not in use are left out. -/
structure Covered (tree : IncludeTree) : Prop where
  rooted : tree.Rooted
  books : ∃ standing, Ledger.Sound ⟨tree.ledger.entry, standing⟩ ∧ Ledger.Omits standing tree.ledger.standing

theorem Registry.covered (h : tree.Registry) : tree.Covered := ⟨h.rooted, _, h.sound, .refl _⟩

namespace Covered

/-- A place that stands for a home has an entry in use. -/
theorem entered (h : tree.Covered) {id : NodeId} {key : String} {status : PlaceStatus}
    (hstands : tree.ledger.standing id key = some status) (huse : status.merge = .inUse) :
    ∃ e, tree.ledger.entry id key = some e ∧ e.state = .inUse ∧ status.home = some e.home := by
  obtain ⟨standing, hsound, homits⟩ := h.books
  exact hsound.entered id key status (homits.eq_some hstands huse) huse

/-- The entries of one home have one key. -/
theorem agree (h : tree.Covered) {id id' : NodeId} {key key' : String} {e e' : InterfacePlace}
    (he : tree.ledger.entry id key = some e) (he' : tree.ledger.entry id' key' = some e')
    (hsame : e.home = e'.home) : key = key' := by
  obtain ⟨standing, hsound, _⟩ := h.books
  exact hsound.agree id key e id' key' e' he he' hsame

theorem touch (h : tree.Covered) : tree.touch.Covered := ⟨(sameShape_touch tree).rooted h.rooted, h.books⟩

theorem withAccessScope (h : tree.Covered) (scope : Scope) : (tree.withAccessScope scope).Covered :=
  ⟨⟨h.rooted.younger, h.rooted.held⟩, h.books⟩

/-- The same is recorded. -/
theorem of_ledger_eq (h : tree.Covered) (hshape : tree.SameShape after) (hledger : after.ledger = tree.ledger) :
    after.Covered := by
  refine ⟨hshape.rooted h.rooted, ?_⟩
  rw [hledger]
  exact h.books

/-! ## Commands on interface places -/

theorem publish (h : tree.Covered) (id : NodeId) (place : String) : (tree.publish id place).1.Covered := by
  have hshape := sameShape_publish tree id place
  rcases publish_cases tree id place with ⟨_, heq⟩ | ⟨owner, found, net, hpublishes, heq⟩
  · rw [heq]
    exact h
  · rw [heq] at hshape ⊢
    obtain ⟨standing, hsound, homits⟩ := h.books
    obtain ⟨hplain, hentry, hstands⟩ := hpublishes.ledger
    refine ⟨hshape.rooted h.rooted, _, ?_, homits.overlay (fun n k => n = id ∧ k = place) hstands⟩
    exact hsound.publish (fun n => n ∈ tree.scopeNodes id tree.accessScope ∧ (tree.node? n).isSome)
      ⟨mem_scopeNodes_self hpublishes.live _, by rw [hpublishes.live]; rfl⟩ (homits.eq_none hplain)
      (fun n hreached => vacant_iff.1 hpublishes.vacant n hreached.1) rfl hentry fun _ _ => rfl

theorem useInterface (h : tree.Covered) {id : NodeId} {away answer : String}
    (hcommand : tree.useInterface id away = .ok (answer, after)) : after.Covered := by
  have hshape := sameShape_useInterface hcommand
  rcases useInterface_eq_ok hcommand with rfl | ⟨consumer, entry, net, htakes, rfl⟩
  · exact h
  · obtain ⟨standing, hsound, homits⟩ := h.books
    have hnode := htakes.live
    have hfound : tree.ledger.entry id away = some entry := by rw [entry_eq hnode, htakes.listed]
    obtain ⟨_, _, hadd⟩ := htakes.edited
    refine ⟨hshape.rooted h.rooted, _, ?_, homits.overlay (fun n k => n = id ∧ k = away)
      (standing_modifyNode_at hnode (Net.standing?_addPlace hadd))⟩
    exact hsound.take hfound htakes.available (homits.eq_none htakes.standing_eq_none) rfl rfl
      (entry_modifyNode_mark hnode htakes.listed net _) fun _ _ => rfl

theorem dropInterface (h : tree.Covered) {id : NodeId} {away : String}
    (hcommand : tree.dropInterface id away = .ok after) : after.Covered := by
  have hshape := sameShape_dropInterface hcommand
  obtain ⟨standing, hsound, homits⟩ := h.books
  obtain ⟨owner, entry, hdrops, hcase⟩ := dropInterface_eq_ok hcommand
  have hnode := hdrops.live
  have hfound : tree.ledger.entry id away = some entry := by rw [entry_eq hnode, hdrops.listed]
  rcases hcase with ⟨huse, place, net, hremove, rfl⟩ | ⟨havailable, rfl⟩
  · refine ⟨hshape.rooted h.rooted, _, ?_, homits.overlay (fun n k => n = id ∧ k = away)
      (standing_modifyNode_at hnode (Net.standing?_removePlace hremove))⟩
    exact hsound.giveUp hfound huse (entry_modifyNode_mark hnode hdrops.listed net _) fun _ _ => rfl
  · have hstands := (remaps_modifyNode tree id fun node => node.interface.erase away).standing
    refine ⟨hshape.rooted h.rooted, standing, ?_, ?_⟩
    · exact hsound.decline hfound havailable (entry_modifyNode_erase hnode) fun _ _ => rfl
    · rw [ledger_touch, funext₂ hstands]
      exact homits

theorem withdraw (h : tree.Covered) (id : NodeId) (away : String) : (tree.withdraw id away).1.Covered := by
  rcases withdraw_cases tree id away with ⟨_, heq⟩ | ⟨node, e, released, hwithdraws, hrelease, heq⟩
  · rw [heq]
    exact h
  · rw [heq]
    obtain ⟨standing, hsound, homits⟩ := h.books
    have he : tree.ledger.entry id away = some e := by rw [entry_eq hwithdraws.live, hwithdraws.listed]
    obtain ⟨hshape, hentry, hstands⟩ := ledger_release hwithdraws.live hrelease
    refine touch ⟨hshape.rooted h.rooted, _, ?_, homits.overlay (fun n k => n = id ∧ k = e.home.place) hstands⟩
    exact hsound.withdraw he hwithdraws.home (fun n e' => h.rooted.unused hwithdraws) hentry fun _ _ => rfl

/-! ## Commands on nodes -/

theorem detach (h : tree.Covered) (parent : NodeId) (name : String) :
    (tree.detach parent name).1.Covered := by
  rcases detach_cases tree parent name with ⟨_, heq⟩ | ⟨node, id, hdetaches, heq⟩
  · rw [heq]
    exact h
  · rw [heq]
    obtain ⟨standing, hsound, homits⟩ := h.books
    refine touch ⟨h.rooted.prune hdetaches.live hdetaches.child, _, ?_,
      homits.overlay (fun n _ => n ∈ tree.subtree id) fun n k => standing_prune ..⟩
    exact hsound.cut (fun n k e hn he huse => h.rooted.not_mem_of_outsideUses hdetaches.unused hn he huse)
      (fun n k => entry_prune ..) fun _ _ => rfl

theorem rename (h : tree.Covered) {id : NodeId} {name : String} (hcommand : tree.rename id name = .ok after) :
    after.Covered :=
  h.of_ledger_eq (relabels_rename hcommand).shape (relabels_rename hcommand).ledger_eq

/-- A net is edited, and its interface places are spared. -/
theorem edit (h : tree.Covered) {id : NodeId} {net after : Net} {edit : NetEdit} {removed : Option Component}
    (hnet : tree.net? id = some net) (hspares : edit.Spares net)
    (hedit : net.perform edit = .ok (removed, after)) : (tree.setNet id after).Covered :=
  h.of_ledger_eq (sameShape_setNet tree id after) (ledger_edit hnet hspares hedit)

end Covered

/-! ## Attaching -/

/-- Some homes of a node were registered, each under its own key, and the others are left out. -/
structure Registering (start : IncludeTree) (id : NodeId) (owner : TreeNode) (tree : IncludeTree) : Prop where
  remaps : start.Remaps tree
  books : ∃ standing, Ledger.Sound ⟨tree.ledger.entry, standing⟩ ∧
    Ledger.Omits standing tree.ledger.standing ∧
    ∀ place, (standing id place).isSome → (tree.ledger.entry id (awayId owner place)).isSome

/-- One more home is registered or passed over. -/
theorem Registering.register {start : IncludeTree} {id : NodeId} {owner : TreeNode}
    (h : Registering start id owner tree) (howner : start.node? id = some owner) {place : String}
    {status : PlaceStatus} (hstands : start.ledger.standing id place = some status)
    (hmerge : status.merge = .home) : Registering start id owner (tree.tryRegister id place) := by
  rcases tryRegister_cases tree id place with ⟨owner', howner', hvacant, heq⟩ | ⟨_, heq⟩ <;> rw [heq]
  · have hremaps := remaps_announced tree (awayId owner' place) ⟨id, place⟩
    have haway := h.remaps.awayId_eq howner howner'
    obtain ⟨standing, hsound, homits, hlisted⟩ := h.books
    have hself := mem_scopeNodes_self howner' tree.accessScope
    have hfree := vacant_iff.1 hvacant
    -- a place that was registered has the key already
    have hplain : standing id place = none := by
      by_contra hsome
      have hthere := hlisted place (Option.isSome_iff_ne_none.2 hsome)
      rw [← haway, hfree id hself] at hthere
      cases hthere
    refine ⟨h.remaps.trans hremaps, fun n k => if n = id ∧ k = place then some status else standing n k,
      ?_, fun n k => ?_, fun p hp => ?_⟩
    · exact hsound.publish (fun n => n ∈ tree.scopeNodes id tree.accessScope ∧ (tree.node? n).isSome)
        ⟨hself, by rw [howner']; rfl⟩ hplain (fun n hreached => hfree n hreached.1) hmerge
        (entry_announced tree _ ⟨id, place⟩) fun _ _ => rfl
    · dsimp only
      rw [hremaps.standing]
      split
      · rename_i hat
        rw [hat.1, hat.2, h.remaps.standing, hstands]
        exact Or.inl rfl
      · exact homits n k
    -- what is recorded has an entry still, the home that is new too
    · rw [entry_announced]
      split
      · rfl
      · rename_i hother
        dsimp only at hp
        split at hp
        · rename_i hat
          rw [hat.2, haway] at hother
          exact absurd ⟨⟨hself, by rw [howner']; rfl⟩, rfl⟩ hother
        · exact hlisted p hp
  · exact h

namespace Covered

/-- The homes that a node files under their ids are registered or passed over. -/
theorem registerHomes {id : NodeId} {owner : TreeNode} {standing : NodeId → String → Option PlaceStatus}
    (hrooted : tree.Rooted) (howner : tree.node? id = some owner) (hfiled : owner.net.HomesFiled)
    (hsound : Ledger.Sound ⟨tree.ledger.entry, standing⟩) (homits : Ledger.Omits standing tree.ledger.standing)
    (hnone : ∀ place, standing id place = none) : (tree.registerHomes id).Covered := by
  have hstart : Registering tree id owner tree :=
    ⟨.refl tree, standing, hsound, homits, fun place hplace => by rw [hnone] at hplace; cases hplace⟩
  suffices h : Registering tree id owner (tree.registerHomes id) by
    obtain ⟨standing', hsound', homits', _⟩ := h.books
    exact ⟨h.remaps.shape.rooted hrooted, standing', hsound', homits'⟩
  have hhomes : ∀ place ∈ unregisteredHomes owner, ∃ status,
      tree.ledger.standing id place = some status ∧ status.merge = .home := by
    intro place hplace
    obtain ⟨found, hfound, rfl⟩ := List.mem_map.1 hplace
    obtain ⟨hvalue, hmarked⟩ := List.mem_filter.1 hfound
    obtain ⟨key, hkey⟩ := Table.mem_values_iff.1 hvalue
    simp only [Bool.and_eq_true, beq_iff_eq] at hmarked
    refine ⟨found.status, ?_, hmarked.1⟩
    rw [standing_eq howner, Net.standing?_eq_some, hfiled key found hkey hmarked.1]
    exact ⟨found, hkey, rfl, by simp [PlaceStatus.isInterface, hmarked.1]⟩
  refine registerHomes_induction hstart fun owner' howner' place hplace now hnow => ?_
  rw [howner] at howner'
  cases howner'
  obtain ⟨status, hstands, hmerge⟩ := hhomes place hplace
  exact hnow.register howner hstands hmerge

/-- A net that borrows nothing is attached. What it marks as home is left out until it is registered. -/
theorem attach (h : tree.Covered) {parent id : NodeId} {net : Net} {name : String} (hnet : net.Independent)
    (hcommand : tree.attach parent net name = .ok (id, after)) : after.Covered := by
  obtain ⟨owner, howner, _, hfree, rfl, rfl⟩ := attach_eq_ok hcommand
  obtain ⟨standing, hsound, homits⟩ := h.books
  -- of the new node nothing is recorded
  have hnone : ∀ place, standing tree.nodes.nextId place = none := fun place =>
    homits.eq_none (standing_nextId tree place)
  have hoffered : Ledger.Sound ⟨(tree.seeded parent net name).ledger.entry, standing⟩ := by
    refine hsound.offer (entry_nextId tree) (fun n k hn => entry_seeded howner hn k) (fun _ _ => rfl) hnone
      fun k e he => ?_
    obtain ⟨home, k₀, e₀, he₀, hstate, hkey, rfl⟩ := entry_seeded_nextId howner he
    have hfiled : k₀ = k := (hsound.keyed home k₀ e₀ he₀).symm.trans hkey
    exact ⟨hkey, rfl, home, e₀, hfiled ▸ he₀, hstate, rfl⟩
  have homitted : Ledger.Omits standing (tree.seeded parent net name).ledger.standing := by
    intro n k
    rw [standing_seeded howner]
    split
    · rename_i hn
      rw [hn]
      refine Or.inr ⟨hnone k, fun status hstatus => ?_⟩
      obtain ⟨found, hfound, rfl, _⟩ := Net.standing?_eq_some.1 hstatus
      exact hnet.unborrowed k found hfound
    · exact homits n k
  obtain ⟨node, hnode, hsame⟩ := exists_seeded howner
  refine touch (registerHomes (h.rooted.seeded howner hfree) hnode ?_ hoffered homitted hnone)
  rw [hsame]
  exact hnet.filed

end Covered

/-! ## Another key -/

section Rename

variable {ids : List NodeId} {old new : String}

/-- Every node that knows of a home is reached when the entry of one node for it is to get another key. -/
def Whole (tree : IncludeTree) (ids : List NodeId) (old : String) : Prop :=
  ∀ id ∈ ids, ∀ e, tree.ledger.entry id old = some e → ∀ id' key' e',
    tree.ledger.entry id' key' = some e' → e'.home = e.home → id' ∈ ids

/-- Does the node use what it has under the key? -/
def usesKey (tree : IncludeTree) (id : NodeId) (key : String) : Bool :=
  (tree.ledger.entry id key).any fun e => e.state == .inUse

theorem usesKey_iff {id : NodeId} {key : String} : tree.usesKey id key = true ↔
    ∃ e, tree.ledger.entry id key = some e ∧ e.state = .inUse := by
  simp only [usesKey, Option.any_eq_true, beq_iff_eq]

/-- A node whose entry got another key. -/
theorem edited_rename {node : TreeNode} {entry : InterfacePlace} (h : Renames old new node entry) :
    ∃ net, (entry.state = .inUse → node.net.renamePlace old new = .ok net) ∧
      (entry.state ≠ .inUse → net = node.net) ∧
      edited (.rename old new) node = { node with
        net := net
        interface := (node.interface.rename old new).modify new fun e => { e with awayId := new } } := by
  obtain ⟨net, hused, hunused, happly⟩ := applyCommand_rename h
  exact ⟨net, hused, hunused, edited_eq happly⟩

/-- The entries that nodes have under one key are found under another one. -/
theorem entry_edits_rename (hedits : Edits (.rename old new) ids tree after)
    (hopen : ∀ n ∈ ids, ∀ node, tree.node? n = some node → commandProblem (.rename old new) node = none)
    (n : NodeId) (k : String) : after.ledger.entry n k =
      if n ∈ ids then
        if k = new then (tree.ledger.entry n old).map fun e => { e with awayId := new }
        else if k = old then none else tree.ledger.entry n k
      else tree.ledger.entry n k := by
  simp only [ledger, hedits.nodes]
  by_cases hn : n ∈ ids
  · simp only [if_pos hn]
    cases hnode : tree.node? n with
    | none => simp
    | some node =>
      obtain ⟨entry, hrenames⟩ := commandProblem_rename (hopen n hn node hnode)
      obtain ⟨net, _, _, hedited⟩ := edited_rename hrenames
      rw [Option.map_some, Option.bind_some, hedited, Table.get?_modify, Table.get?_rename k hrenames.free]
      by_cases hk : k = new
      · simp [hk]
      · simp [hk, Ne.symm hk]
  · simp only [if_neg hn]

/-- The place of a used entry is found under the new key, and no other place is concerned. -/
theorem standing_edits_rename (hedits : Edits (.rename old new) ids tree after)
    (hopen : ∀ n ∈ ids, ∀ node, tree.node? n = some node → commandProblem (.rename old new) node = none)
    (n : NodeId) (k : String) : after.ledger.standing n k =
      if n ∈ ids ∧ tree.usesKey n old = true then
        if k = new then tree.ledger.standing n old
        else if k = old then none else tree.ledger.standing n k
      else tree.ledger.standing n k := by
  show ((after.node? n).bind fun node => node.net.standing? k) = _
  rw [hedits.nodes]
  by_cases hn : n ∈ ids
  · rw [if_pos hn]
    cases hnode : tree.node? n with
    | none => simp [ledger, usesKey, hnode]
    | some node =>
      obtain ⟨entry, hrenames⟩ := commandProblem_rename (hopen n hn node hnode)
      obtain ⟨net, hused, hunused, hedited⟩ := edited_rename hrenames
      have hkey : tree.usesKey n old = true ↔ entry.state = .inUse := by
        rw [usesKey, entry_eq hnode, hrenames.listed, Option.any_some, beq_iff_eq]
      rw [Option.map_some, Option.bind_some, hedited]
      simp only [standing_eq hnode]
      by_cases huse : entry.state = .inUse
      · rw [if_pos ⟨hn, hkey.2 huse⟩]
        exact Net.standing?_renamePlace (hused huse) k
      · rw [if_neg fun h => huse (hkey.1 h.2), hunused huse]
  · rw [if_neg hn, if_neg fun h => hn h.1]
    rfl

/-- A command that gives entries another key, and reaches every node that knows of their homes. -/
theorem Covered.execute (h : tree.Covered) {id : NodeId} {scope : Scope}
    (hwhole : tree.Whole (tree.scopeNodes id scope) old) :
    (tree.execute id scope (.rename old new)).1.Covered := by
  rcases execute_cases tree id scope (.rename old new) with ⟨_, heq⟩ | ⟨after, hopen, hedits, heq⟩
  · rw [heq]
    exact h
  · rw [heq]
    set ids := tree.scopeNodes id scope
    obtain ⟨standing, hsound, homits⟩ := h.books
    have hstands := standing_edits_rename hedits hopen
    -- what is left out gets the new key along with what is recorded
    refine touch ⟨hedits.shape.rooted h.rooted, fun n k =>
      if n ∈ ids ∧ tree.usesKey n old = true then
        if k = new then standing n old else if k = old then none else standing n k
      else standing n k, ?_, fun n k => ?_⟩
    · refine hsound.rekey (fun n => n ∈ ids) (fun n hn => ?_) (fun n e hn he huse => ?_)
        (fun n e hn he => hwhole n hn e he) (entry_edits_rename hedits hopen)
        (fun n hplain k => if_neg fun hused => ?_)
        fun n e hn he huse k => if_pos ⟨hn, usesKey_iff.2 ⟨e, he, huse⟩⟩
      -- the new key is free in the map of every node that is reached
      · cases he : tree.ledger.entry n new with
        | none => rfl
        | some e =>
          obtain ⟨node, hnode, hentry⟩ := entry_eq_some.1 he
          obtain ⟨_, hrenames⟩ := commandProblem_rename (hopen n hn node hnode)
          rw [Table.get?_eq_none_of_contains hrenames.free] at hentry
          cases hentry
      -- and in the net where the entry is in use
      · obtain ⟨node, hnode, hentry⟩ := entry_eq_some.1 he
        obtain ⟨entry, hrenames⟩ := commandProblem_rename (hopen n hn node hnode)
        rw [hrenames.listed] at hentry
        cases hentry
        refine homits.eq_none ?_
        rw [standing_eq hnode, Net.standing?, Net.isNode_eq_false (hrenames.fresh huse)]
        rfl
      · exact hplain ⟨hused.1, usesKey_iff.1 hused.2⟩
    · dsimp only
      rw [hstands]
      split
      · split
        · exact homits n old
        · split
          · exact Or.inl rfl
          · exact homits n k
      · exact homits n k

/-- A command for all nodes reaches every node that knows of anything. -/
theorem Rooted.whole_all (h : tree.Rooted) (id : NodeId) (old : String) :
    tree.Whole (tree.scopeNodes id .all) old := by
  intro n hn e _ id' key' e' he' _
  obtain ⟨node', hnode', _⟩ := entry_eq_some.1 he'
  unfold scopeNodes at hn ⊢
  cases hnode : tree.node? id with
  | none =>
    rw [hnode] at hn
    cases hn
  | some node =>
    by_cases hid : id' = id
    · rw [hid]
      exact List.mem_cons_self ..
    -- every other node stands below the root
    · have hlive : (tree.node? id').isSome := by
        rw [hnode']
        rfl
      have hreached := h.mem_subtree hlive
      exact List.mem_cons_of_mem _ (List.mem_filter.2 ⟨hreached, by simpa using hid⟩)

end Rename

end IncludeTree

/-! ## All commands -/

/-- The command leaves no user out of the books. A net that is attached borrows nothing, and an entry gets
another key in every node that knows of its home. -/
def TreeCommand.Accounts (tree : IncludeTree) : TreeCommand → Prop
  | .attach _ net _ => net.Independent
  | .execute id scope (.rename old _) => tree.Whole (tree.scopeNodes id scope) old
  | .execute .. => False
  | _ => True

namespace IncludeTree

/-- The trees that such commands lead to, whether they are refused or not, from a net that borrows nothing.
Nets may be edited meanwhile, as long as interface places are spared. -/
inductive Accounted : IncludeTree → Prop
  | new {net : Net} (name : String) : net.Independent → Accounted (IncludeTree.new net name)
  | withAccessScope {tree : IncludeTree} (scope : Scope) : Accounted tree →
      Accounted (tree.withAccessScope scope)
  | edit {tree : IncludeTree} {net after : Net} {edit : NetEdit} {removed : Option Component} (id : NodeId) :
      Accounted tree → tree.net? id = some net → edit.Spares net →
      net.perform edit = .ok (removed, after) → Accounted (tree.setNet id after)
  | perform {tree : IncludeTree} (command : TreeCommand) : Accounted tree → command.Accounts tree →
      Accounted (tree.perform command).1

theorem Covered.perform {tree : IncludeTree} (h : tree.Covered) {command : TreeCommand}
    (haccounts : command.Accounts tree) : (tree.perform command).1.Covered := by
  cases command with
  | attach parent net name => exact settled_keeps h fun _ _ hcommand => h.attach haccounts hcommand
  | detach parent name => exact h.detach parent name
  | rename id name => exact settledDone_keeps h fun _ hcommand => h.rename hcommand
  | publish id place => exact h.publish id place
  | useInterface id away => exact settled_keeps h fun _ _ hcommand => h.useInterface hcommand
  | dropInterface id away => exact settledDone_keeps h fun _ hcommand => h.dropInterface hcommand
  | withdraw id away => exact h.withdraw id away
  | execute id scope command =>
    cases command with
    | rename old new => exact h.execute haccounts
    | add entry => exact haccounts.elim
    | update entry => exact haccounts.elim

theorem Accounted.covered {tree : IncludeTree} (h : tree.Accounted) : tree.Covered := by
  induction h with
  | new name hnet => exact (Registry.new hnet name).covered
  | withAccessScope scope _ ih => exact ih.withAccessScope scope
  | edit id _ hnet hspares hedit ih => exact ih.edit hnet hspares hedit
  | perform command _ haccounts ih => exact ih.perform haccounts

theorem Accounted.arises {tree : IncludeTree} (h : tree.Accounted) : tree.Arises := by
  induction h with
  | new name _ => exact .new _ name
  | withAccessScope scope _ ih => exact ih.withAccessScope scope
  | edit id _ _ _ _ ih => exact ih.setNet id _
  | perform command _ _ ih => exact ih.perform command

end IncludeTree

end PetriTree
