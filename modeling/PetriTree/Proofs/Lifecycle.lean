import PetriTree.Proofs.Posting
import PetriTree.Proofs.Refusal
import PetriTree.Proofs.Sample

/-!
# PetriTree — the life of interface places

A tree is made of a net that may have places marked as home already, and lives on by commands and by edits
of its nets that leave interface places alone. Its books are sound all the while, so that no entry is ever
left without a home and joining never looks for one in vain.

The first net must not stand for places of others: nothing registers what it uses. Nets that are read from a
document may file a place under another key than its id. The maps go by the key and joining goes by the id, so
that a home is found only where the two are the same, as they are in nets made by edits.

Main results:
* `Registry.new` — the tree of a net that stands on its own;
* `IncludeTree.Lifecycle` — the trees of the interface lifecycle, `Lifecycle.registry` — their books are sound;
* `Lifecycle.homes_kept` — maps and places agree, and joining finds every home;
* `Lifecycle.failsOnly_of_reachable` — where nets are made by edits, without a condition on them;
* `homes_missed` — what happens where the conditions fail.
-/

namespace PetriTree

/-! ## Starting -/

/-- Places that are marked as home are filed under their ids. -/
def Net.HomesFiled (net : Net) : Prop :=
  ∀ key place, net.places.get? key = some place → place.status.merge = .home → place.id = key

/-- The net stands on its own: none of its places stands for a place of another net, and those that are
marked as home are filed under their ids. -/
structure Net.Independent (net : Net) : Prop where
  unborrowed : ∀ key place, net.places.get? key = some place → place.status.merge ≠ .inUse
  filed : net.HomesFiled

namespace IncludeTree

variable {tree after : IncludeTree}

/-- The tree of a single node, before its places are registered. -/
def sprout (net : Net) (name : String) : IncludeTree :=
  ⟨Arena.empty.alloc ⟨name, name, name, "", none, Table.empty, net, Table.empty⟩, rootId, Scope.standard, 0⟩

theorem node?_sprout (net : Net) (name : String) (id : NodeId) : (sprout net name).node? id =
    if id = rootId then some ⟨name, name, name, "", none, Table.empty, net, Table.empty⟩ else none := by
  rw [node?, sprout, Arena.get?_alloc]
  rfl

/-- The places of `done` are registered with the only node, and nothing else is. -/
structure Posted (net : Net) (name : String) (done : List String) (tree : IncludeTree) : Prop where
  remaps : (sprout net name).Remaps tree
  entries : ∀ id key e, tree.ledger.entry id key = some e ↔ id = rootId ∧ ∃ place ∈ done,
    key = name ++ "." ++ place ∧ e = ⟨key, ⟨rootId, place⟩, .home⟩

/-- All places that a net marks as home are registered when its tree is made. -/
theorem posted_new (net : Net) (name : String) :
    Posted net name ((net.places.values.filter fun p => p.status.merge == .home).map Place.id)
      (IncludeTree.new net name) := by
  have hroot := node?_sprout net name rootId
  rw [if_pos rfl] at hroot
  -- there are no entries yet that could name a place, or have its key
  have hlist : unregisteredHomes ⟨name, name, name, "", none, Table.empty, net, Table.empty⟩ =
      (net.places.values.filter fun p => p.status.merge == .home).map Place.id := by
    simp [unregisteredHomes, Table.values, Table.empty]
  have hempty : ∀ id key, (sprout net name).ledger.entry id key = none := by
    intro id key
    simp only [ledger, node?_sprout]
    split
    · rfl
    · rfl
  have hreach : (sprout net name).reach rootId = [rootId] := rfl
  have hvacant : ∀ key, (sprout net name).Vacant key ((sprout net name).reach rootId) := fun key =>
    vacant_iff.2 fun id _ => hempty id key
  have h := posts_registerHomes hroot
  rw [hlist] at h
  change Posted net name _ ((sprout net name).registerHomes rootId)
  refine ⟨h.remaps, fun id key e => ⟨fun he => ?_, ?_⟩⟩
  -- an entry was not there at the start, so a place was registered
  · by_contra hnone
    have hkept := h.kept id key fun place hplace hkey hat => ?_
    · rw [hempty] at hkept
      rw [hkept] at he
      cases he
    · have hid : id = rootId := List.mem_singleton.1 (hreach ▸ hat.1)
      have hposted := h.posted place hplace (hkey ▸ hat.2) id hat.1 (by rw [hid, hroot]; rfl)
      rw [← hkey] at hposted
      rw [hposted] at he
      refine hnone ⟨hid, place, hplace, hkey, ?_⟩
      rw [← Option.some.inj he, homeEntry, if_pos hid]
  · rintro ⟨rfl, place, hplace, rfl, rfl⟩
    exact h.posted place hplace (hvacant _) rootId (hreach ▸ List.mem_singleton_self _) (by rw [hroot]; rfl)

theorem rooted_sprout (net : Net) (name : String) : (sprout net name).Rooted where
  younger above below hincludes := by
    obtain ⟨node, hnode, hchild⟩ := hincludes
    rw [node?_sprout] at hnode
    split at hnode
    · cases hnode
      cases hchild
    · cases hnode
  held id hlive := by
    rw [node?_sprout] at hlive
    split at hlive
    · rename_i hid
      exact Or.inl hid
    · cases hlive

/-- The tree of a net that stands on its own has sound books. -/
theorem Registry.new {net : Net} (hnet : net.Independent) (name : String) :
    (IncludeTree.new net name).Registry := by
  have h := posted_new net name
  -- all that is recorded is the homes of the one node
  set done := (net.places.values.filter fun p => p.status.merge == .home).map Place.id with hdone
  have hstanding : ∀ id place status, (IncludeTree.new net name).ledger.standing id place = some status ↔
      id = rootId ∧ net.standing? place = some status := by
    intro id place status
    rw [h.remaps.standing, standing_eq_some]
    simp only [node?_sprout]
    split <;> simp [*]
  -- the places that are registered are those marked as home, as they are filed under their ids
  have hhomes : ∀ place, place ∈ done ↔ ∃ status, net.standing? place = some status ∧
      status.merge = .home := by
    intro place
    simp only [hdone, List.mem_map, List.mem_filter, beq_iff_eq]
    constructor
    · rintro ⟨found, ⟨hvalue, hmerge⟩, rfl⟩
      obtain ⟨key, hkey⟩ := Table.mem_values_iff.1 hvalue
      rw [hnet.filed key found hkey hmerge]
      refine ⟨found.status, Net.standing?_eq_some.2 ⟨found, hkey, rfl, ?_⟩, hmerge⟩
      simp [PlaceStatus.isInterface, hmerge]
    · rintro ⟨status, hstands, hmerge⟩
      obtain ⟨found, hfound, rfl, _⟩ := Net.standing?_eq_some.1 hstands
      exact ⟨found, ⟨Table.mem_values_iff.2 ⟨place, hfound⟩, hmerge⟩, hnet.filed place found hfound hmerge⟩
  refine ⟨h.remaps.shape.rooted (rooted_sprout net name), ⟨?placed, ?entered, ?own, ?published, ?housed⟩,
    ?keyed, ?agree⟩
  case placed =>
    intro id key e he huse
    obtain ⟨_, _, _, _, rfl⟩ := (h.entries id key e).1 he
    cases huse
  case entered =>
    intro id key status hstands huse
    obtain ⟨found, hfound, rfl, _⟩ := Net.standing?_eq_some.1 ((hstanding id key status).1 hstands).2
    exact absurd huse (hnet.unborrowed key found hfound)
  case own =>
    intro id key e he
    obtain ⟨rfl, _, _, _, rfl⟩ := (h.entries id key e).1 he
    simp
  case published =>
    intro id place status hstands hmerge
    obtain ⟨rfl, hplain⟩ := (hstanding id place status).1 hstands
    have hplace := (hhomes place).2 ⟨status, hplain, hmerge⟩
    exact ⟨_, _, (h.entries _ _ _).2 ⟨rfl, place, hplace, rfl, rfl⟩, rfl, rfl⟩
  case housed =>
    intro id key e he
    obtain ⟨_, place, hplace, _, rfl⟩ := (h.entries id key e).1 he
    obtain ⟨status, hstands, hmerge⟩ := (hhomes place).1 hplace
    exact ⟨status, (hstanding _ _ _).2 ⟨rfl, hstands⟩, hmerge⟩
  case keyed =>
    intro id key e he
    obtain ⟨_, _, _, _, rfl⟩ := (h.entries id key e).1 he
    rfl
  case agree =>
    intro id key e id' key' e' he he' hsame
    obtain ⟨_, place, _, rfl, rfl⟩ := (h.entries id key e).1 he
    obtain ⟨_, place', _, rfl, rfl⟩ := (h.entries id' key' e').1 he'
    have hplace : place = place' := congrArg HomeRef.place hsame
    rw [hplace]

end IncludeTree

/-! ## Living on -/

/-- The command is one of the interface lifecycle. A net that is attached has no interface places yet. -/
def TreeCommand.Orderly : TreeCommand → Prop
  | .attach _ net _ => ∀ place ∈ net.places.values, place.status.isInterface = false
  | .execute .. => False
  | _ => True

namespace IncludeTree

/-- The trees that the commands of the interface lifecycle lead to, whether they are refused or not,
from nets of one kind. Nets may be edited meanwhile, as long as interface places are spared. -/
inductive Lifecycle (Start : Net → Prop) : IncludeTree → Prop
  | new {net : Net} (name : String) : Start net → Lifecycle Start (IncludeTree.new net name)
  | withAccessScope {tree : IncludeTree} (scope : Scope) : Lifecycle Start tree →
      Lifecycle Start (tree.withAccessScope scope)
  | edit {tree : IncludeTree} {net after : Net} {edit : NetEdit} {removed : Option Component} (id : NodeId) :
      Lifecycle Start tree → tree.net? id = some net → edit.Spares net →
      net.perform edit = .ok (removed, after) → Lifecycle Start (tree.setNet id after)
  | perform {tree : IncludeTree} (command : TreeCommand) : Lifecycle Start tree → command.Orderly →
      Lifecycle Start (tree.perform command).1

/-- Whatever an orderly command does, the books are sound after it. -/
theorem Registry.perform {tree : IncludeTree} (h : tree.Registry) {command : TreeCommand}
    (horderly : command.Orderly) : (tree.perform command).1.Registry := by
  cases command with
  | attach parent net name =>
    exact settled_keeps h fun _ _ hcommand => h.attach (Net.standing?_eq_none horderly) hcommand
  | detach parent name => exact h.detach parent name
  | rename id name => exact settledDone_keeps h fun _ hcommand => h.rename hcommand
  | publish id place => exact h.publish id place
  | useInterface id away => exact settled_keeps h fun _ _ hcommand => h.useInterface hcommand
  | dropInterface id away => exact settledDone_keeps h fun _ hcommand => h.dropInterface hcommand
  | withdraw id away => exact h.withdraw id away
  | execute id scope command => exact horderly.elim

/-- The books are sound in every tree of a lifecycle that starts from a net that stands on its own. -/
theorem Lifecycle.registry {tree : IncludeTree} (h : tree.Lifecycle Net.Independent) : tree.Registry := by
  induction h with
  | new name hnet => exact .new hnet name
  | withAccessScope scope _ ih => exact ih.withAccessScope scope
  | edit id _ hnet hspares hedit ih => exact ih.edit hnet hspares hedit
  | perform command _ horderly ih => exact ih.perform horderly

/-! ## Joining -/

/-- In a tree with sound books, joining finds the home of every place that waits for it. -/
theorem Registry.exists_homeOf {tree : IncludeTree} (h : tree.Registry)
    (hfiled : ∀ id net, tree.net? id = some net → net.HomesFiled) {a : Assembly}
    (ha : Assembly.ofTree tree = .ok a) {away : AwayPlace} (haway : away ∈ a.aways) :
    ∃ flat, a.homeOf tree away.home = some flat := by
  have hcopied := Assembly.copied_of_ofTree ha
  rw [hcopied.aways] at haway
  obtain ⟨l, hl, hlaway⟩ := List.mem_filterMap.1 haway
  obtain ⟨home, hhome, rfl⟩ := Option.map_eq_some_iff.1 hlaway
  obtain ⟨hwalk, hpart⟩ := mem_localsOf.1 hl
  -- the place stands for a home, so its node has an entry for it
  have hforeign : l.part.status.merge = .inUse ∧ l.part.status.home = some home := by
    unfold Local.home? Assembly.foreignHome at hhome
    split at hhome
    · rename_i huse
      exact ⟨huse, (Option.filter_eq_some_iff.1 hhome).1⟩
    · cases hhome
  obtain ⟨key, hkey⟩ := Table.mem_values_iff.1 hpart
  have hstands : tree.ledger.standing l.node key = some l.part.status := by
    rw [standing_eq (mem_walk.1 hwalk).2, Net.standing?_eq_some]
    exact ⟨l.part, hkey, rfl, by simp [PlaceStatus.isInterface, hforeign.1]⟩
  obtain ⟨e, he, _, hentered⟩ := h.sound.entered l.node key _ hstands hforeign.1
  have hsame : home = e.home := Option.some.inj (hforeign.2.symm.trans hentered)
  -- the home of the entry is a place of a node, and was copied like any other
  obtain ⟨status, hstatus, hmerge⟩ := h.sound.housed l.node key e he
  rw [← hsame] at hstatus
  obtain ⟨owner, howner, hplace⟩ := standing_eq_some.1 hstatus
  obtain ⟨found, hfound, rfl, _⟩ := Net.standing?_eq_some.1 hplace
  have hid : found.id = home.place :=
    hfiled home.node owner.net (by rw [net?, howner]; rfl) home.place found hfound hmerge
  have hmem : (⟨home.node, owner, found⟩ : Local Place) ∈ placesOf tree.walk :=
    mem_localsOf.2 ⟨h.rooted.mem_walk howner, Table.mem_values_iff.2 ⟨_, hfound⟩⟩
  have hcopy := hcopied.get?_flat hmem
  have hkept : (⟨home.node, owner, found⟩ : Local Place).copy.status.merge = .home := by
    simp [Local.copy, Local.home?, Assembly.foreignHome, hmerge]
  refine ⟨qualify owner.path home.place, ?_⟩
  have hflat : a.places.get? (qualify owner.path home.place) =
      some (⟨home.node, owner, found⟩ : Local Place).copy := by
    rw [← hid]
    exact hcopy
  simp [Assembly.homeOf, howner, hflat, hkept]

/-- Joining a tree with sound books is never refused for want of a home. -/
theorem Registry.failsOnly {tree : IncludeTree} (h : tree.Registry)
    (hfiled : ∀ id net, tree.net? id = some net → net.HomesFiled) :
    FailsOnly FlattenError.IsHoused (FlatNet.ofTree tree) :=
  FlatNet.failsOnly_ofTree fun _ ha _ haway => h.exists_homeOf hfiled ha haway

/-- Trees whose nets are made by edits need no further care. -/
theorem Lifecycle.failsOnly_of_reachable {tree : IncludeTree} (h : tree.Lifecycle Net.Independent)
    (hreachable : tree.Reachable) : FailsOnly FlattenError.IsHoused (FlatNet.ofTree tree) := by
  refine h.registry.failsOnly fun id net hnet key place hplace _ => ?_
  obtain ⟨node, hnode, rfl⟩ := Option.map_eq_some_iff.1 hnet
  exact (hreachable.linked.built id node hnode).filed key place hplace

/-- In every tree of the interface lifecycle maps and places agree: an entry is in use exactly where a place
stands for its home, an entry is one of a home exactly in the node that has it, and every home is there. So
joining never looks for a home in vain, where nets file their homes under the ids. -/
theorem Lifecycle.homes_kept {tree : IncludeTree} (h : tree.Lifecycle Net.Independent) :
    tree.ledger.Balanced ∧ ((∀ id net, tree.net? id = some net → net.HomesFiled) →
      ∀ away node, FlatNet.ofTree tree ≠ .error (.missingHome away node)) := by
  have hregistry := h.registry
  refine ⟨hregistry.sound.toBalanced, fun hfiled away node hrefused => ?_⟩
  exact (hregistry.failsOnly hfiled).of_error _ hrefused away node rfl

/-- A net without places stands on its own. -/
theorem independent_nil : (Sample.netOf []).Independent where
  unborrowed key place hplace := by cases hplace
  filed key place hplace := by cases hplace

/-- The root uses a place that the node below it publishes. -/
def lent : IncludeTree :=
  (Sample.pair [] [Sample.place "P" 2] "a").performAll
    [.publish ⟨1⟩ "P", .useInterface rootId "root.a.P"]

/-- The commands that lead to the tree are orderly. -/
theorem lifecycle_lent : lent.Lifecycle Net.Independent ∧ lent.Reachable := by
  have hplain : ∀ place ∈ (Sample.netOf [Sample.place "P" 2]).places.values,
      place.status.isInterface = false := by decide +kernel
  have hattached := (Lifecycle.new "root" independent_nil).perform
    (.attach rootId (Sample.netOf [Sample.place "P" 2]) "a") hplain
  have hpair : (Sample.pair [] [Sample.place "P" 2] "a") = ((IncludeTree.new (Sample.netOf []) "root").perform
      (.attach rootId (Sample.netOf [Sample.place "P" 2]) "a")).1 := by
    rw [Sample.pair, IncludeTree.perform]
    show _ = (settled _ _ ((Sample.single []).attach rootId (Sample.netOf [Sample.place "P" 2]) "a")).1
    cases (Sample.single []).attach rootId (Sample.netOf [Sample.place "P" 2]) "a" with
    | error report => rfl
    | ok result => rfl
  rw [← hpair] at hattached
  have hreachable := Sample.reachable_pair [] [Sample.place "P" 2] "a"
  exact ⟨(hattached.perform (.publish ⟨1⟩ "P") trivial).perform (.useInterface rootId "root.a.P") trivial,
    (hreachable.perform (.publish ⟨1⟩ "P") (by rintro _ _ _ ⟨⟩)).perform (.useInterface rootId "root.a.P")
      (by rintro _ _ _ ⟨⟩)⟩

theorem homes_kept_lent : lent.ledger.entry rootId "root.a.P" = some ⟨"root.a.P", ⟨⟨1⟩, "P"⟩, .inUse⟩ ∧
    lent.ledger.Balanced ∧ ∀ away node, FlatNet.ofTree lent ≠ .error (.missingHome away node) := by
  obtain ⟨hlifecycle, hreachable⟩ := lifecycle_lent
  obtain ⟨hbalanced, hhoused⟩ := Lifecycle.homes_kept hlifecycle
  refine ⟨by decide +kernel, hbalanced, hhoused fun id net hnet key place hplace _ => ?_⟩
  obtain ⟨node, hnode, rfl⟩ := Option.map_eq_some_iff.1 hnet
  exact (hreachable.linked.built id node hnode).filed key place hplace

/-! ## What the conditions are for -/

/-- A single net with a place that stands for the place of a node that is not there. -/
def stray : IncludeTree := Sample.single
  [.place (Sample.placeOf { PlaceStatus.plain with merge := .inUse, home := some ⟨⟨1⟩, "P"⟩ } "U" 5)]

/-- A net with a place under a key that is not its id. -/
def misfiledNet : Net :=
  { Net.new "sample" with places := Table.empty.insert "P" (Sample.placeOf PlaceStatus.plain "Q" 2) }

/-- The root uses a place that the node below it publishes under the key it is filed under. -/
def misfiled : IncludeTree :=
  (IncludeTree.new (Sample.netOf []) "root").performAll
    [.attach rootId misfiledNet "a", .publish ⟨1⟩ "P", .useInterface rootId "root.a.P"]

/-- A single net with a home under a key that is not its id. -/
def misfiledHome : IncludeTree := IncludeTree.new { Net.new "sample" with
  places := Table.empty.insert "P" (Sample.placeOf { PlaceStatus.plain with merge := .home } "Q" 2) } "root"

/-- A first net that stands for places of others has no entries for them, and joining does not find their
homes. One that files a home under another key than its id has an entry whose home is not there. And joining
misses any home that is filed so, even where the books are in order. -/
theorem homes_missed :
    (stray.Lifecycle (fun _ => True) ∧
      (stray.ledger.standing rootId "U").map PlaceStatus.merge = some .inUse ∧
      stray.ledger.entry rootId "U" = none ∧ FlatNet.ofTree stray = .error (.missingHome "U" "root")) ∧
    (misfiledHome.Lifecycle (fun _ => True) ∧
      misfiledHome.ledger.entry rootId "root.Q" = some ⟨"root.Q", ⟨rootId, "Q"⟩, .home⟩ ∧
      misfiledHome.ledger.standing rootId "Q" = none) ∧
    (misfiled.Lifecycle Net.Independent ∧
      FlatNet.ofTree misfiled = .error (.missingHome "root.a.P" "root")) := by
  have hplain : ∀ place ∈ misfiledNet.places.values, place.status.isInterface = false := by decide +kernel
  have hlifecycle : misfiled.Lifecycle Net.Independent :=
    (((Lifecycle.new "root" independent_nil).perform (.attach rootId misfiledNet "a") hplain).perform
      (.publish ⟨1⟩ "P") trivial).perform (.useInterface rootId "root.a.P") trivial
  have hstray : (FlatNet.ofTree stray).map (fun net => net.name) = .error (.missingHome "U" "root") := by
    decide +kernel
  have hmisfiled : (FlatNet.ofTree misfiled).map (fun net => net.name) =
      .error (.missingHome "root.a.P" "root") := by decide +kernel
  refine ⟨⟨.new "root" trivial, ?_, ?_, map_eq_error.1 hstray⟩, ⟨.new "root" trivial, ?_, ?_⟩,
    hlifecycle, map_eq_error.1 hmisfiled⟩
  · decide +kernel
  · decide +kernel
  · decide +kernel
  · decide +kernel

end IncludeTree

end PetriTree
