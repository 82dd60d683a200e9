import PetriTree.Tree.Interface

/-!
# PetriTree — the books on interface places

That a place is in the interface is written down twice: in the maps of the nodes that know of it, and in
the status of the places themselves. A ledger is the two records side by side, without the trees and nets
they are kept in, so that each change of both can be checked for itself.

The guards of the commands ask for a key where they mean a home. This is sound because the entries of one
home have one key in all maps, which every change has to keep as well.

Main results:
* `Ledger.Balanced` — the two records tell the same;
* `Ledger.Sound` — balanced books in which a key stands for a home;
* `Ledger.Sound.publish` … `Ledger.Sound.rekey` — the changes that keep books sound.
-/

namespace PetriTree

/-- What maps and places record about the interface, by node and by key or place. Places that are not in
the interface have no standing. -/
structure Ledger where
  entry : NodeId → String → Option InterfacePlace
  standing : NodeId → String → Option PlaceStatus

namespace Ledger

/-- Maps and places tell the same. -/
structure Balanced (l : Ledger) : Prop where
  /-- An entry in use has a place of its node that stands for the same home, under the same key. -/
  placed : ∀ id key e, l.entry id key = some e → e.state = .inUse →
    ∃ status, l.standing id key = some status ∧ status.merge = .inUse ∧ status.home = some e.home
  /-- A place that stands for a home has an entry in use, under the same key. -/
  entered : ∀ id key status, l.standing id key = some status → status.merge = .inUse →
    ∃ e, l.entry id key = some e ∧ e.state = .inUse ∧ status.home = some e.home
  /-- The entries for its own places are those a node has as their home. -/
  own : ∀ id key e, l.entry id key = some e → (e.state = .home ↔ e.home.node = id)
  /-- A place marked as home has an entry as home in its own node. -/
  published : ∀ id place status, l.standing id place = some status → status.merge = .home →
    ∃ key e, l.entry id key = some e ∧ e.state = .home ∧ e.home = ⟨id, place⟩
  /-- The home of an entry is there, and marked as home. -/
  housed : ∀ id key e, l.entry id key = some e →
    ∃ status, l.standing e.home.node e.home.place = some status ∧ status.merge = .home

/-- Balanced books in which one key, the same in all maps, stands for a home. -/
structure Sound (l : Ledger) : Prop extends Balanced l where
  keyed : ∀ id key e, l.entry id key = some e → e.awayId = key
  agree : ∀ id key e id' key' e', l.entry id key = some e → l.entry id' key' = some e' → e.home = e'.home →
    key = key'

namespace Sound

variable {before after : Ledger}

/-- A place that was in no map enters the maps of some nodes, its own among them. -/
theorem publish (h : before.Sound) (reached : NodeId → Prop) [DecidablePred reached] {home : NodeId}
    {place key : String} {status : PlaceStatus} (hhome : reached home)
    (hplain : before.standing home place = none) (hfree : ∀ id, reached id → before.entry id key = none)
    (hstatus : status.merge = .home)
    (hentry : ∀ id k, after.entry id k =
      if reached id ∧ k = key then some ⟨key, ⟨home, place⟩, if id = home then .home else .available⟩
      else before.entry id k)
    (hstanding : ∀ id k, after.standing id k =
      if id = home ∧ k = place then some status else before.standing id k) : after.Sound := by
  -- a home that an entry of before has is not the one that enters now
  have hother : ∀ id k e, before.entry id k = some e → ¬(e.home.node = home ∧ e.home.place = place) := by
    rintro id k e he ⟨rfl, rfl⟩
    obtain ⟨_, hhoused, _⟩ := h.housed id k e he
    rw [hplain] at hhoused
    cases hhoused
  have hcase : ∀ id k e, after.entry id k = some e →
      (k = key ∧ e = ⟨key, ⟨home, place⟩, if id = home then .home else .available⟩) ∨
        before.entry id k = some e := by
    intro id k e he
    rw [hentry] at he
    split at he
    · rename_i hnew
      exact Or.inl ⟨hnew.2, (Option.some.inj he).symm⟩
    · exact Or.inr he
  -- the key was free wherever an entry is new, so no entry of before is overwritten
  have hkept : ∀ id k e, before.entry id k = some e → after.entry id k = some e := by
    intro id k e he
    rw [hentry, if_neg ?_, he]
    rintro ⟨hreached, rfl⟩
    rw [hfree id hreached] at he
    cases he
  refine ⟨⟨?placed, ?entered, ?own, ?published, ?housed⟩, ?keyed, ?agree⟩
  case placed =>
    intro id k e he huse
    rcases hcase id k e he with ⟨_, rfl⟩ | he
    -- what enters is a home or an offer, and nothing in use
    · dsimp only at huse
      split at huse <;> cases huse
    · obtain ⟨found, hfound, hrest⟩ := h.placed id k e he huse
      refine ⟨found, ?_, hrest⟩
      rw [hstanding, if_neg ?_, hfound]
      -- the place that enters had no standing, so it is not the one in use
      rintro ⟨rfl, rfl⟩
      rw [hplain] at hfound
      cases hfound
  case entered =>
    intro id k found hfound huse
    rw [hstanding] at hfound
    split at hfound
    · cases hfound
      rw [hstatus] at huse
      cases huse
    · obtain ⟨e, he, hrest⟩ := h.entered id k found hfound huse
      exact ⟨e, hkept id k e he, hrest⟩
  case own =>
    intro id k e he
    rcases hcase id k e he with ⟨_, rfl⟩ | he
    · by_cases hid : id = home
      · simp [hid]
      · simp [hid, Ne.symm hid]
    · exact h.own id k e he
  case published =>
    intro id p found hfound hhome'
    rw [hstanding] at hfound
    split at hfound
    · rename_i heq
      obtain ⟨rfl, rfl⟩ := heq
      exact ⟨key, _, by rw [hentry, if_pos ⟨hhome, rfl⟩], by simp, rfl⟩
    · obtain ⟨k, e, he, hrest⟩ := h.published id p found hfound hhome'
      exact ⟨k, e, hkept id k e he, hrest⟩
  case housed =>
    intro id k e he
    rcases hcase id k e he with ⟨_, rfl⟩ | he
    · exact ⟨status, by rw [hstanding, if_pos ⟨rfl, rfl⟩], hstatus⟩
    · rw [hstanding, if_neg (hother id k e he)]
      exact h.housed id k e he
  case keyed =>
    intro id k e he
    rcases hcase id k e he with ⟨rfl, rfl⟩ | he
    · rfl
    · exact h.keyed id k e he
  case agree =>
    intro id k e id' k' e' he he' hsame
    rcases hcase id k e he with ⟨rfl, rfl⟩ | he <;> rcases hcase id' k' e' he' with ⟨rfl, rfl⟩ | he'
    · rfl
    · exact absurd ⟨congrArg HomeRef.node hsame.symm, congrArg HomeRef.place hsame.symm⟩ (hother id' k' e' he')
    · exact absurd ⟨congrArg HomeRef.node hsame, congrArg HomeRef.place hsame⟩ (hother id k e he)
    · exact h.agree id k e id' k' e' he he' hsame

/-- Entries come from entries of before with their key and their home, and homes stay where they are looked
for. Then keys go on standing for homes, and what is left is that maps and places agree. -/
theorem inherit (h : before.Sound)
    (hold : ∀ id key e, after.entry id key = some e → ∃ id₀ e₀, before.entry id₀ key = some e₀ ∧
      e.home = e₀.home ∧ e.awayId = e₀.awayId)
    (hstays : ∀ id key e status, after.entry id key = some e →
      before.standing e.home.node e.home.place = some status → status.merge = .home →
      after.standing e.home.node e.home.place = some status)
    (hplaced : ∀ id key e, after.entry id key = some e → e.state = .inUse →
      ∃ status, after.standing id key = some status ∧ status.merge = .inUse ∧ status.home = some e.home)
    (hentered : ∀ id key status, after.standing id key = some status → status.merge = .inUse →
      ∃ e, after.entry id key = some e ∧ e.state = .inUse ∧ status.home = some e.home)
    (hown : ∀ id key e, after.entry id key = some e → (e.state = .home ↔ e.home.node = id))
    (hpublished : ∀ id place status, after.standing id place = some status → status.merge = .home →
      ∃ key e, after.entry id key = some e ∧ e.state = .home ∧ e.home = ⟨id, place⟩) : after.Sound where
  placed := hplaced
  entered := hentered
  own := hown
  published := hpublished
  housed id key e he := by
    obtain ⟨id₀, e₀, he₀, hhome, _⟩ := hold id key e he
    obtain ⟨status, hstatus, hmerge⟩ := h.housed id₀ key e₀ he₀
    rw [← hhome] at hstatus
    exact ⟨status, hstays id key e status he hstatus hmerge, hmerge⟩
  keyed id key e he := by
    obtain ⟨id₀, e₀, he₀, _, haway⟩ := hold id key e he
    rw [haway]
    exact h.keyed id₀ key e₀ he₀
  agree id key e id' key' e' he he' hsame := by
    obtain ⟨id₀, e₀, he₀, hhome, _⟩ := hold id key e he
    obtain ⟨id₀', e₀', he₀', hhome', _⟩ := hold id' key' e' he'
    exact h.agree id₀ key e₀ id₀' key' e₀' he₀ he₀' (by rw [← hhome, ← hhome', hsame])

section Consumer

variable {id : NodeId} {key : String} {e : InterfacePlace} {status : PlaceStatus}

/-- A change of the entry of one consumer under one key, and of its place under that key, which is a home
neither before nor after. The change has to leave the two in agreement. -/
theorem exchange (h : before.Sound) (hfound : before.entry id key = some e) (hstate : e.state ≠ .home)
    (hplace : ∀ status, before.standing id key = some status → status.merge ≠ .home)
    (hentry : ∀ n k, ¬(n = id ∧ k = key) → after.entry n k = before.entry n k)
    (hstanding : ∀ n k, ¬(n = id ∧ k = key) → after.standing n k = before.standing n k)
    (hnew : ∀ e', after.entry id key = some e' → e'.awayId = e.awayId ∧ e'.home = e.home ∧ e'.state ≠ .home)
    (hplaced : ∀ e', after.entry id key = some e' → e'.state = .inUse →
      ∃ status, after.standing id key = some status ∧ status.merge = .inUse ∧ status.home = some e'.home)
    (hentered : ∀ status, after.standing id key = some status → status.merge = .inUse ∧
      ∃ e', after.entry id key = some e' ∧ e'.state = .inUse ∧ status.home = some e'.home) :
    after.Sound := by
  -- every entry of after comes from one of before, with the same home
  have hold : ∀ n k e', after.entry n k = some e' → ∃ e₀, before.entry n k = some e₀ ∧
      e'.awayId = e₀.awayId ∧ e'.home = e₀.home ∧ (e'.state = .home ↔ e₀.state = .home) := by
    intro n k e' he'
    by_cases hat : n = id ∧ k = key
    · obtain ⟨rfl, rfl⟩ := hat
      obtain ⟨haway, hhome, hnot⟩ := hnew e' he'
      exact ⟨e, hfound, haway, hhome, iff_of_false hnot hstate⟩
    · rw [hentry n k hat] at he'
      exact ⟨e', he', rfl, rfl, Iff.rfl⟩
  refine h.inherit (fun n k e' he' => ?_) (fun n k e' found _ hstands hhome => ?_) ?placed ?entered ?own
    ?published
  · obtain ⟨e₀, he₀, haway, hhome, _⟩ := hold n k e' he'
    exact ⟨n, e₀, he₀, hhome, haway⟩
  -- no home is touched
  · rw [hstanding _ _ ?_, hstands]
    rintro ⟨hnode, hkey⟩
    rw [hnode, hkey] at hstands
    exact hplace found hstands hhome
  case placed =>
    intro n k e' he' huse
    by_cases hat : n = id ∧ k = key
    · obtain ⟨rfl, rfl⟩ := hat
      exact hplaced e' he' huse
    · rw [hentry n k hat] at he'
      rw [hstanding n k hat]
      exact h.placed n k e' he' huse
  case entered =>
    intro n k found hstands huse
    by_cases hat : n = id ∧ k = key
    · obtain ⟨rfl, rfl⟩ := hat
      exact (hentered found hstands).2
    · rw [hstanding n k hat] at hstands
      rw [hentry n k hat]
      exact h.entered n k found hstands huse
  case own =>
    intro n k e' he'
    obtain ⟨e₀, he₀, _, hhome, hstate'⟩ := hold n k e' he'
    rw [hstate', hhome]
    exact h.own n k e₀ he₀
  case published =>
    intro n p found hstands hhome
    have hstands₀ : before.standing n p = some found := by
      by_cases hat : n = id ∧ p = key
      · obtain ⟨rfl, rfl⟩ := hat
        rw [(hentered found hstands).1] at hhome
        cases hhome
      · rwa [hstanding n p hat] at hstands
    obtain ⟨k, e₀, he₀, hown, hrest⟩ := h.published n p found hstands₀ hhome
    refine ⟨k, e₀, ?_, hown, hrest⟩
    rw [hentry n k ?_, he₀]
    rintro ⟨rfl, rfl⟩
    rw [hfound] at he₀
    cases he₀
    exact hstate hown

/-- A node takes what it is offered, through a new place that stands for the home. -/
theorem take (h : before.Sound) (hfound : before.entry id key = some e) (hstate : e.state = .available)
    (hfree : before.standing id key = none) (hmerge : status.merge = .inUse) (hhome : status.home = some e.home)
    (hentry : ∀ n k, after.entry n k =
      if n = id ∧ k = key then some { e with state := .inUse } else before.entry n k)
    (hstanding : ∀ n k, after.standing n k =
      if n = id ∧ k = key then some status else before.standing n k) : after.Sound := by
  have hentry' : after.entry id key = some { e with state := .inUse } := by simp [hentry]
  have hstanding' : after.standing id key = some status := by simp [hstanding]
  refine h.exchange hfound (by simp [hstate]) (fun _ hstands => ?_) (fun n k hat => ?_) (fun n k hat => ?_)
    (fun e' he' => ?_) (fun e' he' _ => ?_) fun found hstands => ?_
  -- no place had the key, let alone a home
  · rw [hfree] at hstands
    cases hstands
  · rw [hentry, if_neg hat]
  · rw [hstanding, if_neg hat]
  · rw [hentry'] at he'
    cases he'
    exact ⟨rfl, rfl, by simp⟩
  · rw [hentry'] at he'
    cases he'
    exact ⟨status, hstanding', hmerge, hhome⟩
  · rw [hstanding'] at hstands
    cases hstands
    exact ⟨hmerge, _, hentry', rfl, hhome⟩

/-- A node gives up what it used, and its place with it; the offer stands. -/
theorem giveUp (h : before.Sound) (hfound : before.entry id key = some e) (hstate : e.state = .inUse)
    (hentry : ∀ n k, after.entry n k =
      if n = id ∧ k = key then some { e with state := .available } else before.entry n k)
    (hstanding : ∀ n k, after.standing n k = if n = id ∧ k = key then none else before.standing n k) :
    after.Sound := by
  have hentry' : after.entry id key = some { e with state := .available } := by simp [hentry]
  have hstanding' : after.standing id key = none := by simp [hstanding]
  refine h.exchange hfound (by simp [hstate]) (fun found hstands => ?_) (fun n k hat => ?_) (fun n k hat => ?_)
    (fun e' he' => ?_) (fun e' he' huse => ?_) fun found hstands => ?_
  -- the place that goes is the one that stood for the home
  · obtain ⟨status, hstatus, hmerge, _⟩ := h.placed id key e hfound hstate
    rw [hstatus] at hstands
    cases hstands
    simp [hmerge]
  · rw [hentry, if_neg hat]
  · rw [hstanding, if_neg hat]
  · rw [hentry'] at he'
    cases he'
    exact ⟨rfl, rfl, by simp⟩
  · rw [hentry'] at he'
    cases he'
    cases huse
  · rw [hstanding'] at hstands
    cases hstands

end Consumer

/-- A new node is offered what other nodes have as their home. -/
theorem offer (h : before.Sound) {new : NodeId} (hentryNone : ∀ k, before.entry new k = none)
    (hentry : ∀ id k, id ≠ new → after.entry id k = before.entry id k)
    (hstanding : ∀ id k, after.standing id k = before.standing id k)
    (hstandingNone : ∀ k, before.standing new k = none)
    (hoffer : ∀ k e, after.entry new k = some e → e.awayId = k ∧ e.state = .available ∧
      ∃ id e₀, before.entry id k = some e₀ ∧ e₀.state = .home ∧ e.home = e₀.home) : after.Sound := by
  -- the new node has no interface places, so what is known of places is about others
  have hother : ∀ id k status, before.standing id k = some status → id ≠ new := by
    rintro id k status hstands rfl
    rw [hstandingNone] at hstands
    cases hstands
  refine h.inherit (fun id k e he => ?_) (fun _ _ _ status _ hstands _ => (hstanding _ _).trans hstands) ?placed
    ?entered ?own ?published
  · by_cases hid : id = new
    · subst hid
      obtain ⟨haway, _, id₀, e₀, he₀, _, hhome⟩ := hoffer k e he
      exact ⟨id₀, e₀, he₀, hhome, haway.trans (h.keyed id₀ k e₀ he₀).symm⟩
    · rw [hentry id k hid] at he
      exact ⟨id, e, he, rfl, rfl⟩
  case placed =>
    intro id k e he huse
    rw [hstanding]
    by_cases hid : id = new
    · subst hid
      rw [(hoffer k e he).2.1] at huse
      cases huse
    · rw [hentry id k hid] at he
      exact h.placed id k e he huse
  case entered =>
    intro id k status hstands huse
    rw [hstanding] at hstands
    rw [hentry id k (hother id k status hstands)]
    exact h.entered id k status hstands huse
  case own =>
    intro id k e he
    by_cases hid : id = new
    · subst hid
      obtain ⟨_, hstate, id₀, e₀, he₀, hstate₀, hhome⟩ := hoffer k e he
      refine iff_of_false (by simp [hstate]) ?_
      -- the home of an offer is the node that has the entry as its own, which the new one had not
      rw [hhome, (h.own id₀ k e₀ he₀).1 hstate₀]
      rintro rfl
      rw [hentryNone] at he₀
      cases he₀
    · rw [hentry id k hid] at he
      exact h.own id k e he
  case published =>
    intro id p status hstands hmerge
    rw [hstanding] at hstands
    obtain ⟨k, e, he, hrest⟩ := h.published id p status hstands hmerge
    exact ⟨k, e, (hentry id k (hother id p status hstands)).trans he, hrest⟩

/-! ## Changes that only take away -/

/-- Entries and places go. What goes on one side must not be missed on the other. -/
theorem shrink (h : before.Sound)
    (hentry : ∀ id k e, after.entry id k = some e → before.entry id k = some e)
    (hstanding : ∀ id k status, after.standing id k = some status → before.standing id k = some status)
    (hplaced : ∀ id k e, after.entry id k = some e → e.state = .inUse →
      after.standing id k = before.standing id k)
    (hentered : ∀ id k status e, after.standing id k = some status → before.entry id k = some e →
      e.state = .inUse → after.entry id k = some e)
    (hpublished : ∀ id p status k e, after.standing id p = some status → before.entry id k = some e →
      e.state = .home → e.home = ⟨id, p⟩ → after.entry id k = some e)
    (hhoused : ∀ id k e, after.entry id k = some e →
      after.standing e.home.node e.home.place = before.standing e.home.node e.home.place) :
    after.Sound := by
  refine h.inherit (fun id k e he => ⟨id, e, hentry id k e he, rfl, rfl⟩)
    (fun id k e status he hstands _ => (hhoused id k e he).trans hstands) ?placed ?entered ?own ?published
  case placed =>
    intro id k e he huse
    rw [hplaced id k e he huse]
    exact h.placed id k e (hentry id k e he) huse
  case entered =>
    intro id k status hstands huse
    obtain ⟨e, he, hstate, hhome⟩ := h.entered id k status (hstanding id k status hstands) huse
    exact ⟨e, hentered id k status e hstands he hstate, hstate, hhome⟩
  case own =>
    intro id k e he
    exact h.own id k e (hentry id k e he)
  case published =>
    intro id p status hstands hmerge
    obtain ⟨k, e, he, hstate, hhome⟩ := h.published id p status (hstanding id p status hstands) hmerge
    exact ⟨k, e, hpublished id p status k e hstands he hstate hhome, hstate, hhome⟩

/-- A node declines what it is offered. -/
theorem decline (h : before.Sound) {id : NodeId} {key : String} {e : InterfacePlace}
    (hfound : before.entry id key = some e) (hstate : e.state = .available)
    (hentry : ∀ n k, after.entry n k = if n = id ∧ k = key then none else before.entry n k)
    (hstanding : ∀ n k, after.standing n k = before.standing n k) : after.Sound := by
  -- what goes is neither in use nor a home
  have hkept : ∀ n k e', before.entry n k = some e' → e'.state ≠ .available →
      after.entry n k = some e' := by
    intro n k e' he' hnot
    rw [hentry, if_neg ?_, he']
    rintro ⟨rfl, rfl⟩
    rw [hfound] at he'
    cases he'
    exact hnot hstate
  refine h.shrink (fun n k e' he' => ?_) (fun n k status hstands => ?_) (fun n k _ _ _ => hstanding n k)
    (fun n k _ e' _ he' huse => hkept n k e' he' (by simp [huse]))
    (fun n _ _ k e' _ he' hhome _ => hkept n k e' he' (by simp [hhome])) fun _ _ _ _ => hstanding _ _
  · rw [hentry] at he'
    split at he'
    · cases he'
    · exact he'
  · rwa [hstanding] at hstands

/-- A place leaves the interface, and the entries for it go from all maps. The guard looks for users of
its key. -/
theorem withdraw (h : before.Sound) {id : NodeId} {key : String} {e : InterfacePlace}
    (hfound : before.entry id key = some e) (hstate : e.state = .home)
    (hunused : ∀ n e', before.entry n key = some e' → e'.state ≠ .inUse)
    (hentry : ∀ n k, after.entry n k = (before.entry n k).filter fun e' => !(k == key && e'.home == e.home))
    (hstanding : ∀ n k, after.standing n k =
      if n = id ∧ k = e.home.place then none else before.standing n k) : after.Sound := by
  have hnode : e.home.node = id := (h.own id key e hfound).1 hstate
  have hsub : ∀ n k e', after.entry n k = some e' → before.entry n k = some e' ∧ e'.home ≠ e.home := by
    intro n k e' he'
    rw [hentry, Option.filter_eq_some_iff] at he'
    obtain ⟨he', hkeep⟩ := he'
    refine ⟨he', fun hhome => ?_⟩
    -- an entry for the home has the key, and went with the others
    have hkey : k = key := h.agree n k e' id key e he' hfound hhome
    simp [hkey, hhome] at hkeep
  have hkept : ∀ n k e', before.entry n k = some e' → ¬(k = key ∧ e'.home = e.home) →
      after.entry n k = some e' := by
    intro n k e' he' hnot
    rw [hentry, Option.filter_eq_some_iff]
    refine ⟨he', ?_⟩
    by_cases hkey : k = key
    · have hother : e'.home ≠ e.home := fun hhome => hnot ⟨hkey, hhome⟩
      simp [hother]
    · simp [hkey]
  -- the place that leaves the interface is a home
  obtain ⟨status, hstatus, hmerge⟩ := h.housed id key e hfound
  rw [hnode] at hstatus
  refine h.shrink (fun n k e' he' => (hsub n k e' he').1) (fun n k found hstands => ?_)
    (fun n k e' he' huse => ?_) (fun n k found e' hstands he' huse => ?_)
    (fun n p found k e' hstands he' _ hhome => ?_) fun n k e' he' => ?_
  · rw [hstanding] at hstands
    split at hstands
    · cases hstands
    · exact hstands
  -- a place that stands for a home is none itself
  · rw [hstanding, if_neg ?_]
    rintro ⟨rfl, rfl⟩
    obtain ⟨found, hstands, hfoundMerge, _⟩ := h.placed _ _ e' (hsub _ _ e' he').1 huse
    rw [hstatus] at hstands
    cases hstands
    rw [hmerge] at hfoundMerge
    cases hfoundMerge
  -- an entry in use under the key would have kept the place where it is
  · refine hkept n k e' he' ?_
    rintro ⟨rfl, _⟩
    exact hunused n e' he' huse
  -- the home whose entry goes has no standing any more
  · refine hkept n k e' he' ?_
    rintro ⟨_, hsame⟩
    rw [hstanding, if_pos ?_] at hstands
    · cases hstands
    · rw [← hsame, hhome] at hnode ⊢
      exact ⟨hnode, rfl⟩
  -- and the homes of all entries that are left still stand
  · rw [hstanding, if_neg ?_]
    rintro ⟨hsameNode, hsamePlace⟩
    refine (hsub n k e' he').2 ?_
    have hsame : e'.home.node = e.home.node := hsameNode.trans hnode.symm
    cases hhome' : e'.home
    cases hhome : e.home
    simp_all

/-- Nodes go, and with them the entries for their places. The guard looks for users that stay. -/
theorem cut (h : before.Sound) {doomed : List NodeId}
    (hunused : ∀ n k e, n ∉ doomed → before.entry n k = some e → e.state = .inUse → e.home.node ∉ doomed)
    (hentry : ∀ n k, after.entry n k =
      if n ∈ doomed then none else (before.entry n k).filter fun e => !doomed.contains e.home.node)
    (hstanding : ∀ n k, after.standing n k = if n ∈ doomed then none else before.standing n k) :
    after.Sound := by
  have hsub : ∀ n k e, after.entry n k = some e ↔
      n ∉ doomed ∧ before.entry n k = some e ∧ e.home.node ∉ doomed := by
    intro n k e
    rw [hentry]
    by_cases hn : n ∈ doomed
    · simp [hn]
    · simp [hn, Option.filter_eq_some_iff]
  have hstays : ∀ n k status, after.standing n k = some status ↔
      n ∉ doomed ∧ before.standing n k = some status := by
    intro n k status
    rw [hstanding]
    by_cases hn : n ∈ doomed <;> simp [hn]
  refine h.shrink (fun n k e he => ((hsub n k e).1 he).2.1) (fun n k status hs => ((hstays n k status).1 hs).2)
    (fun n k e he _ => ?_) (fun n k status e hs he huse => ?_) (fun n p status k e hs he hstate _ => ?_)
    fun n k e he => ?_
  · rw [hstanding, if_neg ((hsub n k e).1 he).1]
  -- a user that stays uses nothing that goes
  · have hn := ((hstays n k status).1 hs).1
    exact (hsub n k e).2 ⟨hn, he, hunused n k e hn he huse⟩
  -- a node that stays is the home of its own places
  · have hn := ((hstays n p status).1 hs).1
    exact (hsub n k e).2 ⟨hn, he, by rwa [(h.own n k e he).1 hstate]⟩
  · rw [hstanding, if_neg ((hsub n k e).1 he).2.2]

/-! ## Another key -/

/-- An entry that some nodes have under one key gets another key, and so does the place behind it where the
entry is in use. Every node that knows of the home is among those nodes, so that they go on agreeing on the
key. -/
theorem rekey (h : before.Sound) (moved : NodeId → Prop) [DecidablePred moved] {old new : String}
    (hfree : ∀ id, moved id → before.entry id new = none)
    (hfresh : ∀ id e, moved id → before.entry id old = some e → e.state = .inUse →
      before.standing id new = none)
    (hwhole : ∀ id e, moved id → before.entry id old = some e → ∀ id' key' e',
      before.entry id' key' = some e' → e'.home = e.home → moved id')
    (hentry : ∀ id k, after.entry id k =
      if moved id then
        if k = new then (before.entry id old).map fun e => { e with awayId := new }
        else if k = old then none else before.entry id k
      else before.entry id k)
    (hplain : ∀ id, ¬(moved id ∧ ∃ e, before.entry id old = some e ∧ e.state = .inUse) → ∀ k,
      after.standing id k = before.standing id k)
    (hstanding : ∀ id e, moved id → before.entry id old = some e → e.state = .inUse → ∀ k,
      after.standing id k =
        if k = new then before.standing id old else if k = old then none else before.standing id k) :
    after.Sound := by
  -- an entry of after is one of before under another key, or one that was not concerned
  have hcase : ∀ id k e, after.entry id k = some e →
      (moved id ∧ k = new ∧ ∃ e₀, before.entry id old = some e₀ ∧ e = { e₀ with awayId := new }) ∨
        (before.entry id k = some e ∧ (moved id → k ≠ old ∧ k ≠ new)) := by
    intro id k e he
    rw [hentry] at he
    split at he
    · rename_i hmoved
      split at he
      · rename_i hnew
        obtain ⟨e₀, he₀, rfl⟩ := Option.map_eq_some_iff.1 he
        exact Or.inl ⟨hmoved, hnew, e₀, he₀, rfl⟩
      · rename_i hnew
        split at he
        · cases he
        · rename_i hold
          exact Or.inr ⟨he, fun _ => ⟨hold, hnew⟩⟩
    · rename_i hmoved
      exact Or.inr ⟨he, fun h => absurd h hmoved⟩
  have hkept : ∀ id k e, before.entry id k = some e →
      ∃ k' e', after.entry id k' = some e' ∧ e'.home = e.home ∧ e'.state = e.state := by
    intro id k e he
    by_cases hmoved : moved id
    · by_cases hold : k = old
      · subst hold
        exact ⟨new, { e with awayId := new }, by rw [hentry, if_pos hmoved, if_pos rfl, he]; rfl, rfl, rfl⟩
      · have hnew : k ≠ new := by
          rintro rfl
          rw [hfree id hmoved] at he
          cases he
        exact ⟨k, e, by rw [hentry, if_pos hmoved, if_neg hnew, if_neg hold, he], rfl, rfl⟩
    · exact ⟨k, e, by rw [hentry, if_neg hmoved, he], rfl, rfl⟩
  -- homes stay where they are: what gets another name stands for a home elsewhere
  have hhomes : ∀ id p status, status.merge = .home →
      (after.standing id p = some status ↔ before.standing id p = some status) := by
    intro id p status hmerge
    by_cases hused : moved id ∧ ∃ e, before.entry id old = some e ∧ e.state = .inUse
    · obtain ⟨hmoved, e, he, huse⟩ := hused
      obtain ⟨found, hfound, hfoundMerge, _⟩ := h.placed id old e he huse
      have hne : found ≠ status := by
        rintro rfl
        rw [hmerge] at hfoundMerge
        cases hfoundMerge
      rw [hstanding id e hmoved he huse]
      by_cases hnew : p = new
      · rw [if_pos hnew, hnew, hfresh id e hmoved he huse, hfound]
        simp [hne]
      · by_cases hold : p = old
        · rw [if_neg hnew, if_pos hold, hold, hfound]
          simp [hne]
        · rw [if_neg hnew, if_neg hold]
    · rw [hplain id hused]
  refine ⟨⟨?placed, ?entered, ?own, ?published, ?housed⟩, ?keyed, ?agree⟩
  case placed =>
    intro id k e he huse
    rcases hcase id k e he with ⟨hmoved, rfl, e₀, he₀, rfl⟩ | ⟨he₀, hother⟩
    · obtain ⟨status, hstands, hrest⟩ := h.placed id old e₀ he₀ huse
      exact ⟨status, by rw [hstanding id e₀ hmoved he₀ huse, if_pos rfl, hstands], hrest⟩
    · obtain ⟨status, hstands, hrest⟩ := h.placed id k e he₀ huse
      refine ⟨status, ?_, hrest⟩
      by_cases hused : moved id ∧ ∃ e, before.entry id old = some e ∧ e.state = .inUse
      · obtain ⟨hmoved, e₁, he₁, huse₁⟩ := hused
        obtain ⟨hold, hnew⟩ := hother hmoved
        rw [hstanding id e₁ hmoved he₁ huse₁, if_neg hnew, if_neg hold, hstands]
      · rw [hplain id hused, hstands]
  case entered =>
    intro id k status hstands huse
    by_cases hused : moved id ∧ ∃ e, before.entry id old = some e ∧ e.state = .inUse
    · obtain ⟨hmoved, e₁, he₁, huse₁⟩ := hused
      rw [hstanding id e₁ hmoved he₁ huse₁] at hstands
      by_cases hnew : k = new
      · rw [if_pos hnew] at hstands
        obtain ⟨e, he, hstate, hhome⟩ := h.entered id old status hstands huse
        exact ⟨{ e with awayId := new }, by rw [hentry, if_pos hmoved, if_pos hnew, he]; rfl, hstate, hhome⟩
      · rw [if_neg hnew] at hstands
        split at hstands
        · cases hstands
        · rename_i hold
          obtain ⟨e, he, hrest⟩ := h.entered id k status hstands huse
          exact ⟨e, by rw [hentry, if_pos hmoved, if_neg hnew, if_neg hold, he], hrest⟩
    · rw [hplain id hused] at hstands
      obtain ⟨e, he, hstate, hhome⟩ := h.entered id k status hstands huse
      refine ⟨e, ?_, hstate, hhome⟩
      rw [hentry]
      split
      -- an entry in use that moved would have taken the place with it
      · rename_i hmoved
        have hold : k ≠ old := fun heq => hused ⟨hmoved, e, heq ▸ he, hstate⟩
        have hnew : k ≠ new := by
          rintro rfl
          rw [hfree id hmoved] at he
          cases he
        rw [if_neg hnew, if_neg hold, he]
      · exact he
  case own =>
    intro id k e he
    rcases hcase id k e he with ⟨_, _, e₀, he₀, rfl⟩ | ⟨he₀, _⟩
    · exact h.own id old e₀ he₀
    · exact h.own id k e he₀
  case published =>
    intro id p status hstands hmerge
    obtain ⟨k, e, he, hstate, hhome⟩ := h.published id p status ((hhomes id p status hmerge).1 hstands) hmerge
    obtain ⟨k', e', he', hhome', hstate'⟩ := hkept id k e he
    exact ⟨k', e', he', hstate'.trans hstate, hhome'.trans hhome⟩
  case housed =>
    intro id k e he
    rcases hcase id k e he with ⟨_, _, e₀, he₀, rfl⟩ | ⟨he₀, _⟩
    · obtain ⟨status, hstands, hmerge⟩ := h.housed id old e₀ he₀
      exact ⟨status, (hhomes _ _ status hmerge).2 hstands, hmerge⟩
    · obtain ⟨status, hstands, hmerge⟩ := h.housed id k e he₀
      exact ⟨status, (hhomes _ _ status hmerge).2 hstands, hmerge⟩
  case keyed =>
    intro id k e he
    rcases hcase id k e he with ⟨_, rfl, _, _, rfl⟩ | ⟨he₀, _⟩
    · rfl
    · exact h.keyed id k e he₀
  case agree =>
    intro id k e id' k' e' he he' hsame
    rcases hcase id k e he with ⟨hmoved, rfl, e₀, he₀, rfl⟩ | ⟨he₀, hother⟩ <;>
      rcases hcase id' k' e' he' with ⟨hmoved', rfl, e₀', he₀', rfl⟩ | ⟨he₀', hother'⟩
    · rfl
    -- a node that knows of the home moved too, so it has no entry for it under the old key
    · have hkey := h.agree id old e₀ id' k' e' he₀ he₀' hsame
      have hmoved' := hwhole id e₀ hmoved he₀ id' k' e' he₀' hsame.symm
      exact absurd hkey.symm (hother' hmoved').1
    · have hkey := h.agree id k e id' old e₀' he₀ he₀' hsame
      have hmoved := hwhole id' e₀' hmoved' he₀' id k e he₀ hsame
      exact absurd hkey (hother hmoved).1
    · exact h.agree id k e id' k' e' he₀ he₀' hsame

end Sound

end Ledger

end PetriTree
