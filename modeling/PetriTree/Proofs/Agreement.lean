import PetriTree.Live.Net
import PetriTree.Proofs.Change
import PetriTree.Proofs.Firing
import PetriTree.Proofs.Locality

/-!
# PetriTree — markings that agree

Two markings agree when every place holds the same tokens in both. They need not be equal: one of them may
know a place that the other does not, as long as nothing is in it. Such a place comes into being when a
count is put back to zero, and it stays.

Nothing that a net is asked tells markings that agree apart, and firing leads from such markings to such
markings. So whoever follows a run by its counts may replace a marking by any other one that agrees with it.

Main results:
* `Marking.Agrees` — every count is the same;
* `Agrees.steady`, `Agrees.isEnabled`, `Agrees.enabledAmong` — every question has the same answer;
* `Agrees.fire` — firing is possible in both, and leads to markings that agree;
* `Agrees.diff` — the recorded differences are the same.
-/

namespace PetriTree

namespace Marking

/-- Does every place hold the same tokens in both markings? -/
def Agrees (m other : Marking) : Prop := ∀ place color, m.tokens place color = other.tokens place color

namespace Agrees

variable {m other third : Marking}

theorem refl (m : Marking) : m.Agrees m := fun _ _ => rfl

theorem symm (h : m.Agrees other) : other.Agrees m := fun place color => (h place color).symm

theorem trans (h : m.Agrees other) (h' : other.Agrees third) : m.Agrees third :=
  fun place color => (h place color).trans (h' place color)

/-- Markings that agree and know the same places are equal. -/
theorem eq (h : m.Agrees other) (hplaces : ∀ place, m.contains place = other.contains place) : m = other :=
  Marking.ext hplaces h

theorem holding (h : m.Agrees other) (place : String) : m.holding place = other.holding place :=
  Holding.ext (h place)

/-! ## Moving tokens -/

theorem put (h : m.Agrees other) (place color : String) (n : Count) :
    (m.put place color n).Agrees (other.put place color n) := by
  intro p c
  rw [tokens_put, tokens_put, h p c]

theorem withdraw {ts : List Transfer} {left : Marking} (h : m.Agrees other) (hleft : m.withdraw ts = some left) :
    ∃ rest, other.withdraw ts = some rest ∧ left.Agrees rest := by
  induction ts generalizing m other with
  | nil =>
    cases hleft
    exact ⟨other, rfl, h⟩
  | cons t ts ih =>
    rw [Marking.withdraw] at hleft ⊢
    rw [← h t.place t.color]
    split at hleft
    · cases hleft
    · rename_i after _
      exact ih (h.put t.place t.color after) hleft

theorem deposit (h : m.Agrees other) (ts : List Transfer) : (m.deposit ts).Agrees (other.deposit ts) := by
  induction ts generalizing m other with
  | nil => exact h
  | cons t ts ih =>
    rw [Marking.deposit, Marking.deposit, ← h t.place t.color]
    exact ih (h.put t.place t.color _)

end Agrees

end Marking

/-! ## Asking a net -/

namespace Marking.Agrees

variable {m other : Marking} {net : FlatNet}

/-- Whatever an expression reads, it has the same value. -/
theorem steady (h : m.Agrees other) (e : Expr) : net.Steady m other e :=
  FlatNet.steady_of_consults fun place _ => h place

theorem isEnabled (h : m.Agrees other) (transition : String) :
    net.isEnabled m transition = net.isEnabled other transition :=
  FlatNet.isEnabled_congr fun a _ _ => ⟨h a.arc.place, fun w _ => h.steady w.2⟩

/-- The schedule is asked for the same transitions. -/
theorem enabledAmong (h : m.Agrees other) (ts : List Transition) :
    LiveNet.enabledAmong net m ts = LiveNet.enabledAmong net other ts := by
  induction ts with
  | nil => rfl
  | cons t rest ih => simp only [LiveNet.enabledAmong, h.isEnabled, ih]

/-! ## Firing -/

theorem transfers (h : m.Agrees other) (arcs : List FlatArc) :
    net.transfers m arcs = net.transfers other arcs :=
  FlatNet.transfers_congr fun _ _ w _ => h.steady w.2

/-- The same tokens are taken and given, so the same counts are left. -/
theorem fire (h : m.Agrees other) {transition : String} {after : Marking}
    (hfire : net.fire m transition = .ok after) :
    ∃ reached, net.fire other transition = .ok reached ∧ after.Agrees reached := by
  obtain ⟨ts, left, us, hts, hleft, hus, rfl⟩ := FlatNet.fire_eq_ok hfire
  rw [h.transfers] at hts hus
  obtain ⟨rest, hrest, hagrees⟩ := h.withdraw hleft
  refine ⟨rest.deposit us, ?_, hagrees.deposit us⟩
  rw [FlatNet.fire_eq hts, hrest, Option.elim_some, hus]
  rfl

/-- The same places are written to. -/
theorem moved_of_fire (h : m.Agrees other) {transition : String} {after reached : Marking}
    (hfire : net.fire m transition = .ok after) (hother : net.fire other transition = .ok reached) :
    ∃ moved : List String, (∀ place, after.contains place = true ↔ m.contains place = true ∨ place ∈ moved) ∧
      ∀ place, reached.contains place = true ↔ other.contains place = true ∨ place ∈ moved := by
  obtain ⟨ts, left, us, hts, hleft, hus, rfl⟩ := FlatNet.fire_eq_ok hfire
  obtain ⟨ts', rest, us', hts', hrest, hus', rfl⟩ := FlatNet.fire_eq_ok hother
  rw [← h.transfers, hts] at hts'
  rw [← h.transfers, hus] at hus'
  cases hts'
  cases hus'
  exact ⟨(ts ++ us).map Transfer.place, fun _ => Marking.contains_moved_iff hleft,
    fun _ => Marking.contains_moved_iff hrest⟩

end Marking.Agrees

/-! ## Differences -/

namespace SortedSet

variable {κ : Type} [Ord κ] [Std.TransOrd κ] [Std.LawfulEqOrd κ]

theorem mem_iff_mem_entries {s : SortedSet κ} {key : κ} : key ∈ s ↔ (key, ()) ∈ s.marks.entries := by
  rw [mem_iff, Option.isSome_iff_exists, ← SortedMap.get?_eq_some_iff]
  constructor
  · rintro ⟨⟨⟩, hkey⟩
    exact hkey
  · intro hkey
    exact ⟨(), hkey⟩

/-- Going through a set skips whatever nothing comes of. -/
theorem flatMap_congr {β : Type} {s other : SortedSet κ} {f : κ → List β}
    (h : ∀ key, f key ≠ [] → (key ∈ s ↔ key ∈ other)) : s.toList.flatMap f = other.toList.flatMap f := by
  have hskip : ∀ keys : List κ, keys.flatMap f = (keys.filter fun key => !(f key).isEmpty).flatMap f := by
    intro keys
    induction keys with
    | nil => rfl
    | cons key rest ih =>
      cases hkey : f key with
      | nil => simp [hkey, ih]
      | cons first others => simp [hkey, ih]
  -- what is left of two ascending lists has the same members, so it is the same
  have hleft : (s.marks.entries.filter fun e => !(f e.1).isEmpty) =
      other.marks.entries.filter fun e => !(f e.1).isEmpty := by
    refine SortedMap.entries_eq_of_mem_iff (s.marks.ascending.sublist List.filter_sublist)
      (other.marks.ascending.sublist List.filter_sublist) ?_
    rintro ⟨key, ⟨⟩⟩
    rw [List.mem_filter, List.mem_filter]
    refine and_congr_left fun hkey => ?_
    rw [← mem_iff_mem_entries, ← mem_iff_mem_entries]
    refine h key ?_
    intro hnil
    simp [hnil] at hkey
  rw [hskip, hskip other.toList, toList, toList, SortedMap.keys, SortedMap.keys, List.filter_map, List.filter_map]
  exact congrArg (fun entries => (entries.map Prod.fst).flatMap f) hleft

end SortedSet

/-- Differences are recorded count by count: a place that holds nothing leaves no trace in them. -/
theorem Marking.Agrees.diff {before after before' after' : Marking} (hbefore : before.Agrees before')
    (hafter : after.Agrees after') : TokenChange.diff before after = TokenChange.diff before' after' := by
  have hplace : ∀ place, TokenChange.inPlace place (before.holding place) (after.holding place) =
      TokenChange.inPlace place (before'.holding place) (after'.holding place) := by
    intro place
    rw [hbefore.holding, hafter.holding]
  rw [TokenChange.diff, TokenChange.diff]
  simp only [← hplace]
  refine SortedSet.flatMap_congr fun place hdiffers => ?_
  exact iff_of_true (TokenChange.mem_keys_of_inPlace hdiffers)
    (TokenChange.mem_keys_of_inPlace (hplace place ▸ hdiffers))

end PetriTree
