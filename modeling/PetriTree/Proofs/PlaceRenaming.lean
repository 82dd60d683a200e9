import PetriTree.Proofs.Integrity
import PetriTree.Proofs.Renaming
import PetriTree.Proofs.Sample

/-!
# PetriTree — a place under another name

A place that gets another name keeps its seat among the places, and everything that is attached to it or mentions
it follows. Arcs refer to a place by its id, and there the new name stands at once. Expressions are texts: one that
mentions the place is read, the name is put in, and the text is written again, which goes well if the name is a
word and all numbers of the expression have a text.

Ids of places may have any characters. A name that is no word is put into a text as it is, and what comes out is
another expression, or none: `Q)+#(P` for a name leaves the mention of the old name that it brings along. A number
that is too great for any value becomes the name of a parameter.

Main results:
* `Expr.printable_renamed_iff` — when an expression can be written with the new name;
* `Net.renames_renamePlace` — what becomes of every part of a net;
* `Net.old_name_stays` — a net that mentions the old name afterwards.
-/

namespace PetriTree

/-! ## Texts -/

namespace Expr

variable {old new text : String} {e : Expr}

/-- The expression with the place under its new name. -/
def withPlace (old new : String) (e : Expr) : Expr := e.rename (Table.renamed old new) id

theorem withPlace_of_notMem (h : old ∉ e.placeMentions) : e.withPlace old new = e :=
  rename_eq_self (fun place hplace => if_neg fun heq : place = old => h (heq ▸ hplace)) fun _ _ => rfl

theorem isWord_renamed {place : String} (hplace : IsWord place) (hnew : IsWord new) :
    IsWord (Table.renamed old new place) := by
  rw [Table.renamed]
  split
  · exact hnew
  · exact hplace

/-- An expression that mentions the place can be written with its new name exactly if its numbers are finite and
the name is a word. -/
theorem printable_renamed_iff (he : ofText text = .ok e) (hold : old ∈ e.placeMentions) :
    (e.withPlace old new).Printable ↔ e.FiniteNumbers ∧ IsWord new := by
  constructor
  · intro h
    have hplaces := h.mentions.1
    rw [withPlace, placeMentions_rename, List.forall_mem_map] at hplaces
    have hnew := hplaces old hold
    rw [Table.renamed, if_pos rfl] at hnew
    exact ⟨h.of_rename.imp (fun _ hvalue => (Number.isPlain_iff.1 hvalue).1) (fun _ h => h) fun _ h => h, hnew⟩
  · rintro ⟨hfinite, hnew⟩
    exact Formed.rename (printable_of_ofText he hfinite) (fun _ hplace => isWord_renamed hplace hnew) fun _ h => h

/-- With a word for its new name an expression is written as something that reads back, and mentions what it should,
whatever its numbers are. -/
theorem exists_read_withPlace (he : ofText text = .ok e) (hnew : IsWord new) :
    ∃ read, ofText (e.withPlace old new).text = .ok read ∧
      read.placeMentions = e.placeMentions.map (Table.renamed old new) := by
  have hwritten : (e.withPlace old new).Written :=
    Formed.rename (written_of_ofText he) (fun _ hplace => isWord_renamed hplace hnew) fun _ h => h
  -- a number without a text comes back as a parameter, which leaves the places alone
  obtain ⟨read, hread, hchars, hplaces⟩ := hwritten.exists_printable
  have hback := ofText_text hread
  rw [Expr.text, hchars, ← Expr.text] at hback
  exact ⟨read, hback, hplaces.trans (placeMentions_rename e)⟩

end Expr

/-- What a text is once the place is called otherwise. -/
structure RenamesPlace (old new text text' : String) : Prop where
  /-- What is no expression, and what does not mention the place, stays as it is written. -/
  stays : (∀ e, Expr.ofText text = .ok e → old ∉ e.placeMentions) → text' = text
  /-- Any other expression reads as itself with the new name, if it can be written so. -/
  reads : ∀ e, Expr.ofText text = .ok e → (Expr.ofText text' = .ok (e.withPlace old new) ↔
    (old ∈ e.placeMentions → e.FiniteNumbers ∧ Expr.IsWord new))
  mentions : Expr.IsWord new → ∀ e, Expr.ofText text = .ok e → ∃ read, Expr.ofText text' = .ok read ∧
    read.placeMentions = e.placeMentions.map (Table.renamed old new)

namespace Net

variable {old new text : String} {net after : Net}

theorem renameInText_of_ok {e : Expr} (he : Expr.ofText text = .ok e) :
    renameInText old new text = if old ∈ e.placeMentions then (e.withPlace old new).text else text := by
  delta renameInText
  rw [he]
  simp only [Expr.mentionsPlace, List.contains_iff_mem]
  rfl

theorem renameInText_of_error {problem : ExprError} (he : Expr.ofText text = .error problem) :
    renameInText old new text = text := by
  delta renameInText
  rw [he]

theorem textMentions_of_ok {place : String} {e : Expr} (he : Expr.ofText text = .ok e) :
    textMentions place text = e.mentionsPlace place := by
  delta textMentions
  rw [he]

theorem textMentions_of_error {place : String} {problem : ExprError} (he : Expr.ofText text = .error problem) :
    textMentions place text = false := by
  delta textMentions
  rw [he]

theorem renamesPlace_renameInText (old new text : String) :
    RenamesPlace old new text (renameInText old new text) := by
  cases he : Expr.ofText text with
  | error problem =>
    have hnone : ∀ e, Expr.ofText text ≠ .ok e := fun e h => by
      rw [he] at h
      cases h
    exact ⟨fun _ => renameInText_of_error he, fun e h => absurd h (hnone e), fun _ e h => absurd h (hnone e)⟩
  | ok e =>
    rw [renameInText_of_ok he]
    by_cases hold : old ∈ e.placeMentions
    · rw [if_pos hold]
      refine ⟨fun h => absurd hold (h e he), fun found hfound => ?_, fun hnew found hfound => ?_⟩
      · cases Except.ok.inj (he.symm.trans hfound)
        rw [forall_prop_of_true hold, ← Expr.printable_renamed_iff he hold]
        exact ⟨Expr.printable_of_ofText_text, Expr.ofText_text⟩
      · cases Except.ok.inj (he.symm.trans hfound)
        exact Expr.exists_read_withPlace he hnew
    · rw [if_neg hold]
      refine ⟨fun _ => rfl, fun found hfound => ?_, fun _ found hfound => ⟨found, hfound, ?_⟩⟩
      · cases Except.ok.inj (he.symm.trans hfound)
        rw [Expr.withPlace_of_notMem hold]
        exact ⟨fun _ h => absurd h hold, fun _ => he⟩
      · cases Except.ok.inj (he.symm.trans hfound)
        have hself : (e.withPlace old new).placeMentions = e.placeMentions :=
          congrArg Expr.placeMentions (Expr.withPlace_of_notMem hold)
        rw [Expr.withPlace, Expr.placeMentions_rename] at hself
        exact hself.symm

end Net

/-- Under a word for its new name the place is mentioned by its old name no more. -/
theorem RenamesPlace.textMentions {old new text text' : String} (h : RenamesPlace old new text text')
    (hne : new ≠ old) (hnew : Expr.IsWord new) : Net.textMentions old text' = false := by
  cases he : Expr.ofText text with
  | error problem =>
    have hstays := h.stays fun e hread => by
      rw [he] at hread
      cases hread
    rw [hstays, Net.textMentions_of_error he]
  | ok e =>
    obtain ⟨read, hread, hmentions⟩ := h.mentions hnew e he
    have hgone : old ∉ read.placeMentions := by
      rw [hmentions]
      intro hmem
      obtain ⟨place, _, heq⟩ := List.mem_map.1 hmem
      rw [Table.renamed] at heq
      split at heq
      · exact hne heq
      · contradiction
    rw [Net.textMentions_of_ok hread, Bool.eq_false_iff]
    simpa only [Expr.mentionsPlace, List.contains_iff_mem, ne_eq] using hgone

/-! ## Nets -/

/-- What an arc is once the place is called otherwise: on the side of the place the new name stands for the old
one, and the weights follow. -/
structure Arc.RenamesPlace (old new : String) (arc arc' : Arc) : Prop where
  place : arc'.place = Table.renamed old new arc.place
  rest : { arc' with place := arc.place, weights := arc.weights } = arc
  weights : List.Forall₂ (fun e d => d.1 = e.1 ∧ PetriTree.RenamesPlace old new e.2 d.2)
    arc.weights.entries arc'.weights.entries

/-- A rate is a text, or the name of a parameter, which is none of a place. -/
def Rate.RenamesPlace (old new : String) : Rate → Rate → Prop
  | .expression text, rate => ∃ text', rate = .expression text' ∧ PetriTree.RenamesPlace old new text text'
  | .parameter id, rate => rate = .parameter id

/-- What a net is once a place of it is called otherwise. -/
structure Net.RenamesPlace (old new : String) (net after : Net) : Prop where
  /-- The place keeps its seat and everything but its id, and the other places are as they were. -/
  places : after.places.entries =
    net.places.entries.map fun e => if e.1 = old then (new, { e.2 with id := new }) else e
  arcs : List.Forall₂ (fun e d => d.1 = e.1 ∧ e.2.RenamesPlace old new d.2) net.arcs.entries after.arcs.entries
  parameters : List.Forall₂ (fun e d => d.1 = e.1 ∧ d.2.id = e.2.id ∧
    PetriTree.RenamesPlace old new e.2.expression d.2.expression) net.parameters.entries after.parameters.entries
  transitions : List.Forall₂ (fun e d => d.1 = e.1 ∧ { d.2 with rate := e.2.rate } = e.2 ∧
    e.2.rate.RenamesPlace old new d.2.rate) net.transitions.entries after.transitions.entries
  rest : after.colors = net.colors ∧ after.notes = net.notes ∧ after.name = net.name
  /-- No arc is attached to the old name. -/
  detached : ∀ arc ∈ after.arcs.values, arc.place ≠ old
  /-- With a word for the new name, nothing refers to the old one. -/
  unmentioned : Expr.IsWord new → after.references old = []

namespace Net

variable {old new : String} {net after : Net}

theorem ne_of_renamePlace (h : net.renamePlace old new = .ok after) : new ≠ old := by
  obtain ⟨hfresh, ⟨place, hplace⟩, _⟩ := renamePlace_eq_ok h
  rintro rfl
  have hfree := contains_places_of_isNode hfresh
  rw [Table.contains, hplace] at hfree
  cases hfree

/-- The entry of the place is in its seat with a new key and a new id. -/
theorem entries_places_renamed {places : Table Place} (hfree : places.contains new = false) :
    ((places.rename old new).modify new fun p => { p with id := new }).entries =
      places.entries.map fun e => if e.1 = old then (new, { e.2 with id := new }) else e := by
  have hnames : new ∉ places.names := by
    rw [Table.mem_names_iff, hfree]
    exact Bool.false_ne_true
  -- the key is replaced first, and then the id is set under the new key, which no other entry has
  rw [Table.modify, Table.map, Table.rename, dif_neg hnames]
  simp only [List.map_map]
  refine List.map_congr_left fun e he => ?_
  have hne : e.1 ≠ new := fun heq => hnames (heq ▸ List.mem_map_of_mem he)
  rw [Function.comp_apply, Table.renamed]
  by_cases hold : e.1 = old
  · rw [if_pos hold, if_pos hold, if_pos rfl]
  · rw [if_neg hold, if_neg hold, if_neg hne]

theorem forall₂_entries_map {α β : Type} {t : Table α} {f : String → α → β} {R : String × α → String × β → Prop}
    (h : ∀ e ∈ t.entries, R e (e.1, f e.1 e.2)) : List.Forall₂ R t.entries (t.map f).entries :=
  List.forall₂_map_right_iff.2 (List.forall₂_same.2 h)

theorem arc_renamesPlace (old new : String) (arc : Arc) : arc.RenamesPlace old new { arc with
    place := Table.renamed old new arc.place
    weights := arc.weights.map fun _ => renameInText old new } where
  place := rfl
  rest := rfl
  weights := forall₂_entries_map fun e _ => ⟨rfl, renamesPlace_renameInText old new e.2⟩

theorem rate_renamesPlace (old new : String) : ∀ rate : Rate, rate.RenamesPlace old new (renameInRate old new rate)
  | .expression text => ⟨_, rfl, renamesPlace_renameInText old new text⟩
  | .parameter _ => rfl

theorem references_eq_nil {place : String}
    (harcs : ∀ arc ∈ net.arcs.values, arc.place ≠ place ∧
      ∀ text ∈ arc.weights.values, textMentions place text = false)
    (hparameters : ∀ p ∈ net.parameters.values, textMentions place p.expression = false)
    (htransitions : ∀ t ∈ net.transitions.values, ∀ text, t.rate = .expression text →
      textMentions place text = false) : net.references place = [] := by
  rw [references, List.append_eq_nil_iff, List.append_eq_nil_iff, List.filterMap_eq_nil_iff,
    List.filterMap_eq_nil_iff, List.filterMap_eq_nil_iff]
  refine ⟨⟨fun arc harc => ?_, fun p hp => ?_⟩, fun t ht => ?_⟩
  · obtain ⟨hplace, hweights⟩ := harcs arc harc
    have hany : arc.weights.values.any (textMentions place) = false :=
      List.any_eq_false.2 fun text htext => by rw [hweights text htext]; exact Bool.false_ne_true
    rw [arcReference, if_neg hplace, hany]
    rfl
  · rw [parameterReference, hparameters p hp]
    rfl
  · rw [transitionReference]
    split
    · rename_i text hrate
      rw [htransitions t ht text hrate]
      rfl
    · rfl

/-- Renaming a place renames every use of it and nothing else. An expression that mentions the place reads as
itself under the new name exactly if its numbers are finite and the name is a word. -/
theorem renames_renamePlace (h : net.renamePlace old new = .ok after) : net.RenamesPlace old new after := by
  have hne := ne_of_renamePlace h
  obtain ⟨hfresh, _, rfl⟩ := renamePlace_eq_ok h
  have hfree := contains_places_of_isNode hfresh
  have hdetached : ∀ arc : Arc, Table.renamed old new arc.place ≠ old := fun arc => by
    rw [Table.renamed]
    split
    · exact hne
    · assumption
  refine ⟨entries_places_renamed hfree, forall₂_entries_map fun e _ => ⟨rfl, arc_renamesPlace old new e.2⟩,
    forall₂_entries_map fun e _ => ⟨rfl, rfl, renamesPlace_renameInText old new e.2.expression⟩,
    forall₂_entries_map fun e _ => ⟨rfl, rfl, rate_renamesPlace old new e.2.rate⟩, ⟨rfl, rfl, rfl⟩,
    fun arc harc => ?_, fun hnew => ?_⟩
  · obtain ⟨_, before, _, rfl⟩ := Table.mem_values_map harc
    exact hdetached before
  -- every text of the net is one that was renamed, so none of them mentions the old name
  · have hgone : ∀ text, textMentions old (renameInText old new text) = false := fun text =>
      (renamesPlace_renameInText old new text).textMentions hne hnew
    refine references_eq_nil (fun arc harc => ?_) (fun p hp => ?_) fun t ht text hrate => ?_
    · obtain ⟨_, before, _, rfl⟩ := Table.mem_values_map harc
      refine ⟨hdetached before, fun text htext => ?_⟩
      obtain ⟨_, source, _, rfl⟩ := Table.mem_values_map htext
      exact hgone source
    · obtain ⟨_, before, _, rfl⟩ := Table.mem_values_map hp
      exact hgone before.expression
    · obtain ⟨_, before, _, rfl⟩ := Table.mem_values_map ht
      obtain ⟨source, htext⟩ : ∃ source, renameInText old new source = text := by
        cases hbefore : before.rate with
        | expression source =>
          rw [hbefore, renameInRate] at hrate
          exact ⟨source, Rate.expression.inj hrate⟩
        | parameter id =>
          rw [hbefore, renameInRate] at hrate
          cases hrate
      exact htext ▸ hgone source

/-- A transition that takes as much from a place as the place has. -/
def drain : Net := Sample.netOf [Sample.place "P" 2, Sample.place "R" 0, Sample.transition "T" (.expression "1"),
  Sample.arc "a" "P" "T" .placeToTransition "#(P)"]

/-- With a word for its new name the place is gone by its old one. -/
theorem renames_renamePlace_drain : drain.Built ∧ ∃ after, drain.renamePlace "P" "Q" = .ok after ∧
    drain.RenamesPlace "P" "Q" after ∧ after.places.names = ["Q", "R"] ∧ after.references "P" = [] := by
  have hrun : (drain.renamePlace "P" "Q").map (fun net => net.places.names) = .ok ["Q", "R"] := by decide +kernel
  obtain ⟨after, hafter, hnames⟩ := map_eq_ok.1 hrun
  have hrenames := renames_renamePlace hafter
  exact ⟨Sample.built_netOf _, after, hafter, hrenames, hnames, hrenames.unmentioned (by decide)⟩

/-- A name that is no word has the weight read as a sum, in which the old name stands again. -/
theorem old_name_stays : drain.Built ∧ Expr.ofText "#(P)" = .ok (.tokens "P" none) ∧
    ∃ after, drain.renamePlace "P" "Q)+#(P" = .ok after ∧
      (after.arcs.get? "a").map (fun arc => arc.weights.values) = some ["#(Q)+#(P)"] ∧
      Expr.ofText "#(Q)+#(P)" ≠ .ok ((Expr.tokens "P" none).withPlace "P" "Q)+#(P") ∧
      (Expr.ofText "#(Q)+#(P)").map Expr.placeMentions = .ok ["Q", "P"] ∧
      after.references "P" = [.arcWeight "a"] := by
  have hread : Expr.ofText "#(P)" = .ok (.tokens "P" none) :=
    Expr.ofText_text (e := .tokens "P" none) (.tokens (by decide) nofun)
  have hrun : (drain.renamePlace "P" "Q)+#(P").map (fun net =>
      ((net.arcs.get? "a").map (fun arc => arc.weights.values), net.references "P")) =
        .ok (some ["#(Q)+#(P)"], [.arcWeight "a"]) := by decide +kernel
  obtain ⟨after, hafter, heq⟩ := map_eq_ok.1 hrun
  obtain ⟨hweight, hreferences⟩ := Prod.mk.inj heq
  have htext : renameInText "P" "Q)+#(P" "#(P)" = "#(Q)+#(P)" := by decide +kernel
  -- the text would read as the renamed weight only if the new name were a word
  have hreads := (renamesPlace_renameInText "P" "Q)+#(P" "#(P)").reads _ hread
  rw [htext] at hreads
  refine ⟨Sample.built_netOf _, hread, after, hafter, hweight, fun hread' => ?_, by decide +kernel, hreferences⟩
  have hnew := (hreads.1 hread' (List.mem_singleton.2 rfl)).2
  revert hnew
  decide

end Net

end PetriTree
