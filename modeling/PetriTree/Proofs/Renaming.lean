import PetriTree.Proofs.Merge
import PetriTree.Proofs.Printer

/-!
# PetriTree — renaming through texts

When a tree is joined its expressions are still texts, and each renaming reads a text and writes it
again. What the text of a weight reads as in the end is one renaming of what it read as at first: the
copy qualifies its words, and every merge redirects one of them.

Main results:
* `Expr.evaluate_rename` — renaming an expression is looking up other things;
* `Assembly.ofText_of_renameText` — renaming a text is renaming its expression;
* `Arc.Renamed` — an arc with its place and the words of its weights renamed;
* `Assembly.renamed_of_foldlM` — all merges together rename an arc once.
-/

namespace PetriTree

namespace Expr

/-! ## Renaming expressions -/

variable {places places' parameters parameters' : String → String}

theorem renameAll_eq (arguments : List Expr) :
    renameAll places parameters arguments = arguments.map fun e => e.rename places parameters := by
  induction arguments with
  | nil => rfl
  | cons e rest ih => rw [renameAll, ih, List.map_cons]

theorem rename_rename (e : Expr) : (e.rename places parameters).rename places' parameters' =
    e.rename (places' ∘ places) (parameters' ∘ parameters) := by
  induction e with
  | number value => rfl
  | tokens place color => rfl
  | capacity place => rfl
  | parameter id => rfl
  | neg inner ih => simp only [rename, ih]
  | binary operation left right ihl ihr => simp only [rename, ihl, ihr]
  | call callee arguments ih =>
    simp only [rename, renameAll_eq, List.map_map]
    exact congrArg _ (List.map_congr_left ih)

/-- A renaming that changes none of the words mentioned. -/
theorem rename_eq_self {e : Expr} (hplaces : ∀ place ∈ e.placeMentions, places place = place)
    (hparameters : ∀ id ∈ e.parameterMentions, parameters id = id) :
    e.rename places parameters = e := by
  induction e with
  | number value => rfl
  | tokens place color => rw [rename, hplaces place (List.mem_singleton.2 rfl)]
  | capacity place => rw [rename, hplaces place (List.mem_singleton.2 rfl)]
  | parameter id => rw [rename, hparameters id (List.mem_singleton.2 rfl)]
  | neg inner ih => rw [rename, ih hplaces hparameters]
  | binary operation left right ihl ihr =>
    rw [rename,
      ihl (fun p hp => hplaces p (List.mem_append_left _ hp))
        (fun r hr => hparameters r (List.mem_append_left _ hr)),
      ihr (fun p hp => hplaces p (List.mem_append_right _ hp))
        (fun r hr => hparameters r (List.mem_append_right _ hr))]
  | call callee arguments ih =>
    rw [rename, renameAll_eq]
    refine congrArg _ ((List.map_congr_left fun a ha => ?_).trans arguments.map_id)
    exact ih a ha (fun p hp => hplaces p (placeMentions_subset_of_mem ha hp))
      fun r hr => hparameters r (parameterMentions_subset_of_mem ha hr)

theorem rename_of_mentions {e : Expr} (h : e.placeMentions = [] ∧ e.parameterMentions = []) :
    e.rename places parameters = e := by
  refine rename_eq_self (fun place hplace => ?_) fun id hid => ?_
  · rw [h.1] at hplace
    cases hplace
  · rw [h.2] at hid
    cases hid

theorem placeMentions_rename (e : Expr) :
    (e.rename places parameters).placeMentions = e.placeMentions.map places := by
  induction e with
  | number value => rfl
  | tokens place color => rfl
  | capacity place => rfl
  | parameter id => rfl
  | neg inner ih => exact ih
  | binary operation left right ihl ihr => simp only [rename, placeMentions, ihl, ihr, List.map_append]
  | call callee arguments ih =>
    simp only [rename, renameAll_eq, placeMentions, placeMentionsAll_eq, List.flatMap_map, List.map_flatMap]
    exact List.flatMap_congr ih

theorem parameterMentions_rename (e : Expr) :
    (e.rename places parameters).parameterMentions = e.parameterMentions.map parameters := by
  induction e with
  | number value => rfl
  | tokens place color => rfl
  | capacity place => rfl
  | parameter id => rfl
  | neg inner ih => exact ih
  | binary operation left right ihl ihr => simp only [rename, parameterMentions, ihl, ihr, List.map_append]
  | call callee arguments ih =>
    simp only [rename, renameAll_eq, parameterMentions, parameterMentionsAll_eq, List.flatMap_map, List.map_flatMap]
    exact List.flatMap_congr ih

theorem Formed.rename {numbers : Float → Prop} {words ids ids' : String → Prop} {e : Expr}
    (h : e.Formed numbers words ids) (hplaces : ∀ place, words place → words (places place))
    (hparameters : ∀ id, ids id → ids' (parameters id)) :
    (e.rename places parameters).Formed numbers words ids' := by
  induction h with
  | number hvalue => exact .number hvalue
  | tokens hplace hcolor => exact .tokens (hplaces _ hplace) hcolor
  | capacity hplace => exact .capacity (hplaces _ hplace)
  | parameter hid => exact .parameter (hparameters _ hid)
  | neg _ ih => exact .neg ih
  | binary _ _ ihl ihr => exact .binary ihl ihr
  | call htakes _ ih =>
    rw [Expr.rename, renameAll_eq]
    refine .call (by rwa [List.length_map]) fun a ha => ?_
    obtain ⟨b, hb, rfl⟩ := List.mem_map.1 ha
    exact ih b hb

/-- The words and names of an expression pass their tests. -/
theorem Formed.mentions {numbers : Float → Prop} {words ids : String → Prop} {e : Expr}
    (h : e.Formed numbers words ids) :
    (∀ place ∈ e.placeMentions, words place) ∧ ∀ id ∈ e.parameterMentions, ids id := by
  induction h with
  | number => exact ⟨nofun, nofun⟩
  | tokens hplace => exact ⟨List.forall_mem_singleton.2 hplace, nofun⟩
  | capacity hplace => exact ⟨List.forall_mem_singleton.2 hplace, nofun⟩
  | parameter hid => exact ⟨nofun, List.forall_mem_singleton.2 hid⟩
  | neg _ ih => exact ih
  | binary _ _ ihl ihr =>
    exact ⟨List.forall_mem_append.2 ⟨ihl.1, ihr.1⟩, List.forall_mem_append.2 ⟨ihl.2, ihr.2⟩⟩
  | call _ _ ih =>
    rw [placeMentions, placeMentionsAll_eq, parameterMentions, parameterMentionsAll_eq]
    refine ⟨fun place hplace => ?_, fun id hid => ?_⟩
    · obtain ⟨a, ha, hplace⟩ := List.mem_flatMap.1 hplace
      exact (ih a ha).1 place hplace
    · obtain ⟨a, ha, hid⟩ := List.mem_flatMap.1 hid
      exact (ih a ha).2 id hid

/-- The names of parameters have to pass a test where they are mentioned only. -/
theorem Formed.ids {numbers : Float → Prop} {words ids ids' : String → Prop} {e : Expr}
    (h : e.Formed numbers words ids) (hids : ∀ id ∈ e.parameterMentions, ids' id) :
    e.Formed numbers words ids' := by
  induction h with
  | number hvalue => exact .number hvalue
  | tokens hplace hcolor => exact .tokens hplace hcolor
  | capacity hplace => exact .capacity hplace
  | parameter => exact .parameter (hids _ (List.mem_singleton.2 rfl))
  | neg _ ih => exact .neg (ih hids)
  | binary _ _ ihl ihr =>
    exact .binary (ihl fun id hid => hids id (List.mem_append_left _ hid))
      (ihr fun id hid => hids id (List.mem_append_right _ hid))
  | call htakes _ ih =>
    exact .call htakes fun a ha => ih a ha fun id hid => hids id (parameterMentions_subset_of_mem ha hid)

/-- Renaming changes no number and no count of arguments. -/
theorem Formed.of_rename {numbers : Float → Prop} {words ids : String → Prop} {e : Expr}
    (h : (e.rename places parameters).Formed numbers words ids) :
    e.Formed numbers (fun _ => True) fun _ => True := by
  induction e with
  | number value =>
    cases h with
    | number hvalue => exact .number hvalue
  | tokens place color => exact .tokens trivial fun _ _ => trivial
  | capacity place => exact .capacity trivial
  | parameter id => exact .parameter trivial
  | neg inner ih =>
    cases h with
    | neg hinner => exact .neg (ih hinner)
  | binary operation left right ihl ihr =>
    cases h with
    | binary hleft hright => exact .binary (ihl hleft) (ihr hright)
  | call callee arguments ih =>
    rw [Expr.rename, renameAll_eq] at h
    cases h with
    | call htakes harguments =>
      rw [List.length_map] at htakes
      exact .call htakes fun a ha => ih a ha (harguments _ (List.mem_map_of_mem ha))

theorem Formed.and {numbers numbers' : Float → Prop} {words words' ids ids' : String → Prop} {e : Expr}
    (h : e.Formed numbers words ids) (h' : e.Formed numbers' words' ids') :
    e.Formed (fun x => numbers x ∧ numbers' x) (fun w => words w ∧ words' w)
      fun id => ids id ∧ ids' id := by
  induction h with
  | number hvalue =>
    cases h' with
    | number hvalue' => exact .number ⟨hvalue, hvalue'⟩
  | tokens hplace hcolor =>
    cases h' with
    | tokens hplace' hcolor' =>
      exact .tokens ⟨hplace, hplace'⟩ fun c hc => ⟨hcolor c hc, hcolor' c hc⟩
  | capacity hplace =>
    cases h' with
    | capacity hplace' => exact .capacity ⟨hplace, hplace'⟩
  | parameter hid =>
    cases h' with
    | parameter hid' => exact .parameter ⟨hid, hid'⟩
  | neg _ ih =>
    cases h' with
    | neg hinner' => exact .neg (ih hinner')
  | binary _ _ ihl ihr =>
    cases h' with
    | binary hleft' hright' => exact .binary (ihl hleft') (ihr hright')
  | call htakes _ ih =>
    cases h' with
    | call _ harguments' => exact .call htakes fun a ha => ih a ha (harguments' a ha)

/-- Are all numbers of an expression finite? -/
def FiniteNumbers (e : Expr) : Prop := e.Formed (fun value => value.isFinite = true) (fun _ => True) fun _ => True

/-- What was read from a text can be written if its numbers are finite. -/
theorem printable_of_ofText {text : String} {e : Expr} (he : ofText text = .ok e) (hfinite : e.FiniteNumbers) :
    e.Printable :=
  ((written_of_ofText he).and hfinite).imp (fun _ hvalue => isPlain_of_isDecimal hvalue.1 hvalue.2)
    (fun _ hword => hword.1) fun _ hid => hid.1

end Expr

/-! ## Evaluating a renamed expression -/

/-- Looking up under other names. -/
def Reading.under (r : Reading) (places parameters : String → String) : Reading where
  tokens place := r.tokens (places place)
  capacity place := r.capacity (places place)
  parameter id := r.parameter (parameters id)

namespace Expr

variable {places parameters : String → String}

theorem found_toOption (place : String) (value : Option Float) :
    (found place value).toOption = value.bind fun x => (checked x).toOption := by
  cases value <;> rfl

theorem evaluateAll_toOption_congr {r s : Reading} {as bs : List Expr}
    (h : List.Forall₂ (fun a b => (a.evaluate r).toOption = (b.evaluate s).toOption) as bs) :
    (evaluateAll r as).toOption = (evaluateAll s bs).toOption := by
  induction h with
  | nil => rfl
  | cons hab _ ih => simp only [evaluateAll, toOption_bind, hab, ih]

/-- Renaming an expression is looking up other things; only the name of an unknown place in an error
tells the two apart. -/
theorem evaluate_rename (r : Reading) (e : Expr) : ((e.rename places parameters).evaluate r).toOption =
    (e.evaluate (r.under places parameters)).toOption := by
  induction e with
  | number value => rfl
  | tokens place color =>
    rw [rename, evaluate, evaluate, found_toOption, found_toOption]
    rfl
  | capacity place =>
    rw [rename, evaluate, evaluate, found_toOption, found_toOption]
    rfl
  | parameter id => rfl
  | neg inner ih => simp only [rename, evaluate, toOption_bind, ih]
  | binary operation left right ihl ihr => simp only [rename, evaluate, toOption_bind, ihl, ihr]
  | call callee arguments ih =>
    have hall : (evaluateAll r (arguments.map fun a => a.rename places parameters)).toOption =
        (evaluateAll (r.under places parameters) arguments).toOption :=
      evaluateAll_toOption_congr (List.forall₂_map_left_iff.2 (List.forall₂_same.2 ih))
    simp only [rename, renameAll_eq, evaluate, toOption_bind, hall]

theorem evaluateWeight_rename (r : Reading) (e : Expr) :
    ((e.rename places parameters).evaluateWeight r).toOption =
      (e.evaluateWeight (r.under places parameters)).toOption := by
  simp only [evaluateWeight, toOption_bind, evaluate_rename]

end Expr

/-! ## Renaming texts -/

namespace Assembly

/-- A text that mentions nothing stays as it was, and any other is written anew. -/
theorem renameText_eq {component text : String} {places parameters : String → String} {e : Expr}
    (he : Expr.ofText text = .ok e) : renameText component places parameters text =
      .ok (if e.placeMentions = [] ∧ e.parameterMentions = [] then text else (e.rename places parameters).text) := by
  have hstep : renameText component places parameters text =
      if (e.placeMentions.isEmpty && e.parameterMentions.isEmpty) = true then .ok text
      else .ok (e.rename places parameters).text := by
    rw [renameText, read_eq_ok.2 he]
    rfl
  rw [hstep, apply_ite Except.ok]
  simp only [Bool.and_eq_true, List.isEmpty_iff]

/-- Renaming a text is renaming its expression, if that can be written. -/
theorem ofText_of_renameText {component text text' : String} {places parameters : String → String}
    {e : Expr} (h : renameText component places parameters text = .ok text')
    (he : Expr.ofText text = .ok e) (hprintable : (e.rename places parameters).Printable) :
    Expr.ofText text' = .ok (e.rename places parameters) := by
  rw [renameText_eq he, Except.ok.injEq] at h
  subst h
  split
  · rename_i hnothing
    rw [Expr.rename_of_mentions hnothing, he]
  · exact Expr.ofText_text hprintable

end Assembly

/-! ## Renaming arcs -/

/-- Does the text read as what the other reads as, renamed? Nothing is said of expressions that
cannot be written. -/
def RenamesText (places parameters : String → String) (text text' : String) : Prop :=
  ∀ e, Expr.ofText text = .ok e → e.Printable →
    Expr.ofText text' = .ok (e.rename places parameters) ∧ (e.rename places parameters).Printable

/-- The same arc with its place and the words of its weights renamed. -/
structure Arc.Renamed (places parameters : String → String) (arc arc' : Arc) : Prop where
  direction : arc'.direction = arc.direction
  kind : arc'.kind = arc.kind
  place : arc'.place = places arc.place
  weights : List.Forall₂ (fun w d => d.1 = w.1 ∧ RenamesText places parameters w.2 d.2)
    arc.weights.entries arc'.weights.entries

theorem RenamesText.trans {places places' parameters parameters' : String → String}
    {text text' text'' : String} (h : RenamesText places parameters text text')
    (h' : RenamesText places' parameters' text' text'') :
    RenamesText (places' ∘ places) (parameters' ∘ parameters) text text'' := by
  intro e he hprintable
  obtain ⟨he', hprintable'⟩ := h e he hprintable
  rw [← Expr.rename_rename]
  exact h' _ he' hprintable'

theorem Arc.Renamed.trans {places places' parameters parameters' : String → String} {a b c : Arc}
    (h : a.Renamed places parameters b) (h' : b.Renamed places' parameters' c) :
    a.Renamed (places' ∘ places) (parameters' ∘ parameters) c where
  direction := h'.direction.trans h.direction
  kind := h'.kind.trans h.kind
  place := by rw [h'.place, h.place, Function.comp]
  weights := forall₂_trans (fun _ _ _ hab hbc => ⟨hbc.1.trans hab.1, hab.2.trans hbc.2⟩)
    h.weights h'.weights

namespace Assembly

theorem renamed_refl (arc : Arc) : arc.Renamed id id arc where
  direction := rfl
  kind := rfl
  place := rfl
  weights := by
    refine List.forall₂_same.2 fun w _ => ⟨rfl, fun e he hprintable => ?_⟩
    have hself : e.rename id id = e := Expr.rename_eq_self (fun _ _ => rfl) fun _ _ => rfl
    rw [hself]
    exact ⟨he, hprintable⟩

/-- Renaming keeps the words. -/
structure KeepsWords (places parameters : String → String) : Prop where
  places : ∀ place, Expr.IsWord place → Expr.IsWord (places place)
  parameters : ∀ id, Expr.IsParameterName id → Expr.IsParameterName (parameters id)

theorem renamesText_of_renameText {component text text' : String} {places parameters : String → String}
    (hwords : KeepsWords places parameters)
    (h : renameText component places parameters text = .ok text') :
    RenamesText places parameters text text' := by
  intro e he hprintable
  have hrenamed : (e.rename places parameters).Printable :=
    Expr.Formed.rename hprintable hwords.places hwords.parameters
  exact ⟨ofText_of_renameText h he hrenamed, hrenamed⟩

/-- A merge redirects the place of an arc and the places that its weights mention. -/
theorem Redirect.renamed_of_arc {r : Redirect} {arc arc' : Arc} (hnew : Expr.IsWord r.new)
    (h : r.arc arc = .ok arc') :
    arc.Renamed r.rename id arc' ∧ arc'.id = arc.id ∧ arc'.transition = arc.transition := by
  obtain ⟨weights, hweights, rfl⟩ := Redirect.arc_eq_ok h
  have hwords : KeepsWords r.rename id := by
    refine ⟨fun place hplace => ?_, fun id hid => hid⟩
    rw [Redirect.rename, Table.renamed]
    split
    · exact hnew
    · exact hplace
  refine ⟨⟨rfl, rfl, rfl, ?_⟩, rfl, rfl⟩
  exact (Table.mapExcept_eq_ok.1 hweights).imp fun _ _ hw =>
    ⟨hw.1, renamesText_of_renameText hwords hw.2⟩

/-- Where a flat id leads when redirections are followed one after the other. -/
def follow (rs : List Redirect) (flat : String) : String := rs.foldl (fun flat r => r.rename flat) flat

/-- All merges together rename an arc once. -/
theorem renamed_of_foldlM {rs : List Redirect} {arc arc' : Arc} (hnew : ∀ r ∈ rs, Expr.IsWord r.new)
    (h : rs.foldlM (fun arc r => r.arc arc) arc = .ok arc') :
    arc.Renamed (follow rs) id arc' ∧ arc'.id = arc.id ∧ arc'.transition = arc.transition := by
  induction rs generalizing arc with
  | nil =>
    cases h
    exact ⟨renamed_refl _, rfl, rfl⟩
  | cons r rest ih =>
    rw [List.foldlM_cons, bind_eq_ok] at h
    obtain ⟨next, hnext, h⟩ := h
    -- the first merge, and all the others on what it leaves
    obtain ⟨hfirst, hid, htransition⟩ := Redirect.renamed_of_arc (hnew r (List.mem_cons_self ..)) hnext
    obtain ⟨hrest, hid', htransition'⟩ := ih (fun r' hr' => hnew r' (List.mem_cons_of_mem _ hr')) h
    exact ⟨hfirst.trans hrest, hid'.trans hid, htransition'.trans htransition⟩

/-- A redirection is followed once, if none leads to an id that is redirected itself. -/
theorem follow_eq {rs : List Redirect} (hstay : ∀ r ∈ rs, r.new ∉ rs.map Redirect.old) (flat : String) :
    follow rs flat = ((rs.find? fun r => r.old == flat).map Redirect.new).getD flat := by
  induction rs generalizing flat with
  | nil => rfl
  | cons r rest ih =>
    have hrest : ∀ r' ∈ rest, r'.new ∉ rest.map Redirect.old := fun r' hr' hold =>
      hstay r' (List.mem_cons_of_mem _ hr') (List.mem_cons_of_mem _ hold)
    have hstep : follow (r :: rest) flat = follow rest (r.rename flat) := rfl
    rw [hstep, ih hrest, Redirect.rename, Table.renamed]
    by_cases hflat : flat = r.old
    · -- the target is redirected no further
      have hnone : rest.find? (fun r' => r'.old == r.new) = none := by
        rw [List.find?_eq_none]
        intro r' hr' heq
        refine hstay r (List.mem_cons_self ..) (List.mem_cons_of_mem _ ?_)
        exact List.mem_map.2 ⟨r', hr', eq_of_beq heq⟩
      rw [if_pos hflat, hnone, List.find?_cons_of_pos (by simp [hflat])]
      rfl
    · rw [if_neg hflat, List.find?_cons_of_neg (by simpa using fun h => hflat h.symm)]

end Assembly

/-! ## Paths -/

/-- A path that can stand before the name of a parameter: that of the root, or a word. -/
def IsPath (path : String) : Prop := path = "" ∨ Expr.IsParameterName path

theorem toList_qualify {path : String} (hpath : path ≠ "") (id : String) :
    (qualify path id).toList = path.toList ++ '.' :: id.toList := by
  rw [qualify, if_neg (by simpa using hpath), String.toList_append, String.toList_append]
  simp

/-- A path is one that can stand there if all its characters are those of words and it starts with no digit. -/
theorem isPath_iff {path : String} : IsPath path ↔
    (∀ c ∈ path.toList, Expr.isWordChar c = true) ∧ ∀ c ∈ path.toList.head?, c.isDigit = false := by
  by_cases hpath : path = ""
  · subst hpath
    exact ⟨fun _ => ⟨nofun, nofun⟩, fun _ => Or.inl rfl⟩
  · have hne : path.toList ≠ [] := fun hnil => hpath (String.toList_inj.1 hnil)
    exact ⟨fun h => ⟨(h.resolve_left hpath).1.2, (h.resolve_left hpath).2⟩, fun h => Or.inr ⟨⟨hne, h.1⟩, h.2⟩⟩

/-- The point between path and id is a character of words. -/
theorem isWord_qualify {path id : String} (hpath : ∀ c ∈ path.toList, Expr.isWordChar c = true)
    (hid : Expr.IsWord id) : Expr.IsWord (qualify path id) := by
  by_cases hempty : path = ""
  · subst hempty
    exact hid
  · unfold Expr.IsWord
    rw [toList_qualify hempty, List.forall_mem_append, List.forall_mem_cons]
    exact ⟨by simp, hpath, by decide, hid.2⟩

/-- Words qualified by a path are words. -/
theorem keepsWords_qualify {path : String} (hpath : IsPath path) :
    Assembly.KeepsWords (qualify path) (qualify path) := by
  obtain ⟨hword, hdigit⟩ := isPath_iff.1 hpath
  refine ⟨fun place hplace => isWord_qualify hword hplace, fun id hid => ⟨isWord_qualify hword hid.1, ?_⟩⟩
  by_cases hempty : path = ""
  · subst hempty
    exact hid.2
  · -- the first character is that of the path, which is no digit
    have hne : path.toList ≠ [] := fun hnil => hempty (String.toList_inj.1 hnil)
    rw [toList_qualify hempty, List.head?_append_of_ne_nil _ hne]
    exact hdigit

theorem qualify_injective (path : String) : Function.Injective (qualify path) := by
  intro a b h
  by_cases hpath : path = ""
  · subst hpath
    exact h
  · have hlist := congrArg String.toList h
    rw [toList_qualify hpath, toList_qualify hpath] at hlist
    exact String.toList_inj.1 (List.cons.inj (List.append_cancel_left hlist)).2

/-- Copying an arc qualifies its place and the words of its weights. -/
theorem Local.CopiesArc.renamed {l : Local Arc} {e : String × Arc} (hpath : IsPath l.owner.path)
    (h : l.CopiesArc e) : l.part.Renamed (qualify l.owner.path) (qualify l.owner.path) e.2 ∧
      e.2.id = qualify l.owner.path l.part.id ∧
      e.2.transition = qualify l.owner.path l.part.transition := by
  obtain ⟨hid, weights, hweights, hcopy⟩ := h
  rw [hcopy]
  refine ⟨⟨rfl, rfl, rfl, ?_⟩, hid, rfl⟩
  exact (Table.mapExcept_eq_ok.1 hweights).imp fun _ _ hw =>
    ⟨hw.1, Assembly.renamesText_of_renameText (keepsWords_qualify hpath) hw.2⟩

/-- Every weight of an arc that was copied is an expression. -/
theorem Local.CopiesArc.readable {l : Local Arc} {e : String × Arc} (h : l.CopiesArc e) :
    ∀ w ∈ l.part.weights.entries, ∃ expr, Expr.ofText w.2 = .ok expr := by
  obtain ⟨_, weights, hweights, _⟩ := h
  intro w hw
  obtain ⟨d, _, _, hd⟩ := exists_right_of_forall₂ (Table.mapExcept_eq_ok.1 hweights) hw
  rw [Assembly.qualifyText, Assembly.renameText, bind_eq_ok] at hd
  obtain ⟨expr, hexpr, _⟩ := hd
  exact ⟨expr, Assembly.read_eq_ok.1 hexpr⟩

end PetriTree
