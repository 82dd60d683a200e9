import PetriTree.Flat.Compile
import PetriTree.Proofs.Misreading
import PetriTree.Proofs.Renaming
import PetriTree.Proofs.Sample

/-!
# PetriTree — names under a path

A text that goes into the joined net is read, its words are qualified by the path of its node, and it is written
again. The words come from nets and were read as words, but the path is made of aliases, which can have any
characters but points. In front of a word these characters are read as well, and `a+b` before the name of a
parameter makes a sum of it. A number that is too great for any value is written as a word and becomes the name of
a parameter.

Paths of word characters are safe. If such a path starts with a digit, the name of a parameter behind it is
misread, but then the whole text is refused, and joining fails.

Main results:
* `Assembly.printable_qualify_iff` — when an expression can be written with its words qualified;
* `Assembly.qualifyText_reads` — when the text reads as that expression, and when it reads as nothing else;
* `Assembly.alias_captures` — a tree that is joined with another rate than its node means.
-/

namespace PetriTree

namespace Expr

/-- A name is read as the parameter. -/
theorem ofText_name {id : String} (h : IsParameterName id) : ofText id = .ok (parameter id) := by
  have hread := ofText_text (e := parameter id) (.parameter h)
  rwa [Expr.text, chars, String.ofList_toList] at hread

/-- Two names with a sign between them are read as an operation on parameters. -/
theorem ofText_sum {a b : String} (ha : IsParameterName a) (hb : IsParameterName b) :
    ofText (a ++ "+" ++ b) = .ok (binary .add (parameter a) (parameter b)) := by
  refine Derivable.ofText_eq ⟨[.word a, .sign '+', .word b], ?_, ?_⟩
  · have htext : (a ++ "+" ++ b).toList = a.toList ++ '+' :: (b.toList ++ []) := by simp
    rw [htext]
    exact .word ha.1 (halts_sign (by decide) _) (.sign (by decide) (.word hb.1 nofun .nil))
  · exact .exprBinary rfl (.exprTerm (.termUnary (.unaryAtom (.parameter ha.2))))
      (.termUnary (.unaryAtom (.parameter hb.2)))

/-- Behind a path that starts with a digit, the name of a parameter is read as a number and something else. -/
theorem misread_qualify {path id : String} (hpath : ∀ c ∈ path.toList, isWordChar c = true)
    (hdigit : ∃ c ∈ path.toList.head?, c.isDigit = true) (hid : IsParameterName id) : Misread (qualify path id) := by
  refine ⟨isWord_qualify hpath hid.1, fun rest => ?_⟩
  obtain ⟨d, hd, hdigit⟩ := hdigit
  obtain ⟨ds, hds⟩ := List.head?_eq_some_iff.1 hd
  obtain ⟨c, cs, hcons, _⟩ := hid.1.exists_cons
  have hne : path ≠ "" := by
    rintro rfl
    cases hd
  have htext : (qualify path id).toList ++ rest = d :: ds ++ '.' :: c :: (cs ++ rest) := by
    rw [toList_qualify hne, hds, hcons]
    simp
  rw [htext]
  exact number?_point (hds ▸ hpath) hdigit (hid.2 c (by rw [hcons]; rfl)) _

end Expr

namespace Assembly

variable {path component text : String} {e : Expr}

/-- If path and id make a word together, the path has word characters. -/
theorem isWordChar_of_isWord_qualify {id : String} (h : Expr.IsWord (qualify path id)) :
    ∀ c ∈ path.toList, Expr.isWordChar c = true := by
  by_cases hempty : path = ""
  · subst hempty
    exact nofun
  · have hall := h.2
    rw [toList_qualify hempty] at hall
    exact (List.forall_mem_append.1 hall).1

theorem isPath_of_qualify {id : String} (h : Expr.IsParameterName (qualify path id)) : IsPath path := by
  by_cases hempty : path = ""
  · exact Or.inl hempty
  · refine isPath_iff.2 ⟨isWordChar_of_isWord_qualify h.1, ?_⟩
    have hne : path.toList ≠ [] := fun hnil => hempty (String.toList_inj.1 hnil)
    have hfirst := h.2
    rwa [toList_qualify hempty, List.head?_append_of_ne_nil _ hne] at hfirst

/-- An expression that mentions something can be written with its words qualified exactly if its numbers are finite
and the path goes with the words. -/
theorem printable_qualify_iff (he : Expr.ofText text = .ok e)
    (hmentions : ¬(e.placeMentions = [] ∧ e.parameterMentions = [])) :
    (e.rename (qualify path) (qualify path)).Printable ↔ e.FiniteNumbers ∧
      (∀ c ∈ path.toList, Expr.isWordChar c = true) ∧
      (e.parameterMentions ≠ [] → ∀ c ∈ path.toList.head?, c.isDigit = false) := by
  constructor
  · intro h
    have hnumbers := h.of_rename.imp (fun _ hvalue => (Number.isPlain_iff.1 hvalue).1) (fun _ h => h) fun _ h => h
    obtain ⟨hplaces, hids⟩ := h.mentions
    rw [Expr.placeMentions_rename, List.forall_mem_map] at hplaces
    rw [Expr.parameterMentions_rename, List.forall_mem_map] at hids
    have hpath : e.parameterMentions ≠ [] → IsPath path := fun hne =>
      have ⟨id, hid⟩ := List.exists_mem_of_ne_nil _ hne
      isPath_of_qualify (hids id hid)
    refine ⟨hnumbers, ?_, fun hne => (isPath_iff.1 (hpath hne)).2⟩
    -- either kind of mention has the path for its beginning
    by_cases hids : e.parameterMentions = []
    · obtain ⟨place, hplace⟩ := List.exists_mem_of_ne_nil _ fun hnil => hmentions ⟨hnil, hids⟩
      exact isWordChar_of_isWord_qualify (hplaces place hplace)
    · exact (isPath_iff.1 (hpath hids)).1
  · rintro ⟨hfinite, hpath, hdigit⟩
    have hprintable := Expr.printable_of_ofText he hfinite
    -- the path is one for names only if there are names, so the test is made at the mentions
    have hid : ∀ id ∈ e.parameterMentions, Expr.IsParameterName id ∧ IsPath path := fun id hid =>
      ⟨hprintable.mentions.2 id hid, isPath_iff.2 ⟨hpath, hdigit (List.ne_nil_of_mem hid)⟩⟩
    exact (hprintable.ids hid).rename (fun place hplace => isWord_qualify hpath hplace)
      fun id hid => (keepsWords_qualify hid.2).parameters id hid.1

/-- Behind a digit all names of parameters are misread. -/
theorem garbled_qualify (he : Expr.ofText text = .ok e) (hfinite : e.FiniteNumbers)
    (hpath : ∀ c ∈ path.toList, Expr.isWordChar c = true) (hdigit : ∃ c ∈ path.toList.head?, c.isDigit = true) :
    (e.rename (qualify path) (qualify path)).Garbled :=
  (Expr.printable_of_ofText he hfinite).rename (fun _ hplace => isWord_qualify hpath hplace)
    fun _ hid => Expr.misread_qualify hpath hdigit hid

/-- A text that mentions nothing stays. The text of any other reads as the expression with its words qualified exactly
if its numbers are finite and the path has word characters only, with no digit in front where a parameter is
mentioned. Where numbers are finite and the path has word characters, it reads as that or is refused. -/
theorem qualifyText_reads (he : Expr.ofText text = .ok e) (path component : String) :
    ∃ text', qualifyText path component text = .ok text' ∧
      (Expr.ofText text' = .ok (e.rename (qualify path) (qualify path)) ↔
        (e.placeMentions = [] ∧ e.parameterMentions = []) ∨
          (e.FiniteNumbers ∧ (∀ c ∈ path.toList, Expr.isWordChar c = true) ∧
            (e.parameterMentions ≠ [] → ∀ c ∈ path.toList.head?, c.isDigit = false))) ∧
      (e.FiniteNumbers → (∀ c ∈ path.toList, Expr.isWordChar c = true) →
        ∀ read, Expr.ofText text' = .ok read → read = e.rename (qualify path) (qualify path)) := by
  refine ⟨_, renameText_eq he, ?_⟩
  by_cases hnothing : e.placeMentions = [] ∧ e.parameterMentions = []
  -- what mentions nothing stays as it was written, whatever its numbers are
  · rw [if_pos hnothing, Expr.rename_of_mentions hnothing]
    exact ⟨⟨fun _ => Or.inl hnothing, fun _ => he⟩, fun _ _ read hread => Except.ok.inj (hread.symm.trans he)⟩
  · rw [if_neg hnothing, or_iff_right hnothing, ← printable_qualify_iff he hnothing]
    refine ⟨⟨Expr.printable_of_ofText_text, Expr.ofText_text⟩, fun hfinite hpath read hread => ?_⟩
    -- where the path starts with a digit, a parameter that is mentioned has the text refused
    have hdigit : e.parameterMentions ≠ [] → ∀ c ∈ path.toList.head?, c.isDigit = false := by
      intro hne c hc
      by_contra hdigit
      refine (garbled_qualify he hfinite hpath ⟨c, hc, by simpa using hdigit⟩).ofText_ne_ok ?_ read hread
      rwa [Expr.parameterMentions_rename, Ne, List.map_eq_nil_iff]
    rw [Expr.ofText_text ((printable_qualify_iff he hnothing).2 ⟨hfinite, hpath, hdigit⟩)] at hread
    exact (Except.ok.inj hread).symm

/-- Under a path of words both the place and the parameter of a call are renamed. -/
theorem qualifyText_reads_call :
    Expr.ofText "min(#(P),r)" = .ok (.call .min [.tokens "P" none, .parameter "r"]) ∧
      ∃ text', qualifyText "a.b" "T" "min(#(P),r)" = .ok text' ∧
        Expr.ofText text' = .ok (.call .min [.tokens "a.b.P" none, .parameter "a.b.r"]) := by
  have hform : ∀ {numbers words ids}, words "P" → ids "r" →
      Expr.Formed numbers words ids (.call .min [.tokens "P" none, .parameter "r"]) := fun hplace hid =>
    .call ⟨by decide, nofun⟩ (by simpa using ⟨.tokens hplace nofun, .parameter hid⟩)
  have hchars : (Expr.call .min [.tokens "P" none, .parameter "r"]).text = "min(#(P),r)" := by decide +kernel
  have he := Expr.ofText_text (hform (by decide) (by decide))
  rw [hchars] at he
  obtain ⟨text', htext, hreads, _⟩ := qualifyText_reads he "a.b" "T"
  obtain ⟨hword, hdigit⟩ := isPath_iff.1 (Or.inr (by decide) : IsPath "a.b")
  exact ⟨he, text', htext, hreads.2 (Or.inr ⟨hform trivial trivial, hword, fun _ => hdigit⟩)⟩

/-- A node under the alias `a+b`, beside a parameter `a` of the root and a parameter `r` of a node `b`. -/
def overheard : IncludeTree :=
  Sample.also (Sample.pair [.rateParameter ⟨"a", "7"⟩]
    [.rateParameter ⟨"r", "5"⟩, Sample.transition "T" (.expression "r")] "a+b") [.rateParameter ⟨"r", "1"⟩] "b"

/-- The parameter that the node means is read as the sum of the two others, and the tree can be joined. -/
theorem alias_captures : overheard.Reachable ∧ (∃ e ∈ overheard.walk, e.2.path = "a+b") ∧
    Expr.ofText "r" = .ok (.parameter "r") ∧ qualifyText "a+b" "T" "r" = .ok "a+b.r" ∧
    Expr.ofText "a+b.r" = .ok (.binary .add (.parameter "a") (.parameter "b.r")) ∧
    (Expr.parameter "r").rename (qualify "a+b") (qualify "a+b") = .parameter "a+b.r" ∧
    ∃ net, FlatNet.ofTree overheard = .ok net ∧ (net.rate "a+b.T").map Expr.parameterMentions = some ["a", "b.r"] := by
  have hrun : (FlatNet.ofTree overheard).map (fun net => (net.rate "a+b.T").map Expr.parameterMentions) =
      .ok (some ["a", "b.r"]) := by
    decide +kernel
  have hpath : (overheard.walk.any fun e => e.2.path == "a+b") = true := by decide +kernel
  obtain ⟨e, he, hpath⟩ := List.any_eq_true.1 hpath
  have hr : Expr.ofText "r" = .ok (.parameter "r") := Expr.ofText_name (by decide)
  have hqualify : qualifyText "a+b" "T" "r" = .ok "a+b.r" := (renameText_eq hr).trans (by decide +kernel)
  exact ⟨Sample.reachable_also (Sample.reachable_pair _ _ _) _ _, ⟨e, he, eq_of_beq hpath⟩, hr, hqualify,
    Expr.ofText_sum (a := "a") (b := "b.r") (by decide) (by decide), rfl, map_eq_ok.1 hrun⟩

end Assembly

end PetriTree
