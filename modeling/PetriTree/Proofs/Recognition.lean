import PetriTree.Proofs.Reader

/-!
# PetriTree — whatever the grammar derives is read

The reader tries one alternative after the other and takes as much as it can. That it finds the derivation
of a text is due to what follows a phrase: behind an operand there is a sign that goes on with none of its
alternatives, behind a product a sign that goes on with no product. So an induction on the derivation has to
carry along what comes next.

Sums and products are derived from the left but read by a loop. What is read of a sum that goes on is
therefore the loop in the middle of its run, with the sum so far.

Main results:
* `Expr.Reads`, `Expr.Derives.reads` — reading a phrase that stands in front of other tokens;
* `Expr.Derivable.ofText_eq` — a text is read as the expression that it derives;
* `Expr.ofText_eq_ok_iff` — the reader accepts exactly the grammar, which derives one expression at most.
-/

namespace PetriTree.Expr

variable {text rest : List Char} {us : List Token}

/-! ## Reading a token off a text -/

theorem exists_of_lexes_sign {c : Char} (h : Lexes text (.sign c :: us)) :
    ∃ rest, skip text = c :: rest ∧ Lexes rest us := by
  generalize hts : Token.sign c :: us = ts at h
  induction h with
  | nil => cases hts
  | blank hblank _ ih => rw [skip_blank hblank]; exact ih hts
  | sign hsign htext _ =>
    cases hts
    exact ⟨_, skip_cons (isBlank_of_isSign hsign) _, htext⟩
  | word => cases hts
  | number => cases hts

theorem exists_of_lexes_word {word : String} (h : Lexes text (.word word :: us)) :
    ∃ rest, skip text = word.toList ++ rest ∧ IsWord word ∧ (∀ c ∈ rest.head?, isWordChar c = false) ∧
      Lexes rest us := by
  generalize hts : Token.word word :: us = ts at h
  induction h with
  | nil => cases hts
  | blank hblank _ ih => rw [skip_blank hblank]; exact ih hts
  | sign => cases hts
  | @word word text _ hword hend htext _ =>
    cases hts
    obtain ⟨c, cs, hcons, hc⟩ := hword.exists_cons
    refine ⟨text, ?_, hword, hend, htext⟩
    rw [hcons, List.cons_append]
    exact skip_cons (isBlank_of_isWordChar hc) _
  | number => cases hts

theorem exists_of_lexes_number {value : Float} (h : Lexes text (.number value :: us)) :
    ∃ digits rest, skip text = digits ++ rest ∧ Numeral digits value ∧ Lexes rest us := by
  generalize hts : Token.number value :: us = ts at h
  induction h with
  | nil => cases hts
  | blank hblank _ ih => rw [skip_blank hblank]; exact ih hts
  | sign => cases hts
  | word => cases hts
  | @number digits _ text _ hnumeral htext _ =>
    cases hts
    refine ⟨digits, text, ?_, hnumeral, htext⟩
    obtain ⟨c, cs, rfl, hc⟩ := hnumeral.exists_cons
    exact skip_cons (isBlank_of_isWordChar (isWordChar_of_isDigit hc)) _

/-- Nothing but blanks is left where no token is. -/
theorem skip_of_lexes_nil (h : Lexes text []) : skip text = [] := by
  generalize hts : ([] : List Token) = ts at h
  induction h with
  | nil => rfl
  | blank hblank _ ih => rw [skip_blank hblank]; exact ih hts
  | sign | word | number => cases hts

/-- A text that starts with a sign has it for its first token. -/
theorem exists_of_isSign {c : Char} {ts : List Token} (hsign : isSign c = true) (h : Lexes (c :: rest) ts) :
    ∃ us, ts = .sign c :: us := by
  have hletter := isWordChar_of_isSign hsign
  generalize htext : c :: rest = text at h
  cases h with
  | nil => cases htext
  | blank hblank =>
    cases htext
    rw [isBlank_of_isSign hsign] at hblank
    cases hblank
  | sign => cases htext; exact ⟨_, rfl⟩
  | word hword =>
    obtain ⟨first, others, hcons, hfirst⟩ := hword.exists_cons
    rw [hcons] at htext
    cases htext
    rw [hletter] at hfirst
    cases hfirst
  | number hnumeral =>
    obtain ⟨first, others, rfl, hfirst⟩ := hnumeral.exists_cons
    cases htext
    rw [isWordChar_of_isDigit hfirst] at hletter
    cases hletter

theorem spacedChar?_of_lexes {c : Char} (h : Lexes text (.sign c :: us)) :
    ∃ rest, spacedChar? c text = some rest ∧ Lexes rest us ∧ skip rest = rest := by
  obtain ⟨rest, hskip, hrest⟩ := exists_of_lexes_sign h
  refine ⟨skip rest, ?_, skip_of_lexes hrest, skip_skip rest⟩
  rw [spacedChar?, hskip, char?, if_pos rfl]
  rfl

/-- In front of a sign that stands without blanks before it. -/
theorem char?_of_lexes {c : Char} (h : Lexes text (.sign c :: us)) (hskip : skip text = text) :
    ∃ rest, text = c :: rest ∧ char? c text = some rest ∧ Lexes rest us := by
  obtain ⟨rest, hcons, hrest⟩ := exists_of_lexes_sign h
  rw [hskip] at hcons
  refine ⟨rest, hcons, ?_, hrest⟩
  rw [hcons, char?, if_pos rfl]

theorem spacedWord?_of_lexes {word : String} (h : Lexes text (.word word :: us)) :
    ∃ rest, spacedWord? text = some (word, rest) ∧ Lexes rest us ∧ skip rest = rest := by
  obtain ⟨rest, hskip, hword, hend, hrest⟩ := exists_of_lexes_word h
  refine ⟨skip rest, ?_, skip_of_lexes hrest, skip_skip rest⟩
  rw [spacedWord?, hskip, word?_append hword hend]
  rfl

/-- Where another token comes next, a sign is not read. -/
theorem spacedChar?_eq_none {c : Char} (hsign : isSign c = true) (h : Lexes text us)
    (hne : Token.sign c ∉ us.head?) : spacedChar? c text = none := by
  rw [spacedChar?]
  cases hskip : skip text with
  | nil => rfl
  | cons first others =>
    rw [char?, if_neg]
    · rfl
    · rintro rfl
      obtain ⟨_, rfl⟩ := exists_of_isSign hsign (hskip ▸ skip_of_lexes h)
      exact hne rfl

/-! ## What follows a phrase -/

/-- Is the next token, if there is one, among some signs? -/
def Ends (signs : List Char) (us : List Token) : Prop := ∀ t ∈ us.head?, ∃ c ∈ signs, t = .sign c

/-- The signs that can follow an operand, a product, and an expression. -/
def afterUnary : List Char := [')', ',', '+', '-', '*', '/']

def afterTerm : List Char := [')', ',', '+', '-']

def afterExpr : List Char := [')', ',']

theorem Ends.mono {signs signs' : List Char} (h : Ends signs us) (hsub : signs ⊆ signs') : Ends signs' us := by
  intro t ht
  obtain ⟨c, hc, rfl⟩ := h t ht
  exact ⟨c, hsub hc, rfl⟩

theorem ends_nil (signs : List Char) : Ends signs [] := fun _ h => by cases h

theorem ends_sign {signs : List Char} {c : Char} (h : c ∈ signs) (us : List Token) : Ends signs (.sign c :: us) := by
  intro t ht
  cases ht
  exact ⟨c, h, rfl⟩

theorem Ends.notMem {signs : List Char} (h : Ends signs us) {c : Char} (hc : c ∉ signs) :
    Token.sign c ∉ us.head? := by
  intro hmem
  obtain ⟨d, hd, heq⟩ := h _ hmem
  cases heq
  exact hc hd

/-- In front of a sign no word goes on. -/
theorem Ends.halts {signs : List Char} (h : Ends signs us) (hrest : Lexes rest us) :
    ∀ c ∈ rest.head?, isWordChar c = false := by
  intro c hc
  cases hrest with
  | nil => cases hc
  | @blank d text _ hblank =>
    cases hc
    by_contra hletter
    rw [isBlank_of_isWordChar (by simpa using hletter)] at hblank
    cases hblank
  | sign hsign =>
    cases hc
    exact isWordChar_of_isSign hsign
  | word =>
    obtain ⟨_, _, heq⟩ := h _ rfl
    cases heq
  | number =>
    obtain ⟨_, _, heq⟩ := h _ rfl
    cases heq

/-! ## Atoms without parts -/

theorem number?_numeral {digits : List Char} {value : Float} (h : Numeral digits value)
    (hend : ∀ c ∈ rest.head?, isWordChar c = false) : number? (digits ++ rest) = some (number value, rest) := by
  have hdigit : ∀ c ∈ rest.head?, c.isDigit = false := by
    intro c hc
    by_contra hdigit
    have hletter := isWordChar_of_isDigit (by simpa using hdigit : c.isDigit = true)
    rw [hend c hc] at hletter
    cases hletter
  cases h with
  | integer hne hdigits =>
    obtain ⟨d, ds, rfl⟩ := List.exists_cons_of_ne_nil hne
    rw [number?, span_append hdigits hdigit]
    split
    · rename_i heq
      cases heq
    · rename_i heq
      cases heq
      -- a point would go on
      exact absurd (hend '.' rfl) (by decide)
    · rename_i heq
      cases heq
      rfl
  | @fraction integer fraction hne hdigits hne' hdigits' =>
    obtain ⟨d, ds, rfl⟩ := List.exists_cons_of_ne_nil hne
    obtain ⟨f, fs, rfl⟩ := List.exists_cons_of_ne_nil hne'
    have hpoint : ∀ c ∈ ('.' :: (f :: fs ++ rest)).head?, c.isDigit = false := by
      intro c hc
      cases hc
      decide
    have htext : d :: ds ++ '.' :: (f :: fs) ++ rest = d :: ds ++ '.' :: (f :: fs ++ rest) := by
      rw [List.append_assoc]
      rfl
    rw [htext, number?, span_append hdigits hpoint]
    simp only
    rw [span_append hdigits' hdigit]

theorem number?_eq_none {c : Char} (hc : c.isDigit = false) (rest : List Char) :
    number? (c :: rest) = none := by
  rw [number?, List.span_eq_takeWhile_dropWhile, List.takeWhile_cons_of_neg (by simp [hc])]

theorem tokens?_eq_none {c : Char} (hc : c ≠ '#') (rest : List Char) : tokens? (c :: rest) = none := by
  rw [tokens?, char?, if_neg hc]
  rfl

theorem bracketed?_eq_none {c : Char} (hc : c ≠ '(') (rest : List Char) (fuel : Nat) :
    bracketed? fuel (c :: rest) = none := by
  cases fuel with
  | zero => rfl
  | succ fuel =>
    rw [bracketed?, char?, if_neg hc]
    rfl

/-! No word of the grammar starts with a character that is none of a word. -/

theorem tag?_eq_none {tag : List Char} {c : Char} (htag : c ∉ tag.head?) (hne : tag ≠ []) (rest : List Char) :
    tag? tag (c :: rest) = none := by
  obtain ⟨t, ts, rfl⟩ := List.exists_cons_of_ne_nil hne
  rw [tag?, char?, if_neg]
  · rfl
  · rintro rfl
    exact htag rfl

theorem capacity?_eq_none {c : Char} (hc : isWordChar c = false) (rest : List Char) :
    capacity? (c :: rest) = none := by
  have htag : tag? ['c', 'a', 'p'] (c :: rest) = none := by
    refine tag?_eq_none ?_ (by decide) rest
    rintro ⟨⟩
    exact absurd hc (by decide)
  rw [capacity?, htag]
  rfl

theorem call?_eq_none {c : Char} (hc : isWordChar c = false) (rest : List Char) (fuel : Nat) :
    call? fuel (c :: rest) = none := by
  cases fuel with
  | zero => rfl
  | succ fuel =>
    have hcallee : callee? (c :: rest) = none := by
      refine List.findSome?_eq_none_iff.2 fun callee _ => Option.map_eq_none_iff.2 (tag?_eq_none ?_ ?_ rest)
      · intro hmem
        cases callee <;> cases hmem <;> exact absurd hc (by decide)
      · cases callee <;> decide
    rw [call?, hcallee]
    rfl

theorem parameter?_eq_none {c : Char} (hc : isWordChar c = false) (rest : List Char) :
    parameter? (c :: rest) = none := by
  rw [parameter?, word?, List.span_eq_takeWhile_dropWhile, List.takeWhile_cons_of_neg (by simp [hc])]
  rfl

/-- The tokens of a place, perhaps in one colour. -/
theorem tokens?_of_lexes {place : String} {color : Option String}
    (h : Lexes text (.sign '#' :: .sign '(' :: .word place ::
      (color.elim [] (fun c => [.sign ',', .word c]) ++ .sign ')' :: us))) (hskip : skip text = text) :
    ∃ rest, tokens? text = some (tokens place color, rest) ∧ Lexes rest us := by
  obtain ⟨sharp, _, hsharp, h⟩ := char?_of_lexes h hskip
  obtain ⟨opened, hopened, h, _⟩ := spacedChar?_of_lexes h
  obtain ⟨named, hplace, h, hnamed⟩ := spacedWord?_of_lexes h
  cases color with
  | none =>
    obtain ⟨closed, hcons, hclosed, h⟩ := char?_of_lexes h hnamed
    refine ⟨closed, ?_, h⟩
    have hcolor : colorOption named = (none, named) := by
      rw [colorOption, hcons, char?, if_neg (by decide)]
    simp only [tokens?, hsharp, hopened, hplace, hcolor, hclosed, Option.bind_eq_bind, Option.bind_some]
  | some color =>
    obtain ⟨parted, _, hparted, h⟩ := char?_of_lexes h hnamed
    obtain ⟨colored, hcolor, h, hcolored⟩ := spacedWord?_of_lexes h
    obtain ⟨closed, _, hclosed, h⟩ := char?_of_lexes h hcolored
    refine ⟨closed, ?_, h⟩
    simp only [tokens?, hsharp, hopened, hplace, colorOption, hparted, hcolor, hclosed, Option.bind_eq_bind,
      Option.bind_some]

theorem tag?_append (tag rest : List Char) : tag? tag (tag ++ rest) = some rest := by
  induction tag with
  | nil => rfl
  | cons t ts ih => rw [List.cons_append, tag?, char?, if_pos rfl, Option.bind_some, ih]

theorem capacity?_of_lexes {place : String}
    (h : Lexes text (.word "cap" :: .sign '(' :: .word place :: .sign ')' :: us)) (hskip : skip text = text) :
    ∃ rest, capacity? text = some (capacity place, rest) ∧ Lexes rest us := by
  obtain ⟨tagged, htext, _, _, h⟩ := exists_of_lexes_word h
  obtain ⟨opened, hopened, h, _⟩ := spacedChar?_of_lexes h
  obtain ⟨named, hplace, h, hnamed⟩ := spacedWord?_of_lexes h
  obtain ⟨closed, _, hclosed, h⟩ := char?_of_lexes h hnamed
  refine ⟨closed, ?_, h⟩
  have htag : tag? ['c', 'a', 'p'] text = some tagged := by
    rw [← hskip, htext]
    exact tag?_append _ tagged
  simp only [capacity?, htag, hopened, hplace, hclosed, Option.bind_eq_bind, Option.bind_some]

/-! ## Words that are no look-ups and no calls -/

/-- A fixed word that a text of word characters starts with leaves such a text. -/
theorem tag?_word {tag word after : List Char} (htag : ∀ c ∈ tag, isWordChar c = true)
    (hword : ∀ c ∈ word, isWordChar c = true) (hend : ∀ c ∈ rest.head?, isWordChar c = false)
    (h : tag? tag (word ++ rest) = some after) :
    ∃ left, after = left ++ rest ∧ ∀ c ∈ left, isWordChar c = true := by
  induction tag generalizing word with
  | nil =>
    cases h
    exact ⟨word, rfl, hword⟩
  | cons t ts ih =>
    rw [List.forall_mem_cons] at htag
    cases word with
    | nil =>
      -- the rest does not go on with a character of the tag
      cases rest with
      | nil => cases h
      | cons r rest =>
        have hne : r ≠ t := by
          rintro rfl
          rw [hend r rfl] at htag
          cases htag.1
        rw [List.nil_append, tag?, char?, if_neg hne] at h
        cases h
    | cons w ws =>
      rw [List.forall_mem_cons] at hword
      rw [List.cons_append, tag?, char?] at h
      split at h
      · exact ih htag.2 hword.2 h
      · cases h

/-- No bracket opens after word characters. -/
theorem spacedChar?_word {word : List Char} (hword : ∀ c ∈ word, isWordChar c = true)
    (hopen : spacedChar? '(' rest = none) : spacedChar? '(' (word ++ rest) = none := by
  cases word with
  | nil => exact hopen
  | cons c cs =>
    have hc := hword c (List.mem_cons_self ..)
    rw [List.cons_append, spacedChar?, skip_cons (isBlank_of_isWordChar hc), char?, if_neg]
    · rfl
    · rintro rfl
      exact absurd hc (by decide)

section

variable {word : List Char} (hword : ∀ c ∈ word, isWordChar c = true)
  (hend : ∀ c ∈ rest.head?, isWordChar c = false) (hopen : spacedChar? '(' rest = none)

include hword hend hopen

theorem capacity?_word : capacity? (word ++ rest) = none := by
  rw [capacity?]
  cases htag : tag? ['c', 'a', 'p'] (word ++ rest) with
  | none => rfl
  | some after =>
    have hcap : IsWord "cap" := by decide
    obtain ⟨left, rfl, hleft⟩ := tag?_word hcap.2 hword hend htag
    simp only [Option.bind_eq_bind, Option.bind_some, spacedChar?_word hleft hopen, Option.bind_none]

theorem call?_word (fuel : Nat) : call? fuel (word ++ rest) = none := by
  cases fuel with
  | zero => rfl
  | succ fuel =>
    rw [call?]
    cases hcallee : callee? (word ++ rest) with
    | none => rfl
    | some found =>
      obtain ⟨callee, _, htag⟩ := List.exists_of_findSome?_eq_some hcallee
      obtain ⟨after, hafter, rfl⟩ := Option.map_eq_some_iff.1 htag
      have hname : IsWord callee.name := by cases callee <;> decide
      obtain ⟨left, rfl, hleft⟩ := tag?_word hname.2 hword hend hafter
      simp only [Option.bind_eq_bind, Option.bind_some, spacedChar?_word hleft hopen, Option.bind_none]

end

theorem atom?_parameter {id : String} (hid : IsParameterName id)
    (hend : ∀ c ∈ rest.head?, isWordChar c = false) (hopen : spacedChar? '(' rest = none) (fuel : Nat) :
    atom? (fuel + 1) (id.toList ++ rest) = some (parameter id, rest) := by
  obtain ⟨c, cs, hcons, hc⟩ := hid.1.exists_cons
  have hdigit : c.isDigit = false := hid.2 c (by rw [hcons]; rfl)
  have hne : ∀ d, isWordChar d = false → c ≠ d := by
    rintro d hd rfl
    rw [hc] at hd
    cases hd
  have hnumber : number? (id.toList ++ rest) = none := by
    rw [hcons]
    exact number?_eq_none hdigit _
  have htokens : tokens? (id.toList ++ rest) = none := by
    rw [hcons]
    exact tokens?_eq_none (hne '#' (by decide)) _
  have hbracketed : bracketed? fuel (id.toList ++ rest) = none := by
    rw [hcons]
    exact bracketed?_eq_none (hne '(' (by decide)) _ _
  have hparameter : parameter? (id.toList ++ rest) = some (parameter id, rest) := by
    rw [parameter?, word?_append hid.1 hend]
    rfl
  rw [atom?, hnumber, htokens, capacity?_word hid.1.2 hend hopen, call?_word hid.1.2 hend hopen,
    hbracketed, hparameter]
  rfl

/-! ## Phrases -/

/-- Reading a phrase in front of other tokens, under a bound on nested steps that its own tokens set. What is
read of an expression or a product is the loop over further operands, with what came before: the caller
ends it or lets it go on. -/
def Reads : Phrase → List Token → Prop
  | .expr e, ts => ∀ fuel text us, 6 * ts.length + 4 ≤ fuel → Lexes text (ts ++ us) → Ends afterTerm us →
      ∃ left rest, fuel ≤ left + ts.length + 1 ∧ Lexes rest us ∧ expr? fuel text = some (terms left e rest)
  | .term e, ts => ∀ fuel text us, 6 * ts.length + 3 ≤ fuel → Lexes text (ts ++ us) → Ends afterUnary us →
      ∃ left rest, fuel ≤ left + ts.length + 1 ∧ Lexes rest us ∧ term? fuel text = some (unaries left e rest)
  | .unary e, ts => ∀ fuel text us, 6 * ts.length + 2 ≤ fuel → Lexes text (ts ++ us) → Ends afterUnary us →
      ∃ rest, Lexes rest us ∧ unary? fuel text = some (e, rest)
  | .atom e, ts => ∀ fuel text us, 6 * ts.length + 1 ≤ fuel → Lexes text (ts ++ us) → Ends afterUnary us →
      skip text = text → ∃ rest, Lexes rest us ∧ atom? fuel text = some (e, rest)
  | .arguments es, ts => ∀ fuel text us, 6 * ts.length + 4 ≤ fuel → Lexes text (ts ++ .sign ')' :: us) →
      ∃ first others middle rest, es = first :: others ∧ expr? fuel text = some (first, middle) ∧
        arguments fuel (skip middle) = (others, ')' :: rest) ∧ Lexes rest us

/-- A sign between operands that is asked for is read. -/
theorem operation?_of_lexes {first second operation : Operation} (hone : operation = first ∨ operation = second)
    (h : Lexes text (.sign operation.sign :: us)) :
    ∃ rest, operation? first second text = some (operation, rest) ∧ Lexes rest us := by
  obtain ⟨rest, hsign, hrest, _⟩ := spacedChar?_of_lexes h
  refine ⟨rest, ?_, hrest⟩
  unfold operation?
  by_cases hfirst : operation = first
  · subst hfirst
    rw [hsign]
  · obtain rfl := hone.resolve_left hfirst
    -- the other sign is another token
    have hnone : spacedChar? first.sign text = none := by
      refine spacedChar?_eq_none (isSign_sign first) h fun hmem => hfirst ?_
      have heq : first.sign = operation.sign := Token.sign.inj (Option.some.inj hmem).symm
      cases first <;> cases operation <;> first | rfl | exact absurd heq (by decide)
    rw [hnone, hsign]
    rfl

theorem operation?_eq_none {first second : Operation} (h : Lexes text us)
    (hfirst : Token.sign first.sign ∉ us.head?) (hsecond : Token.sign second.sign ∉ us.head?) :
    operation? first second text = none := by
  rw [operation?, spacedChar?_eq_none (isSign_sign first) h hfirst,
    spacedChar?_eq_none (isSign_sign second) h hsecond]
  rfl

theorem unaries_of_none {fuel : Nat} {e : Expr} (h : operation? .mul .div text = none) :
    unaries fuel e text = (e, text) := by
  cases fuel with
  | zero => rfl
  | succ fuel => rw [unaries, h]

theorem terms_of_none {fuel : Nat} {e : Expr} (h : operation? .add .sub text = none) :
    terms fuel e text = (e, text) := by
  cases fuel with
  | zero => rfl
  | succ fuel => rw [terms, h]

/-- The loop over products ends where the product does. -/
theorem unaries_of_ends {fuel : Nat} {e : Expr} (h : Lexes rest us) (hends : Ends afterTerm us) :
    unaries fuel e rest = (e, rest) :=
  unaries_of_none (operation?_eq_none h (hends.notMem (by decide)) (hends.notMem (by decide)))

theorem terms_of_ends {fuel : Nat} {e : Expr} (h : Lexes rest us) (hends : Ends afterExpr us) :
    terms fuel e rest = (e, rest) :=
  terms_of_none (operation?_eq_none h (hends.notMem (by decide)) (hends.notMem (by decide)))

theorem Reads.term_ends {e : Expr} {ts : List Token} (h : Reads (.term e) ts) (fuel : Nat)
    (hfuel : 6 * ts.length + 3 ≤ fuel) (hlexes : Lexes text (ts ++ us)) (hends : Ends afterTerm us) :
    ∃ rest, Lexes rest us ∧ term? fuel text = some (e, rest) := by
  obtain ⟨left, rest, _, hrest, hterm⟩ := h fuel text us hfuel hlexes (hends.mono (by decide))
  rw [unaries_of_ends hrest hends] at hterm
  exact ⟨rest, hrest, hterm⟩

theorem Reads.expr_ends {e : Expr} {ts : List Token} (h : Reads (.expr e) ts) (fuel : Nat)
    (hfuel : 6 * ts.length + 4 ≤ fuel) (hlexes : Lexes text (ts ++ us)) (hends : Ends afterExpr us) :
    ∃ rest, Lexes rest us ∧ expr? fuel text = some (e, rest) := by
  obtain ⟨left, rest, _, hrest, hexpr⟩ := h fuel text us hfuel hlexes (hends.mono (by decide))
  rw [terms_of_ends hrest hends] at hexpr
  exact ⟨rest, hrest, hexpr⟩

theorem Reads.exprTerm {e : Expr} {ts : List Token} (h : Reads (.term e) ts) : Reads (.expr e) ts := by
  intro fuel text us hfuel hlexes hends
  obtain ⟨k, rfl⟩ : ∃ k, fuel = k + 1 := ⟨fuel - 1, by omega⟩
  obtain ⟨rest, hrest, hterm⟩ := h.term_ends k (by omega) hlexes hends
  refine ⟨k, rest, by omega, hrest, ?_⟩
  rw [expr?, hterm]
  rfl

theorem Reads.termUnary {e : Expr} {ts : List Token} (h : Reads (.unary e) ts) : Reads (.term e) ts := by
  intro fuel text us hfuel hlexes hends
  obtain ⟨k, rfl⟩ : ∃ k, fuel = k + 1 := ⟨fuel - 1, by omega⟩
  obtain ⟨rest, hrest, hunary⟩ := h k text us (by omega) hlexes hends
  refine ⟨k, rest, by omega, hrest, ?_⟩
  rw [term?, hunary]
  rfl

/-- The loop over sums, which stands before the sign, takes one more operand. -/
theorem Reads.exprBinary {operation : Operation} {left right : Expr} {ts vs : List Token}
    (hadditive : operation.isAdditive = true) (hleft : Reads (.expr left) ts) (hright : Reads (.term right) vs) :
    Reads (.expr (binary operation left right)) (ts ++ .sign operation.sign :: vs) := by
  intro fuel text us hfuel hlexes hends
  rw [List.length_append, List.length_cons] at hfuel ⊢
  rw [List.append_assoc, List.cons_append] at hlexes
  have hone := Operation.eq_of_isAdditive hadditive
  have hsign : operation.sign ∈ afterTerm := by rcases hone with rfl | rfl <;> decide
  obtain ⟨k, middle, hk, hmiddle, hexpr⟩ := hleft fuel text _ (by omega) hlexes (ends_sign hsign _)
  obtain ⟨j, rfl⟩ : ∃ j, k = j + 1 := ⟨k - 1, by omega⟩
  obtain ⟨after, hoperation, hafter⟩ := operation?_of_lexes hone hmiddle
  obtain ⟨rest, hrest, hterm⟩ := hright.term_ends j (by omega) hafter hends
  refine ⟨j, rest, by omega, hrest, ?_⟩
  rw [hexpr, terms, hoperation]
  simp only [hterm]

theorem Reads.termBinary {operation : Operation} {left right : Expr} {ts vs : List Token}
    (hadditive : operation.isAdditive = false) (hleft : Reads (.term left) ts) (hright : Reads (.unary right) vs) :
    Reads (.term (binary operation left right)) (ts ++ .sign operation.sign :: vs) := by
  intro fuel text us hfuel hlexes hends
  rw [List.length_append, List.length_cons] at hfuel ⊢
  rw [List.append_assoc, List.cons_append] at hlexes
  have hone := Operation.eq_of_not_isAdditive hadditive
  have hsign : operation.sign ∈ afterUnary := by rcases hone with rfl | rfl <;> decide
  obtain ⟨k, middle, hk, hmiddle, hterm⟩ := hleft fuel text _ (by omega) hlexes (ends_sign hsign _)
  obtain ⟨j, rfl⟩ : ∃ j, k = j + 1 := ⟨k - 1, by omega⟩
  obtain ⟨after, hoperation, hafter⟩ := operation?_of_lexes hone hmiddle
  obtain ⟨rest, hrest, hunary⟩ := hright j after us (by omega) hafter hends
  refine ⟨j, rest, by omega, hrest, ?_⟩
  rw [hterm, unaries, hoperation]
  simp only [hunary]

/-- No atom starts with the sign of a negation. -/
theorem Derives.head_atom {e : Expr} {ts : List Token} (h : Derives (.atom e) ts) (us : List Token) :
    Token.sign '-' ∉ (ts ++ us).head? := by
  intro hmem
  cases h <;> cases hmem

theorem Reads.unaryAtom {e : Expr} {ts : List Token} (hderives : Derives (.atom e) ts) (h : Reads (.atom e) ts) :
    Reads (.unary e) ts := by
  intro fuel text us hfuel hlexes hends
  obtain ⟨k, rfl⟩ : ∃ k, fuel = k + 1 := ⟨fuel - 1, by omega⟩
  obtain ⟨rest, hrest, hatom⟩ := h k (skip text) us (by omega) (skip_of_lexes hlexes) hends (skip_skip text)
  refine ⟨skip rest, skip_of_lexes hrest, ?_⟩
  rw [unary?, spacedChar?_eq_none (by decide) hlexes (hderives.head_atom us)]
  simp only [Option.bind_none, hatom, Option.map_some]

theorem Reads.unaryNeg {e : Expr} {ts : List Token} (h : Reads (.unary e) ts) :
    Reads (.unary (neg e)) (.sign '-' :: ts) := by
  intro fuel text us hfuel hlexes hends
  rw [List.length_cons] at hfuel
  obtain ⟨k, rfl⟩ : ∃ k, fuel = k + 1 := ⟨fuel - 1, by omega⟩
  obtain ⟨after, hsign, hafter, _⟩ := spacedChar?_of_lexes hlexes
  obtain ⟨rest, hrest, hunary⟩ := h k after us (by omega) hafter hends
  refine ⟨rest, hrest, ?_⟩
  rw [unary?, hsign]
  simp only [Option.bind_some, hunary]

theorem reads_number {value : Float} : Reads (.atom (number value)) [.number value] := by
  intro fuel text us hfuel hlexes hends hskip
  obtain ⟨k, rfl⟩ : ∃ k, fuel = k + 1 := ⟨fuel - 1, by omega⟩
  obtain ⟨digits, rest, htext, hnumeral, hrest⟩ := exists_of_lexes_number hlexes
  refine ⟨rest, hrest, ?_⟩
  rw [← hskip, htext, atom?, number?_numeral hnumeral (hends.halts hrest)]
  rfl

theorem reads_tokens {place : String} {color : Option String} {ts : List Token}
    (hts : ts = .sign '#' :: .sign '(' :: .word place ::
      (color.elim [] (fun c => [.sign ',', .word c]) ++ [.sign ')'])) : Reads (.atom (tokens place color)) ts := by
  intro fuel text us hfuel hlexes hends hskip
  subst hts
  obtain ⟨k, rfl⟩ : ∃ k, fuel = k + 1 := ⟨fuel - 1, by omega⟩
  simp only [List.cons_append, List.append_assoc, List.nil_append] at hlexes
  obtain ⟨rest, htokens, hrest⟩ := tokens?_of_lexes hlexes hskip
  refine ⟨rest, hrest, ?_⟩
  obtain ⟨after, rfl, _⟩ := char?_of_lexes hlexes hskip
  rw [atom?, number?_eq_none (by decide), htokens]
  rfl

/-- A text that starts with a word that starts with no digit is no number and no count of tokens. -/
theorem exists_of_keyword {word : String} (h : Lexes text (.word word :: us)) (hskip : skip text = text)
    (hdigit : ∀ c ∈ word.toList.head?, c.isDigit = false) :
    ∃ rest, text = word.toList ++ rest ∧ number? text = none ∧ tokens? text = none ∧ Lexes rest us := by
  obtain ⟨rest, htext, hword, _, hrest⟩ := exists_of_lexes_word h
  rw [hskip] at htext
  obtain ⟨c, cs, hcons, hc⟩ := hword.exists_cons
  have hsharp : c ≠ '#' := by
    rintro rfl
    exact absurd hc (by decide)
  refine ⟨rest, htext, ?_, ?_, hrest⟩
  · rw [htext, hcons]
    exact number?_eq_none (hdigit c (by rw [hcons]; rfl)) _
  · rw [htext, hcons]
    exact tokens?_eq_none hsharp _

theorem reads_capacity {place : String} :
    Reads (.atom (capacity place)) [.word "cap", .sign '(', .word place, .sign ')'] := by
  intro fuel text us hfuel hlexes hends hskip
  obtain ⟨k, rfl⟩ : ∃ k, fuel = k + 1 := ⟨fuel - 1, by omega⟩
  obtain ⟨rest, hcapacity, hrest⟩ := capacity?_of_lexes hlexes hskip
  obtain ⟨_, _, hnumber, htokens, _⟩ := exists_of_keyword hlexes hskip (by simp)
  refine ⟨rest, hrest, ?_⟩
  rw [atom?, hnumber, htokens, hcapacity]
  rfl

theorem reads_parameter {id : String} (hdigit : ∀ c ∈ id.toList.head?, c.isDigit = false) :
    Reads (.atom (parameter id)) [.word id] := by
  intro fuel text us hfuel hlexes hends hskip
  obtain ⟨k, rfl⟩ : ∃ k, fuel = k + 1 := ⟨fuel - 1, by omega⟩
  obtain ⟨rest, htext, hword, hend, hrest⟩ := exists_of_lexes_word hlexes
  refine ⟨rest, hrest, ?_⟩
  rw [← hskip, htext]
  exact atom?_parameter ⟨hword, hdigit⟩ hend (spacedChar?_eq_none (by decide) hrest (hends.notMem (by decide))) k

theorem Reads.bracketed {e : Expr} {ts : List Token} (h : Reads (.expr e) ts) :
    Reads (.atom e) (.sign '(' :: (ts ++ [.sign ')'])) := by
  intro fuel text us hfuel hlexes hends hskip
  rw [List.length_cons, List.length_append, List.length_singleton] at hfuel
  rw [List.cons_append, List.append_assoc, List.singleton_append] at hlexes
  obtain ⟨k, rfl⟩ : ∃ k, fuel = k + 2 := ⟨fuel - 2, by omega⟩
  obtain ⟨inner, rfl, hopened, hinner⟩ := char?_of_lexes hlexes hskip
  obtain ⟨middle, hmiddle, hexpr⟩ := h.expr_ends k (by omega) (skip_of_lexes hinner) (ends_sign (by decide) us)
  obtain ⟨rest, hcons, hclosed, hrest⟩ := char?_of_lexes (skip_of_lexes hmiddle) (skip_skip middle)
  refine ⟨rest, hrest, ?_⟩
  have hbracketed : bracketed? (k + 1) ('(' :: inner) = some (e, rest) := by
    simp only [bracketed?, hopened, hexpr, hclosed, Option.bind_eq_bind, Option.bind_some]
  rw [atom?, number?_eq_none (by decide), tokens?_eq_none (by decide), capacity?_eq_none (by decide),
    call?_eq_none (by decide), hbracketed]
  rfl

theorem callee?_append (callee : Callee) (rest : List Char) :
    callee? (callee.name.toList ++ rest) = some (callee, rest) := by
  cases callee <;> simp [callee?, tag?, char?, Callee.name]

theorem Reads.call {callee : Callee} {es : List Expr} {ts : List Token} (htakes : callee.Takes es.length)
    (h : Reads (.arguments es) ts) :
    Reads (.atom (call callee es)) (.word callee.name :: .sign '(' :: (ts ++ [.sign ')'])) := by
  intro fuel text us hfuel hlexes hends hskip
  rw [List.length_cons, List.length_cons, List.length_append, List.length_singleton] at hfuel
  rw [List.cons_append, List.cons_append, List.append_assoc, List.singleton_append] at hlexes
  obtain ⟨k, rfl⟩ : ∃ k, fuel = k + 2 := ⟨fuel - 2, by omega⟩
  have hdigit : ∀ c ∈ callee.name.toList.head?, c.isDigit = false := by cases callee <;> simp [Callee.name]
  obtain ⟨tagged, rfl, hnumber, htokens, htagged⟩ := exists_of_keyword hlexes hskip hdigit
  obtain ⟨opened, hopened, hlexes', _⟩ := spacedChar?_of_lexes htagged
  obtain ⟨first, others, middle, rest, rfl, hfirst, hothers, hrest⟩ :=
    h k (skip opened) us (by omega) (skip_of_lexes hlexes')
  refine ⟨rest, hrest, ?_⟩
  have hunary : (callee.isUnary && !others.isEmpty) = false := by
    cases hcallee : callee.isUnary with
    | false => rfl
    | true =>
      have hlength := htakes.2 hcallee
      rw [List.length_cons, Nat.add_eq_right, List.length_eq_zero_iff] at hlength
      rw [hlength]
      rfl
  have hcapacity : capacity? (callee.name.toList ++ tagged) = none := by cases callee <;> rfl
  have hcall : call? (k + 1) (callee.name.toList ++ tagged) = some (Expr.call callee (first :: others), rest) := by
    simp only [call?, callee?_append, hopened, hfirst, hothers, char?, hunary, Option.bind_eq_bind,
      Option.bind_some, if_true]
    rfl
  rw [atom?, hnumber, htokens, hcapacity, hcall]
  rfl

theorem Reads.argumentsOne {e : Expr} {ts : List Token} (h : Reads (.expr e) ts) : Reads (.arguments [e]) ts := by
  intro fuel text us hfuel hlexes
  obtain ⟨middle, hmiddle, hexpr⟩ := h.expr_ends fuel hfuel hlexes (ends_sign (by decide) us)
  obtain ⟨rest, hcons, _, hrest⟩ := char?_of_lexes (skip_of_lexes hmiddle) (skip_skip middle)
  refine ⟨e, [], middle, rest, rfl, hexpr, ?_, hrest⟩
  rw [hcons]
  cases fuel <;> rfl

theorem Reads.argumentsCons {e : Expr} {es : List Expr} {ts vs : List Token} (h : Reads (.expr e) ts)
    (h' : Reads (.arguments es) vs) : Reads (.arguments (e :: es)) (ts ++ .sign ',' :: vs) := by
  intro fuel text us hfuel hlexes
  rw [List.length_append, List.length_cons] at hfuel
  rw [List.append_assoc, List.cons_append] at hlexes
  obtain ⟨k, rfl⟩ : ∃ k, fuel = k + 1 := ⟨fuel - 1, by omega⟩
  obtain ⟨middle, hmiddle, hexpr⟩ := h.expr_ends (k + 1) (by omega) hlexes (ends_sign (by decide) _)
  obtain ⟨parted, _, hparted, hlexes'⟩ := char?_of_lexes (skip_of_lexes hmiddle) (skip_skip middle)
  obtain ⟨second, others, middle', rest, rfl, hsecond, hothers, hrest⟩ :=
    h' k (skip parted) us (by omega) (skip_of_lexes hlexes')
  refine ⟨e, second :: others, middle, rest, rfl, hexpr, ?_, hrest⟩
  rw [arguments, hparted]
  simp only [hsecond, hothers]

/-- The induction is on the derivation: whatever tokens derive is read off a text that they are tokens of. -/
theorem Derives.reads {phrase : Phrase} {ts : List Token} (h : Derives phrase ts) : Reads phrase ts := by
  induction h with
  | exprTerm _ ih => exact ih.exprTerm
  | exprBinary hadditive _ _ ihleft ihright => exact Reads.exprBinary hadditive ihleft ihright
  | termUnary _ ih => exact ih.termUnary
  | termBinary hadditive _ _ ihleft ihright => exact Reads.termBinary hadditive ihleft ihright
  | unaryAtom hatom ih => exact Reads.unaryAtom hatom ih
  | unaryNeg _ ih => exact ih.unaryNeg
  | number => exact reads_number
  | tokensAll => exact reads_tokens rfl
  | tokensColor => exact reads_tokens rfl
  | capacity => exact reads_capacity
  | call htakes _ ih => exact Reads.call htakes ih
  | bracketed _ ih => exact ih.bracketed
  | parameter hdigit => exact reads_parameter hdigit
  | argumentsOne _ ih => exact ih.argumentsOne
  | argumentsCons _ _ ihfirst ihothers => exact Reads.argumentsCons ihfirst ihothers

/-- A text is read as the expression that it derives. -/
theorem Derivable.ofText_eq {text : String} {e : Expr} (h : Derivable text e) : ofText text = .ok e := by
  obtain ⟨ts, hlexes, hderives⟩ := h
  have hfuel : 6 * ts.length + 4 ≤ depth text.toList := by
    have hlength := hlexes.length_le
    unfold depth
    omega
  have htokens : Lexes (skip text.toList) (ts ++ []) := by
    rw [List.append_nil]
    exact skip_of_lexes hlexes
  obtain ⟨rest, hrest, hexpr⟩ := hderives.reads.expr_ends _ hfuel htokens (ends_nil _)
  rw [ofText, ofChars, hexpr]
  simp only [skip_of_lexes_nil hrest]

/-- The reader accepts exactly the texts that derive an expression, and no text derives two. -/
theorem ofText_eq_ok_iff (text : String) (e : Expr) : (ofText text = .ok e ↔ Derivable text e) ∧
    ∀ e', Derivable text e → Derivable text e' → e' = e := by
  refine ⟨⟨derivable_of_ofText, Derivable.ofText_eq⟩, fun e' h h' => ?_⟩
  have heq := h'.ofText_eq
  rw [h.ofText_eq] at heq
  exact (Except.ok.inj heq).symm

end PetriTree.Expr
