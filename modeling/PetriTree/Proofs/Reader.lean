import PetriTree.Proofs.Grammar

/-!
# PetriTree — what is read follows the grammar

Every function of the reader takes a text and leaves a rest of it. What stands between the two are tokens,
and they derive what the function yields. This holds under any bound on nested steps: where the bound is
reached, less is read, and what is read is as good as ever.

Main results:
* `Expr.Spends`, `Expr.Yields` — reading from a text to a rest of it;
* `Expr.Follows` — what the functions of the reader keep to;
* `Expr.derivable_of_ofText` — a text that is read derives the expression it is read as;
* `Expr.written_of_ofText` — the form of expressions that are read.
-/

namespace PetriTree.Expr

variable {text rest : List Char}

/-! ## Blanks -/

theorem skip_cons {c : Char} (h : isBlank c = false) (rest : List Char) : skip (c :: rest) = c :: rest := by
  rw [skip, List.dropWhile_cons_of_neg (by rw [h]; exact Bool.false_ne_true)]

theorem skip_blank {c : Char} (h : isBlank c = true) (rest : List Char) : skip (c :: rest) = skip rest := by
  rw [skip, List.dropWhile_cons_of_pos h, skip]

theorem skip_skip (text : List Char) : skip (skip text) = skip text := by
  induction text with
  | nil => rfl
  | cons c text ih =>
    cases hblank : isBlank c with
    | false => rw [skip_cons hblank, skip_cons hblank]
    | true => rw [skip_blank hblank, ih]

theorem isBlank_of_isSign {c : Char} (h : isSign c = true) : isBlank c = false := by
  simp only [isSign, List.contains_iff_mem, List.mem_cons, List.not_mem_nil, or_false] at h
  rcases h with rfl | rfl | rfl | rfl | rfl | rfl | rfl | rfl <;> decide

theorem isWordChar_of_isSign {c : Char} (h : isSign c = true) : isWordChar c = false := by
  simp only [isSign, List.contains_iff_mem, List.mem_cons, List.not_mem_nil, or_false] at h
  rcases h with rfl | rfl | rfl | rfl | rfl | rfl | rfl | rfl <;> decide

/-- Only blanks stand in front of a token without counting. -/
theorem skip_of_lexes {ts : List Token} (h : Lexes text ts) : Lexes (skip text) ts := by
  induction h with
  | nil => exact .nil
  | blank hblank _ ih => rwa [skip_blank hblank]
  | sign hsign htext _ =>
    rw [skip_cons (isBlank_of_isSign hsign)]
    exact .sign hsign htext
  | @word word text _ hword hend htext _ =>
    obtain ⟨c, cs, hcons, hc⟩ := hword.exists_cons
    have hskip : skip (word.toList ++ text) = word.toList ++ text := by
      rw [hcons, List.cons_append]
      exact skip_cons (isBlank_of_isWordChar hc) _
    rw [hskip]
    exact .word hword hend htext
  | number hnumeral htext _ =>
    obtain ⟨c, cs, rfl, hc⟩ := hnumeral.exists_cons
    rw [List.cons_append, skip_cons (isBlank_of_isWordChar (isWordChar_of_isDigit hc)), ← List.cons_append]
    exact .number hnumeral htext

theorem lexes_skip_iff {ts : List Token} : Lexes (skip text) ts ↔ Lexes text ts := by
  refine ⟨fun h => ?_, skip_of_lexes⟩
  induction text with
  | nil => exact h
  | cons c text ih =>
    cases hblank : isBlank c with
    | false => rwa [skip_cons hblank] at h
    | true =>
      rw [skip_blank hblank] at h
      exact .blank hblank (ih h)

/-! ## Tokens between a text and its rest -/

/-- Do the tokens stand between a text and a rest of it? -/
def Spends (text : List Char) (ts : List Token) (rest : List Char) : Prop :=
  ∀ us, Lexes rest us → Lexes text (ts ++ us)

theorem Spends.trans {middle : List Char} {ts us : List Token} (h : Spends text ts middle)
    (h' : Spends middle us rest) : Spends text (ts ++ us) rest := by
  intro vs hvs
  rw [List.append_assoc]
  exact h _ (h' vs hvs)

theorem Spends.of_skip {ts : List Token} (h : Spends (skip text) ts rest) : Spends text ts rest :=
  fun us hus => lexes_skip_iff.1 (h us hus)

theorem Spends.skip {ts : List Token} (h : Spends text ts rest) : Spends text ts (skip rest) :=
  fun us hus => h us (lexes_skip_iff.1 hus)

theorem spends_char? {c : Char} (hsign : isSign c = true) (h : char? c text = some rest) :
    Spends text [.sign c] rest := by
  cases text with
  | nil => cases h
  | cons first others =>
    rw [char?] at h
    split at h
    · rename_i heq
      cases h
      subst heq
      exact fun us hus => .sign hsign hus
    · cases h

theorem spends_spacedChar? {c : Char} (hsign : isSign c = true) (h : spacedChar? c text = some rest) :
    Spends text [.sign c] rest := by
  obtain ⟨after, hafter, rfl⟩ := Option.map_eq_some_iff.1 h
  exact ((spends_char? hsign hafter).of_skip).skip

/-- What a span takes belongs to it, and what it leaves starts with something that does not. -/
theorem span_eq {p : Char → Bool} {taken left : List Char} (h : text.span p = (taken, left)) :
    text = taken ++ left ∧ (∀ c ∈ taken, p c = true) ∧ ∀ c ∈ left.head?, p c = false := by
  rw [List.span_eq_takeWhile_dropWhile] at h
  cases h
  refine ⟨List.takeWhile_append_dropWhile.symm, fun c hc => List.mem_takeWhile_imp hc, fun c hc => ?_⟩
  have hnot := List.head?_dropWhile_not p text
  rw [Option.mem_def.1 hc] at hnot
  simpa using hnot

theorem span_append {p : Char → Bool} {taken left : List Char} (htaken : ∀ c ∈ taken, p c = true)
    (hleft : ∀ c ∈ left.head?, p c = false) : (taken ++ left).span p = (taken, left) := by
  rw [List.span_eq_takeWhile_dropWhile, List.takeWhile_append_of_pos htaken,
    List.dropWhile_append_of_pos htaken]
  cases left with
  | nil => simp
  | cons c left =>
    have hc : ¬ p c = true := by
      rw [hleft c rfl]
      exact Bool.false_ne_true
    rw [List.takeWhile_cons_of_neg hc, List.dropWhile_cons_of_neg hc, List.append_nil]

/-- A word is what its text starts with, and its characters do not go on. -/
theorem word?_eq_some {word : String} (h : word? text = some (word, rest)) :
    text = word.toList ++ rest ∧ IsWord word ∧ ∀ c ∈ rest.head?, isWordChar c = false := by
  unfold word? at h
  split at h
  · cases h
  · rename_i letters others hne hspan
    cases h
    obtain ⟨htext, hletters, hend⟩ := span_eq hspan
    unfold IsWord
    rw [String.toList_ofList]
    exact ⟨htext, ⟨hne, hletters⟩, hend⟩

theorem word?_append {word : String} (h : IsWord word) (hend : ∀ c ∈ rest.head?, isWordChar c = false) :
    word? (word.toList ++ rest) = some (word, rest) := by
  obtain ⟨c, cs, hcons, _⟩ := h.exists_cons
  rw [word?, span_append h.2 hend]
  rw [hcons]
  simp only
  rw [← hcons, String.ofList_toList]

theorem spends_word? {word : String} (h : word? text = some (word, rest)) : Spends text [.word word] rest := by
  obtain ⟨rfl, hword, hend⟩ := word?_eq_some h
  exact fun us hus => .word hword hend hus

theorem spends_spacedWord? {word : String} (h : spacedWord? text = some (word, rest)) :
    Spends text [.word word] rest := by
  obtain ⟨⟨found, after⟩, hfound, heq⟩ := Option.map_eq_some_iff.1 h
  cases heq
  exact (spends_word? hfound).of_skip.skip

theorem tag?_eq_some {tag : List Char} (h : tag? tag text = some rest) : text = tag ++ rest := by
  induction tag generalizing text with
  | nil => exact Option.some.inj h
  | cons t ts ih =>
    rw [tag?, Option.bind_eq_some_iff] at h
    obtain ⟨after, hafter, h⟩ := h
    cases text with
    | nil => cases hafter
    | cons first others =>
      rw [char?] at hafter
      split at hafter
      · rename_i heq
        cases hafter
        rw [heq, ih h]
        exact List.cons_append.symm
      · cases hafter

/-- Before a bracket no word goes on, so the text of a keyword there is the whole word. -/
theorem spends_keyword {word : String} {middle : List Char} (hword : IsWord word)
    (htag : tag? word.toList text = some middle) (hopen : spacedChar? '(' middle = some rest) :
    Spends text [.word word, .sign '('] rest := by
  intro us hus
  have hend : ∀ c ∈ middle.head?, isWordChar c = false := by
    intro c hc
    cases middle with
    | nil => cases hc
    | cons first others =>
      cases hc
      by_contra hletter
      rw [Bool.not_eq_false] at hletter
      rw [spacedChar?, skip_cons (isBlank_of_isWordChar hletter), char?, if_neg] at hopen
      · cases hopen
      · rintro rfl
        exact absurd hletter (by decide)
  rw [tag?_eq_some htag]
  exact .word hword hend (spends_spacedChar? (by decide) hopen us hus)

/-! ## Atoms without parts -/

/-- Is the phrase derived by what stands between a text and a rest of it? -/
def Yields (phrase : Phrase) (text rest : List Char) : Prop := ∃ ts, Derives phrase ts ∧ Spends text ts rest

theorem Yields.of_skip {phrase : Phrase} (h : Yields phrase (skip text) rest) : Yields phrase text rest := by
  obtain ⟨ts, hderives, hspends⟩ := h
  exact ⟨ts, hderives, hspends.of_skip⟩

theorem Yields.skip {phrase : Phrase} (h : Yields phrase text rest) : Yields phrase text (skip rest) := by
  obtain ⟨ts, hderives, hspends⟩ := h
  exact ⟨ts, hderives, hspends.skip⟩

theorem Yields.imp {phrase phrase' : Phrase} (h : Yields phrase text rest)
    (hrule : ∀ {ts}, Derives phrase ts → Derives phrase' ts) : Yields phrase' text rest := by
  obtain ⟨ts, hderives, hspends⟩ := h
  exact ⟨ts, hrule hderives, hspends⟩

theorem yields_number? {e : Expr} (h : number? text = some (e, rest)) : Yields (.atom e) text rest := by
  unfold number? at h
  split at h
  · cases h
  · rename_i integer after hne hspan
    obtain ⟨rfl, hinteger, _⟩ := span_eq hspan
    split at h
    -- a point that no digit follows is left
    · cases h
      exact ⟨_, .number, fun us hus => .number (.integer hne hinteger) hus⟩
    · rename_i fraction others hsome hfraction
      cases h
      obtain ⟨rfl, hdigits, _⟩ := span_eq hfraction
      refine ⟨_, .number, fun us hus => ?_⟩
      have hlexes := Lexes.number (.fraction hne hinteger hsome hdigits) hus
      rwa [List.append_assoc, List.cons_append] at hlexes
  · rename_i integer after hne _ hspan
    cases h
    obtain ⟨rfl, hinteger, _⟩ := span_eq hspan
    exact ⟨_, .number, fun us hus => .number (.integer hne hinteger) hus⟩

theorem yields_tokens? {e : Expr} (h : tokens? text = some (e, rest)) : Yields (.atom e) text rest := by
  simp only [tokens?, Option.bind_eq_bind, Option.bind_eq_some_iff] at h
  obtain ⟨sharp, hsharp, opened, hopened, ⟨place, named⟩, hplace, closed, hclosed, h⟩ := h
  cases h
  have hstart : Spends text [.sign '#', .sign '(', .word place] named :=
    (spends_char? (by decide) hsharp).trans ((spends_spacedChar? (by decide) hopened).trans
      (spends_spacedWord? hplace))
  unfold colorOption at hclosed ⊢
  split at hclosed
  · exact ⟨_, .tokensAll, hstart.trans (spends_char? (by decide) hclosed)⟩
  · rename_i parted hparted
    split at hclosed
    -- a comma without a colour behind it is left, and no bracket
    · exact ⟨_, .tokensAll, hstart.trans (spends_char? (by decide) hclosed)⟩
    · rename_i color colored hcolor
      exact ⟨_, .tokensColor, hstart.trans ((spends_char? (by decide) hparted).trans
        ((spends_spacedWord? hcolor).trans (spends_char? (by decide) hclosed)))⟩

theorem yields_capacity? {e : Expr} (h : capacity? text = some (e, rest)) : Yields (.atom e) text rest := by
  simp only [capacity?, Option.bind_eq_bind, Option.bind_eq_some_iff] at h
  obtain ⟨tagged, htag, opened, hopened, ⟨place, named⟩, hplace, closed, hclosed, h⟩ := h
  cases h
  have hcap : IsWord "cap" := by decide
  exact ⟨_, .capacity, (spends_keyword hcap htag hopened).trans
    ((spends_spacedWord? hplace).trans (spends_char? (by decide) hclosed))⟩

/-- Where no number is read, no digit stands. -/
theorem isDigit_of_number? (h : number? text = none) : ∀ c ∈ text.head?, c.isDigit = false := by
  unfold number? at h
  rw [List.span_eq_takeWhile_dropWhile] at h
  cases text with
  | nil => simp
  | cons first rest =>
    intro c hc
    cases hc
    by_contra hdigit
    -- with a first digit every branch of the reader yields a number
    rw [List.takeWhile_cons_of_pos (by simpa using hdigit)] at h
    split at h
    · rename_i heq
      cases heq
    · split at h <;> cases h
    · cases h

theorem yields_parameter? {e : Expr} (hnumber : number? text = none) (h : parameter? text = some (e, rest)) :
    Yields (.atom e) text rest := by
  obtain ⟨⟨id, after⟩, hid, heq⟩ := Option.map_eq_some_iff.1 h
  cases heq
  refine ⟨_, .parameter fun c hc => isDigit_of_number? hnumber c ?_, spends_word? hid⟩
  obtain ⟨rfl, hword, _⟩ := word?_eq_some hid
  obtain ⟨first, others, hcons, _⟩ := hword.exists_cons
  rw [hcons] at hc ⊢
  exact hc

/-! ## The grammar -/

theorem isSign_sign (operation : Operation) : isSign operation.sign = true := by
  cases operation <;> decide

/-- A sign between operands is one of the two that are asked for. -/
theorem spends_operation? {first second operation : Operation} (h : operation? first second text = some (operation, rest)) :
    (operation = first ∨ operation = second) ∧ Spends text [.sign operation.sign] rest := by
  unfold operation? at h
  split at h
  · rename_i hfirst
    cases h
    exact ⟨Or.inl rfl, spends_spacedChar? (isSign_sign _) hfirst⟩
  · obtain ⟨after, hsecond, heq⟩ := Option.map_eq_some_iff.1 h
    cases heq
    exact ⟨Or.inr rfl, spends_spacedChar? (isSign_sign _) hsecond⟩

/-- Of two alternatives the second one is tried when the first does not read. -/
theorem orElse_eq_some {first : Option α} {second : Unit → Option α} {a : α} :
    first.orElse second = some a ↔ first = some a ∨ (first = none ∧ second () = some a) := by
  cases first <;> simp

/-- An atom is the first alternative that reads. -/
theorem atom?_eq_some {fuel : Nat} {e : Expr} (h : atom? (fuel + 1) text = some (e, rest)) :
    number? text = some (e, rest) ∨ tokens? text = some (e, rest) ∨ capacity? text = some (e, rest) ∨
      call? fuel text = some (e, rest) ∨ bracketed? fuel text = some (e, rest) ∨
      (number? text = none ∧ parameter? text = some (e, rest)) := by
  simp only [atom?, orElse_eq_some] at h
  -- only of the last alternative it matters that no number was read before
  rcases h with h | ⟨hnumber, h | ⟨_, h | ⟨_, h | ⟨_, h | ⟨_, h⟩⟩⟩⟩⟩
  · exact Or.inl h
  all_goals simp [*]

/-- What the functions of the reader keep to under a bound on nested steps. Those that read further operands
or arguments go on with what tokens before have derived. -/
structure Follows (fuel : Nat) : Prop where
  expr : ∀ {text rest e}, expr? fuel text = some (e, rest) → Yields (.expr e) text rest
  terms : ∀ {start left text}, Yields (.expr left) start text →
    Yields (.expr (terms fuel left text).1) start (terms fuel left text).2
  term : ∀ {text rest e}, term? fuel text = some (e, rest) → Yields (.term e) text rest
  unaries : ∀ {start left text}, Yields (.term left) start text →
    Yields (.term (unaries fuel left text).1) start (unaries fuel left text).2
  unary : ∀ {text rest e}, unary? fuel text = some (e, rest) → Yields (.unary e) text rest
  atom : ∀ {text rest e}, atom? fuel text = some (e, rest) → Yields (.atom e) text rest
  call : ∀ {text rest e}, call? fuel text = some (e, rest) → Yields (.atom e) text rest
  arguments : ∀ {start first text}, Yields (.expr first) start text →
    Yields (.arguments (first :: (arguments fuel text).1)) start (arguments fuel text).2
  bracketed : ∀ {text rest e}, bracketed? fuel text = some (e, rest) → Yields (.atom e) text rest

private theorem follows_zero : Follows 0 where
  expr h := by cases h
  terms h := h
  term h := by cases h
  unaries h := h
  unary h := by cases h
  atom h := by cases h
  call h := by cases h
  arguments h := h.imp .argumentsOne
  bracketed h := by cases h

private theorem follows_succ {fuel : Nat} (ih : Follows fuel) : Follows (fuel + 1) where
  expr {text rest e} h := by
    simp only [expr?, Option.bind_eq_bind, Option.bind_eq_some_iff] at h
    obtain ⟨⟨first, after⟩, hfirst, h⟩ := h
    have hterms := ih.terms ((ih.term hfirst).imp .exprTerm)
    rwa [Option.some.inj h] at hterms
  terms {start left text} hleft := by
    rw [terms]
    split
    · exact hleft
    · split
      -- a summand that does not read is left, with its sign
      · exact hleft
      · rename_i operation _ hoperation _ _ _ hright
        obtain ⟨hone, hsign⟩ := spends_operation? hoperation
        obtain ⟨ts, hderives, hspends⟩ := hleft
        obtain ⟨us, hderives', hspends'⟩ := ih.term hright
        have hadditive : operation.isAdditive = true := by rcases hone with rfl | rfl <;> rfl
        exact ih.terms ⟨_, .exprBinary hadditive hderives hderives', hspends.trans (hsign.trans hspends')⟩
  term {text rest e} h := by
    simp only [term?, Option.bind_eq_bind, Option.bind_eq_some_iff] at h
    obtain ⟨⟨first, after⟩, hfirst, h⟩ := h
    have hunaries := ih.unaries ((ih.unary hfirst).imp .termUnary)
    rwa [Option.some.inj h] at hunaries
  unaries {start left text} hleft := by
    rw [unaries]
    split
    · exact hleft
    · split
      · exact hleft
      · rename_i operation _ hoperation _ _ _ hright
        obtain ⟨hone, hsign⟩ := spends_operation? hoperation
        obtain ⟨ts, hderives, hspends⟩ := hleft
        obtain ⟨us, hderives', hspends'⟩ := ih.unary hright
        have hadditive : operation.isAdditive = false := by rcases hone with rfl | rfl <;> rfl
        exact ih.unaries ⟨_, .termBinary hadditive hderives hderives', hspends.trans (hsign.trans hspends')⟩
  unary {text rest e} h := by
    rw [unary?] at h
    split at h
    · rename_i inner others hinner
      obtain ⟨after, hsign, hinner⟩ := Option.bind_eq_some_iff.1 hinner
      cases h
      obtain ⟨ts, hderives, hspends⟩ := ih.unary hinner
      exact ⟨_, .unaryNeg hderives, (spends_spacedChar? (by decide) hsign).trans hspends⟩
    · obtain ⟨⟨atom, others⟩, hatom, heq⟩ := Option.map_eq_some_iff.1 h
      cases heq
      exact ((ih.atom hatom).imp .unaryAtom).of_skip.skip
  atom {text rest e} h := by
    rcases atom?_eq_some h with h | h | h | h | h | ⟨hnumber, h⟩
    · exact yields_number? h
    · exact yields_tokens? h
    · exact yields_capacity? h
    · exact ih.call h
    · exact ih.bracketed h
    · exact yields_parameter? hnumber h
  call {text rest e} h := by
    simp only [call?, Option.bind_eq_bind, Option.bind_eq_some_iff] at h
    obtain ⟨⟨callee, tagged⟩, hcallee, opened, hopened, ⟨first, after⟩, hfirst, closed, hclosed, h⟩ := h
    obtain ⟨found, _, htag⟩ := List.exists_of_findSome?_eq_some hcallee
    obtain ⟨middle, htag, heq⟩ := Option.map_eq_some_iff.1 htag
    cases heq
    have hname : IsWord callee.name := by cases callee <;> decide
    split at h
    · cases h
    · rename_i hcount
      cases h
      obtain ⟨ts, hderives, hspends⟩ := ih.arguments (ih.expr hfirst).of_skip.skip
      refine ⟨_, .call ⟨Nat.succ_pos _, fun hunary => ?_⟩ hderives, ?_⟩
      -- the reader gave up where a unary function had further arguments
      · simp only [hunary, Bool.true_and, Bool.not_eq_true', Bool.not_eq_false, List.isEmpty_iff] at hcount
        rw [hcount]
        rfl
      · exact (spends_keyword hname htag hopened).trans (hspends.trans (spends_char? (by decide) hclosed))
  arguments {start first text} hfirst := by
    rw [arguments]
    split
    · exact hfirst.imp .argumentsOne
    · rename_i parted hparted
      split
      · exact hfirst.imp .argumentsOne
      · rename_i second after hsecond
        obtain ⟨ts, hderives, hspends⟩ := hfirst
        obtain ⟨us, hderives', hspends'⟩ := ih.arguments (ih.expr hsecond).of_skip.skip
        exact ⟨_, .argumentsCons hderives hderives',
          hspends.trans ((spends_char? (by decide) hparted).trans hspends')⟩
  bracketed {text rest e} h := by
    simp only [bracketed?, Option.bind_eq_bind, Option.bind_eq_some_iff] at h
    obtain ⟨opened, hopened, ⟨inner, after⟩, hinner, closed, hclosed, h⟩ := h
    cases h
    obtain ⟨ts, hderives, hspends⟩ := (ih.expr hinner).of_skip.skip
    exact ⟨_, .bracketed hderives, (spends_char? (by decide) hopened).trans
      (hspends.trans (spends_char? (by decide) hclosed))⟩

/-- Whatever the bound on nested steps, the reader follows the grammar. -/
theorem follows (fuel : Nat) : Follows fuel := by
  induction fuel with
  | zero => exact follows_zero
  | succ fuel ih => exact follows_succ ih

/-- A text that is read derives the expression it is read as. -/
theorem derivable_of_ofText {text : String} {e : Expr} (h : ofText text = .ok e) : Derivable text e := by
  unfold ofText ofChars at h
  split at h
  · rename_i found hfound
    cases h
    split at hfound
    · cases hfound
    · rename_i others hread
      split at hfound
      · rename_i hrest
        cases hfound
        obtain ⟨ts, hderives, hspends⟩ := ((follows _).expr hread).of_skip.skip
        -- nothing is left but blanks
        rw [hrest] at hspends
        have hlexes := hspends [] .nil
        rw [List.append_nil] at hlexes
        exact ⟨ts, hlexes, hderives⟩
      · cases hfound
  · cases h

/-- A text that can be read yields a written expression. -/
theorem written_of_ofText {text : String} {e : Expr} (h : ofText text = .ok e) : Written e :=
  (derivable_of_ofText h).written

end PetriTree.Expr
