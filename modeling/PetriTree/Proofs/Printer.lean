import PetriTree.Proofs.Number
import PetriTree.Proofs.Recognition

/-!
# PetriTree — the texts of expressions read back

The text of an expression brackets every part, so that each part is one operand whatever operation stands
around it. That makes the text derive its expression, and what it derives is what it is read as.

Not every expression has a text that reads back. A number with a sign is written with the sign and read as
a negation, infinity is written as a word and read as a parameter, and where a word is empty or a call has
no arguments nothing is read at all.

Main results:
* `Expr.Printable` — expressions whose words and numbers can be written;
* `Expr.Printable.writes` — the text of one part falls into tokens that derive the part;
* `Expr.ofText_text` — the text of a printable expression reads back to the same expression;
* `Expr.ofText_text_eq_ok_iff` — and no other text does.
-/

namespace PetriTree

/-! ## Numbers -/

namespace Number

/-- A finite value without a sign. -/
def IsPlain (x : Float) : Prop := ∃ p, p < infinityPattern ∧ x = ofPattern false p

/-- Such a value in terms of what can be asked of it. -/
theorem isPlain_iff {x : Float} : IsPlain x ↔ x.isFinite = true ∧ isNegative x = false := by
  rw [isFinite_iff, isNegative, decide_eq_false_iff_not]
  constructor
  · rintro ⟨p, hp, rfl⟩
    rw [toBits_ofPattern hp]
    unfold infinityPattern at hp
    unfold exponentStep signBit
    omega
  · rintro ⟨hfinite, hsign⟩
    unfold exponentStep signBit at *
    have hlt : x.toBits.toNat < infinityPattern := by
      unfold infinityPattern
      omega
    refine ⟨x.toBits.toNat, hlt, ext_toBits (UInt64.toNat_inj.1 ?_)⟩
    exact (toBits_ofPattern hlt).symm

/-- A decimal text stands for a value with a pattern of its own, unless it is too great for any. -/
theorem Decimal.isPlain_or_infinite (d : Decimal) : IsPlain d.toFloat ∨ d.toFloat = ofPattern false infinityPattern := by
  have hle : d.pattern ≤ infinityPattern := Nat.min_le_right ..
  rcases Nat.lt_or_eq_of_le hle with hlt | heq
  · exact Or.inl ⟨d.pattern, hlt, rfl⟩
  · exact Or.inr (congrArg (ofPattern false) heq)

theorem render_eq {x : Float} (h : IsPlain x) :
    ∃ d : Decimal, render x = d.chars ∧ x = ofPattern false d.pattern := by
  obtain ⟨p, hp, rfl⟩ := h
  refine ⟨shortest p, ?_, ?_⟩
  · rw [render, magnitude_ofPattern hp, isNegative_ofPattern hp, if_neg (by omega),
      if_neg Bool.false_ne_true, if_neg (by omega)]
  · rw [pattern_shortest hp]

end Number

namespace Expr

/-- Expressions whose words and numbers can be written. -/
def Printable (e : Expr) : Prop := e.Formed Number.IsPlain IsWord IsParameterName

theorem isPlain_of_isDecimal {value : Float} (h : IsDecimal value) (hfinite : value.isFinite = true) :
    Number.IsPlain value := by
  obtain ⟨d, rfl⟩ := h
  refine d.isPlain_or_infinite.resolve_right fun heq => ?_
  have hinfinite : (Number.ofPattern false Number.infinityPattern).isFinite = false := by decide +kernel
  rw [heq, hinfinite] at hfinite
  cases hfinite

/-- The text of a finite value is a number of that value. -/
theorem numeral_render {x : Float} (h : Number.IsPlain x) : Numeral (Number.render x) x := by
  obtain ⟨d, hrender, hvalue⟩ := Number.render_eq h
  have hinteger : ∀ c ∈ Nat.toDigits 10 (d.digits / Nat.pow 10 d.places), c.isDigit = true :=
    Number.Decimal.isDigit_of_mem_toDigits
  have hpattern : x = (Number.Decimal.ofDigits (Nat.toDigits 10 (d.digits / Nat.pow 10 d.places))
      d.fraction).toFloat := by
    rw [Number.Decimal.toFloat, d.pattern_ofDigits, hvalue]
  rw [hrender, Number.Decimal.chars, hpattern]
  split
  · rename_i hfraction
    rw [hfraction]
    exact .integer Nat.toDigits_ne_nil hinteger
  · rename_i hfraction
    exact .fraction Nat.toDigits_ne_nil hinteger (fun h => hfraction h) d.isDigit_of_mem_fraction

/-! ## The tokens of a text -/

/-- Do the characters fall into the tokens, whatever stands behind them that no word goes on with? -/
def Spells (chars : List Char) (ts : List Token) : Prop :=
  ∀ rest us, (∀ c ∈ rest.head?, isWordChar c = false) → Lexes rest us → Lexes (chars ++ rest) (ts ++ us)

/-- Do the characters fall into tokens that derive the phrase? -/
def Writes (phrase : Phrase) (chars : List Char) : Prop := ∃ ts, Derives phrase ts ∧ Spells chars ts

/-- No word goes on with a sign. -/
theorem halts_sign {c : Char} (h : isSign c = true) (rest : List Char) :
    ∀ d ∈ (c :: rest).head?, isWordChar d = false := by
  intro d hd
  cases hd
  exact isWordChar_of_isSign h

theorem Writes.imp {phrase phrase' : Phrase} {chars : List Char} (h : Writes phrase chars)
    (hrule : ∀ {ts}, Derives phrase ts → Derives phrase' ts) : Writes phrase' chars := by
  obtain ⟨ts, hderives, hspells⟩ := h
  exact ⟨ts, hrule hderives, hspells⟩

/-- An operand is a product and an expression by itself. -/
theorem Writes.expr {e : Expr} {chars : List Char} (h : Writes (.unary e) chars) : Writes (.expr e) chars :=
  h.imp fun hderives => .exprTerm (.termUnary hderives)

theorem Writes.bracketed {e : Expr} {chars : List Char} (h : Writes (.expr e) chars) :
    Writes (.unary e) ('(' :: chars ++ [')']) := by
  obtain ⟨ts, hderives, hspells⟩ := h
  refine ⟨_, .unaryAtom (.bracketed hderives), fun rest us hend hrest => ?_⟩
  simp only [List.cons_append, List.append_assoc, List.nil_append]
  exact .sign (by decide) (hspells _ _ (halts_sign (by decide) rest) (.sign (by decide) hrest))

theorem writes_number {x : Float} (h : Number.IsPlain x) : Writes (.unary (number x)) (number x).chars :=
  ⟨_, .unaryAtom .number, fun _ _ _ hrest => .number (numeral_render h) hrest⟩

/-- The word of a place and the bracket behind it. -/
theorem lexes_word_close {word : String} {rest : List Char} {us : List Token} (hword : IsWord word)
    (h : Lexes rest us) : Lexes (word.toList ++ ')' :: rest) (.word word :: .sign ')' :: us) :=
  .word hword (halts_sign (by decide) rest) (.sign (by decide) h)

theorem writes_tokens {place : String} {color : Option String} (hplace : IsWord place)
    (hcolor : ∀ c ∈ color, IsWord c) : Writes (.unary (tokens place color)) (tokens place color).chars := by
  cases color with
  | none =>
    refine ⟨_, .unaryAtom .tokensAll, fun rest us _ hrest => ?_⟩
    simp only [chars, List.cons_append, List.append_assoc, List.nil_append]
    exact .sign (by decide) (.sign (by decide) (lexes_word_close hplace hrest))
  | some color =>
    refine ⟨_, .unaryAtom .tokensColor, fun rest us _ hrest => ?_⟩
    simp only [chars, List.cons_append, List.append_assoc, List.nil_append]
    exact .sign (by decide) (.sign (by decide) (.word hplace (halts_sign (by decide) _)
      (.sign (by decide) (lexes_word_close (hcolor color rfl) hrest))))

theorem writes_capacity {place : String} (hplace : IsWord place) :
    Writes (.unary (capacity place)) (capacity place).chars := by
  refine ⟨_, .unaryAtom .capacity, fun rest us _ hrest => ?_⟩
  have hcap : IsWord "cap" := by decide
  simp only [chars, List.cons_append, List.append_assoc, List.nil_append]
  exact .word hcap (halts_sign (by decide) _) (.sign (by decide) (lexes_word_close hplace hrest))

theorem writes_parameter {id : String} (h : IsParameterName id) :
    Writes (.unary (parameter id)) (parameter id).chars :=
  ⟨_, .unaryAtom (.parameter h.2), fun _ _ hend hrest => .word h.1 hend hrest⟩

theorem Writes.neg {inner : Expr} (h : Writes (.unary inner) inner.chars) :
    Writes (.unary (neg inner)) (neg inner).chars := by
  obtain ⟨ts, hderives, hspells⟩ := h.expr.bracketed
  refine ⟨_, .unaryNeg hderives, fun rest us hend hrest => ?_⟩
  rw [chars]
  exact .sign (by decide) (hspells rest us hend hrest)

/-- Two operands with a sign between them, which binds as it may. -/
theorem Writes.operands {left right : Expr} (hleft : Writes (.unary left) left.chars)
    (hright : Writes (.unary right) right.chars) (operation : Operation) :
    Writes (.expr (binary operation left right)) (left.chars ++ operation.sign :: right.chars) := by
  obtain ⟨ts, hderives, hspells⟩ := hleft
  obtain ⟨vs, hderives', hspells'⟩ := hright
  have hbinary : Derives (.expr (binary operation left right)) (ts ++ .sign operation.sign :: vs) := by
    cases hadditive : operation.isAdditive with
    | true => exact .exprBinary hadditive (.exprTerm (.termUnary hderives)) (.termUnary hderives')
    | false => exact .exprTerm (.termBinary hadditive (.termUnary hderives) hderives')
  refine ⟨_, hbinary, fun rest us hend hrest => ?_⟩
  rw [List.append_assoc, List.append_assoc]
  exact hspells _ _ (halts_sign (isSign_sign operation) _)
    (.sign (isSign_sign operation) (hspells' rest us hend hrest))

theorem Writes.binary {left right : Expr} (hleft : Writes (.unary left) left.chars)
    (hright : Writes (.unary right) right.chars) (operation : Operation) :
    Writes (.unary (binary operation left right)) (binary operation left right).chars := by
  rw [chars]
  exact (hleft.operands hright operation).bracketed

/-- Arguments, parted by commas. -/
theorem writes_arguments {args : List Expr} (hne : args ≠ []) (h : ∀ a ∈ args, Writes (.unary a) a.chars) :
    Writes (.arguments args) (charsAll args) := by
  induction args with
  | nil => exact absurd rfl hne
  | cons a others ih =>
    rw [List.forall_mem_cons] at h
    cases others with
    | nil => exact h.1.expr.imp .argumentsOne
    | cons b others =>
      obtain ⟨ts, hderives, hspells⟩ := h.1.expr
      obtain ⟨vs, hderives', hspells'⟩ := ih (List.cons_ne_nil b others) h.2
      refine ⟨_, .argumentsCons hderives hderives', fun rest us hend hrest => ?_⟩
      rw [charsAll, List.append_assoc, List.append_assoc]
      · exact hspells _ _ (halts_sign (by decide) _) (.sign (by decide) (hspells' rest us hend hrest))
      · exact fun hnil => by cases hnil

theorem writes_call {callee : Callee} {args : List Expr} (htakes : callee.Takes args.length)
    (h : ∀ a ∈ args, Writes (.unary a) a.chars) :
    Writes (.unary (call callee args)) (call callee args).chars := by
  have hne : args ≠ [] := List.ne_nil_of_length_pos htakes.1
  obtain ⟨ts, hderives, hspells⟩ := writes_arguments hne h
  refine ⟨_, .unaryAtom (.call htakes hderives), fun rest us hend hrest => ?_⟩
  have hname : IsWord callee.name := by cases callee <;> decide
  simp only [chars, List.cons_append, List.append_assoc, List.nil_append]
  exact .word hname (halts_sign (by decide) _) (.sign (by decide)
    (hspells _ _ (halts_sign (by decide) rest) (.sign (by decide) hrest)))

/-- The induction is on the form of the expression: every part is one operand. -/
theorem Printable.writes {e : Expr} (h : e.Printable) : Writes (.unary e) e.chars := by
  induction h with
  | number hx => exact writes_number hx
  | tokens hplace hcolor => exact writes_tokens hplace hcolor
  | capacity hplace => exact writes_capacity hplace
  | parameter hid => exact writes_parameter hid
  | neg _ ih => exact ih.neg
  | binary _ _ ihleft ihright => exact ihleft.binary ihright _
  | call htakes _ ih => exact writes_call htakes ih

/-- The text of a printable expression reads back to the same expression. -/
theorem ofText_text {e : Expr} (h : e.Printable) : ofText e.text = .ok e := by
  obtain ⟨ts, hderives, hspells⟩ := h.writes.expr
  have hlexes := hspells [] [] (fun c hc => by cases hc) .nil
  rw [List.append_nil, List.append_nil] at hlexes
  refine Derivable.ofText_eq ⟨ts, ?_, hderives⟩
  rwa [text, String.toList_ofList]

/-! ## No other text reads back -/

theorem charsAll_cons (e : Expr) (rest : List Expr) :
    charsAll (e :: rest) = e.chars ++ (rest.map chars).flatMap fun cs => ',' :: cs := by
  induction rest generalizing e with
  | nil => rw [charsAll, List.map_nil, List.flatMap_nil, List.append_nil]
  | cons a rest ih =>
    rw [charsAll, ih a, List.map_cons, List.flatMap_cons, List.cons_append]
    exact fun h => by cases h

/-- The text of arguments depends on their texts only. -/
theorem charsAll_congr {args others : List Expr} (h : args.map chars = others.map chars) :
    charsAll args = charsAll others := by
  cases args with
  | nil =>
    cases others with
    | nil => rfl
    | cons a others => cases h
  | cons a args =>
    cases others with
    | nil => cases h
    | cons b others =>
      rw [List.map_cons, List.map_cons, List.cons.injEq] at h
      rw [charsAll_cons, charsAll_cons, h.1, h.2]

theorem exists_printable_all {args : List Expr} (h : ∀ a ∈ args,
      ∃ a' : Expr, a'.Printable ∧ a'.chars = a.chars ∧ a'.placeMentions = a.placeMentions) :
    ∃ others : List Expr, (∀ a ∈ others, a.Printable) ∧ others.map chars = args.map chars ∧
      placeMentionsAll others = placeMentionsAll args := by
  induction args with
  | nil => exact ⟨[], by simp, rfl, rfl⟩
  | cons a args ih =>
    rw [List.forall_mem_cons] at h
    obtain ⟨a', ha', hchars, hplaces⟩ := h.1
    obtain ⟨others, hothers, hmap, hall⟩ := ih h.2
    exact ⟨a' :: others, List.forall_mem_cons.2 ⟨ha', hothers⟩, by rw [List.map_cons, List.map_cons, hchars, hmap],
      by rw [placeMentionsAll, placeMentionsAll, hplaces, hall]⟩

/-- Of what can be read, infinity alone has a text that stands for something else: a parameter. -/
theorem Written.exists_printable {e : Expr} (h : e.Written) :
    ∃ e' : Expr, e'.Printable ∧ e'.chars = e.chars ∧ e'.placeMentions = e.placeMentions := by
  induction h with
  | number hvalue =>
    obtain ⟨d, rfl⟩ := hvalue
    rcases d.isPlain_or_infinite with hplain | hinfinite
    · exact ⟨_, .number hplain, rfl, rfl⟩
    · have hrender : Number.render (Number.ofPattern false Number.infinityPattern) = ['i', 'n', 'f'] := by
        decide +kernel
      refine ⟨parameter "inf", .parameter (by decide), ?_, rfl⟩
      rw [chars, chars, hinfinite, hrender]
      rfl
  | tokens hplace hcolor => exact ⟨_, .tokens hplace hcolor, rfl, rfl⟩
  | capacity hplace => exact ⟨_, .capacity hplace, rfl, rfl⟩
  | parameter hid => exact ⟨_, .parameter hid, rfl, rfl⟩
  | neg _ ih =>
    obtain ⟨inner, hinner, hchars, hplaces⟩ := ih
    exact ⟨neg inner, .neg hinner, by rw [chars, chars, hchars], hplaces⟩
  | @binary operation _ _ _ _ ihleft ihright =>
    obtain ⟨left, hleft, hchars, hplaces⟩ := ihleft
    obtain ⟨right, hright, hchars', hplaces'⟩ := ihright
    exact ⟨Expr.binary operation left right, .binary hleft hright, by rw [chars, chars, hchars, hchars'],
      by rw [placeMentions, placeMentions, hplaces, hplaces']⟩
  | @call callee args htakes _ ih =>
    obtain ⟨others, hothers, hmap, hplaces⟩ := exists_printable_all ih
    have hlength : others.length = args.length := by
      rw [← List.length_map chars, hmap, List.length_map]
    exact ⟨Expr.call callee others, .call (hlength.symm ▸ htakes) hothers, by rw [chars, chars, charsAll_congr hmap],
      hplaces⟩

/-- What was read is written, and its text is that of something printable. -/
theorem printable_of_ofText_text {e : Expr} (h : ofText e.text = .ok e) : e.Printable := by
  obtain ⟨e', he', hchars, _⟩ := (written_of_ofText h).exists_printable
  have hread := ofText_text he'
  rw [text, hchars, ← text, h] at hread
  cases hread
  exact he'

/-- Exactly the expressions whose numbers are finite and have no sign, whose words have word characters and
whose functions get as many arguments as they take have a text that reads back to them. -/
theorem ofText_text_eq_ok_iff (e : Expr) : ofText e.text = .ok e ↔
    e.Formed (fun x => x.isFinite = true ∧ Number.isNegative x = false) IsWord IsParameterName := by
  have hprintable : e.Printable ↔
      e.Formed (fun x => x.isFinite = true ∧ Number.isNegative x = false) IsWord IsParameterName :=
    ⟨fun h => h.imp (fun _ => Number.isPlain_iff.1) (fun _ hw => hw) fun _ hid => hid,
      fun h => h.imp (fun _ => Number.isPlain_iff.2) (fun _ hw => hw) fun _ hid => hid⟩
  rw [← hprintable]
  exact ⟨printable_of_ofText_text, ofText_text⟩

end Expr

end PetriTree
