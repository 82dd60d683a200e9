import PetriTree.Proofs.Printer

/-!
# PetriTree — names that are read as numbers

The name of a parameter does not start with a digit, for a digit starts a number, and the number is read as far as it
goes. Where such a name stands in the text of an expression all the same, something is left behind the number that no
rule goes on with. This does not end the reading: a rule that fails is given up for the next one, so that `min` in
front of arguments that cannot be read is read itself, as a parameter. But then the bracket is left that opens
the arguments, and no rule goes on with that either. So whatever the parts of an expression are, its text is read to
its end, or something is left that starts with a word or an opening bracket, and then the whole text is refused.

The bound on nested steps plays no part in this: where it ends the reading early, less is read.

Main results:
* `Expr.Misread`, `Expr.Sticks` — such names, and what nothing goes on with;
* `Expr.Garbled.blocked` — reading the text of one part reads it all, unless it holds such a name;
* `Expr.Garbled.ofText_ne_ok` — the text of an expression with such a name is refused.
-/

namespace PetriTree.Expr

variable {text rest left : List Char} {x : Expr} {signs : List Char}

/-! ## What nothing goes on with -/

/-- Does a text start with a word or an opening bracket? -/
def Sticks (left : List Char) : Prop := ∃ c ∈ left.head?, isWordChar c = true ∨ c = '('

/-- Is a text at its end or at one of the signs? -/
def Stops (signs : List Char) (rest : List Char) : Prop := ∀ c ∈ rest.head?, c ∈ signs

theorem sticks_cons {c : Char} (h : isWordChar c = true ∨ c = '(') (rest : List Char) : Sticks (c :: rest) :=
  ⟨c, rfl, h⟩

theorem Sticks.exists_cons (h : Sticks left) :
    ∃ c cs, left = c :: cs ∧ isBlank c = false ∧ ∀ d, isSign d = true → d ≠ '(' → c ≠ d := by
  obtain ⟨c, hc, hkind⟩ := h
  obtain ⟨cs, rfl⟩ := List.head?_eq_some_iff.1 hc
  refine ⟨c, cs, rfl, ?_, ?_⟩
  · rcases hkind with hword | rfl
    · exact isBlank_of_isWordChar hword
    · decide
  · rintro d hsign hne rfl
    rcases hkind with hword | hopen
    · rw [isWordChar_of_isSign hsign] at hword
      cases hword
    · exact hne hopen

theorem Sticks.skip_eq (h : Sticks left) : skip left = left := by
  obtain ⟨c, cs, rfl, hblank, _⟩ := h.exists_cons
  exact skip_cons hblank cs

theorem Sticks.char?_eq_none (h : Sticks left) {d : Char} (hsign : isSign d = true) (hne : d ≠ '(') :
    char? d left = none := by
  obtain ⟨c, cs, rfl, _, hother⟩ := h.exists_cons
  rw [char?, if_neg (hother d hsign hne)]

theorem Stops.mono {signs' : List Char} (h : Stops signs rest) (hsub : signs ⊆ signs') : Stops signs' rest :=
  fun c hc => hsub (h c hc)

theorem stops_cons {c : Char} (h : c ∈ signs) (rest : List Char) : Stops signs (c :: rest) := by
  intro d hd
  cases hd
  exact h

theorem Stops.char?_eq_none (h : Stops signs rest) {d : Char} (hd : d ∉ signs) : char? d rest = none := by
  cases rest with
  | nil => rfl
  | cons c rest =>
    rw [char?, if_neg]
    rintro rfl
    exact hd (h _ rfl)

theorem Stops.halts (h : Stops afterUnary rest) : ∀ c ∈ rest.head?, isWordChar c = false := by
  intro c hc
  have hmem := h c hc
  simp only [afterUnary, List.mem_cons, List.not_mem_nil, or_false] at hmem
  rcases hmem with rfl | rfl | rfl | rfl | rfl | rfl <;> decide

theorem Stops.skip_eq (h : Stops afterUnary rest) : skip rest = rest := by
  cases rest with
  | nil => rfl
  | cons c rest =>
    have hmem := h c rfl
    simp only [afterUnary, List.mem_cons, List.not_mem_nil, or_false] at hmem
    exact skip_cons (by rcases hmem with rfl | rfl | rfl | rfl | rfl | rfl <;> decide) rest

/-! ## Loops that do not go on -/

theorem operation?_of_chars {first second : Operation} (hskip : skip text = text)
    (hfirst : char? first.sign text = none) (hsecond : char? second.sign text = none) :
    operation? first second text = none := by
  rw [operation?, spacedChar?, spacedChar?, hskip, hfirst, hsecond]
  rfl

theorem Sticks.operation?_eq_none (h : Sticks left) (first second : Operation) : operation? first second left = none := by
  have hother : ∀ operation : Operation, char? operation.sign left = none := fun operation =>
    h.char?_eq_none (isSign_sign operation) (by cases operation <;> decide)
  exact operation?_of_chars h.skip_eq (hother first) (hother second)

theorem Stops.operation?_eq_none {first second : Operation} (h : Stops signs rest) (hsub : signs ⊆ afterUnary)
    (hfirst : first.sign ∉ signs) (hsecond : second.sign ∉ signs) : operation? first second rest = none :=
  operation?_of_chars (h.mono hsub).skip_eq (h.char?_eq_none hfirst) (h.char?_eq_none hsecond)

/-- Where nothing follows an operand, a product is that operand. -/
theorem term?_of_unary {P : List Char → Prop}
    (h : ∀ fuel x left, unary? fuel text = some (x, left) → P left ∧ operation? .mul .div left = none) :
    ∀ fuel x left, term? fuel text = some (x, left) → P left := by
  intro fuel x left hterm
  cases fuel with
  | zero => cases hterm
  | succ fuel =>
    simp only [term?, Option.bind_eq_bind, Option.bind_eq_some_iff] at hterm
    obtain ⟨⟨first, after⟩, hfirst, hterm⟩ := hterm
    obtain ⟨hafter, hnone⟩ := h _ _ _ hfirst
    rw [unaries_of_none hnone] at hterm
    cases hterm
    exact hafter

/-- Where nothing follows a product, an expression is that product. -/
theorem expr?_of_term {P : List Char → Prop}
    (h : ∀ fuel x left, term? fuel text = some (x, left) → P left ∧ operation? .add .sub left = none) :
    ∀ fuel x left, expr? fuel text = some (x, left) → P left := by
  intro fuel x left hexpr
  cases fuel with
  | zero => cases hexpr
  | succ fuel =>
    simp only [expr?, Option.bind_eq_bind, Option.bind_eq_some_iff] at hexpr
    obtain ⟨⟨first, after⟩, hfirst, hexpr⟩ := hexpr
    obtain ⟨hafter, hnone⟩ := h _ _ _ hfirst
    rw [terms_of_none hnone] at hexpr
    cases hexpr
    exact hafter

/-! ## One part -/

/-- Is what is left behind the text of a part all that stands behind it, so that no name was misread, or does
nothing go on with it? -/
def Leaves (e : Expr) (rest left : List Char) : Prop := e.parameterMentions = [] ∧ left = rest ∨ Sticks left

theorem Leaves.operation?_eq_none {e : Expr} {first second : Operation} (h : e.Leaves rest left)
    (hrest : operation? first second rest = none) : operation? first second left = none := by
  rcases h with ⟨_, rfl⟩ | hsticks
  · exact hrest
  · exact hsticks.operation?_eq_none first second

/-- The text of a part starts with no blank, and whatever is read of it leaves so much. -/
structure Blocked (e : Expr) : Prop where
  start : ∀ rest, skip (e.chars ++ rest) = e.chars ++ rest
  leaves : ∀ rest, Stops afterUnary rest → ∀ fuel x left,
    unary? fuel (e.chars ++ rest) = some (x, left) → e.Leaves rest left

theorem Blocked.term {e : Expr} (h : e.Blocked) (hrest : Stops afterTerm rest) :
    ∀ fuel x left, term? fuel (e.chars ++ rest) = some (x, left) → e.Leaves rest left :=
  term?_of_unary fun fuel x left hunary =>
    have hleaves := h.leaves rest (hrest.mono (by decide)) fuel x left hunary
    ⟨hleaves, hleaves.operation?_eq_none (hrest.operation?_eq_none (by decide) (by decide) (by decide))⟩

theorem Blocked.expr {e : Expr} (h : e.Blocked) (hrest : Stops afterExpr rest) :
    ∀ fuel x left, expr? fuel (e.chars ++ rest) = some (x, left) → e.Leaves rest left :=
  expr?_of_term fun fuel x left hterm =>
    have hleaves := h.term (hrest.mono (by decide)) fuel x left hterm
    ⟨hleaves, hleaves.operation?_eq_none (hrest.operation?_eq_none (by decide) (by decide) (by decide))⟩

/-! ## Atoms without parts -/

/-- Where no sign stands in front, an operand is an atom. -/
theorem exists_atom_of_unary? {fuel : Nat} {c : Char} (hblank : isBlank c = false) (hminus : c ≠ '-')
    (h : unary? fuel (c :: text) = some (x, left)) :
    ∃ k after, atom? (k + 1) (c :: text) = some (x, after) ∧ left = skip after := by
  have hskip := skip_cons hblank text
  cases fuel with
  | zero => cases h
  | succ fuel =>
    have hnone : spacedChar? '-' (c :: text) = none := by
      rw [spacedChar?, hskip, char?, if_neg hminus]
      rfl
    rw [unary?, hnone, hskip] at h
    obtain ⟨⟨_, after⟩, hatom, heq⟩ := Option.map_eq_some_iff.1 h
    cases heq
    cases fuel with
    | zero => cases hatom
    | succ fuel => exact ⟨fuel, after, hatom, rfl⟩

theorem blocked_atom {e : Expr} {c : Char} {cs : List Char} (hcons : e.chars = c :: cs) (hblank : isBlank c = false)
    (hminus : c ≠ '-') (h : ∀ rest, Stops afterUnary rest → ∀ k x after,
      atom? (k + 1) (e.chars ++ rest) = some (x, after) → e.Leaves rest after) : e.Blocked := by
  refine ⟨fun rest => ?_, fun rest hrest fuel x left hunary => ?_⟩
  · rw [hcons]
    exact skip_cons hblank _
  · rw [hcons, List.cons_append] at hunary
    obtain ⟨k, after, hatom, rfl⟩ := exists_atom_of_unary? hblank hminus hunary
    rw [← List.cons_append, ← hcons] at hatom
    have hleaves := h rest hrest k x after hatom
    have hskip : skip after = after := by
      rcases hleaves with ⟨_, rfl⟩ | hsticks
      · exact hrest.skip_eq
      · exact hsticks.skip_eq
    rw [hskip]
    exact hleaves

theorem blocked_number {value : Float} (h : Number.IsPlain value) : (number value).Blocked := by
  have hnumeral := numeral_render h
  obtain ⟨c, cs, hcons, hdigit⟩ := hnumeral.exists_cons
  refine blocked_atom hcons (isBlank_of_isWordChar (isWordChar_of_isDigit hdigit)) ?_ ?_
  · rintro rfl
    exact absurd hdigit (by decide)
  · intro rest hrest k x after hatom
    rw [chars, atom?, number?_numeral hnumeral hrest.halts] at hatom
    cases hatom
    exact Or.inl ⟨rfl, rfl⟩

theorem char?_self (c : Char) (rest : List Char) : char? c (c :: rest) = some rest := if_pos rfl

theorem spacedChar?_cons {c : Char} (hsign : isSign c = true) (rest : List Char) :
    spacedChar? c (c :: rest) = some (skip rest) := by
  rw [spacedChar?, skip_cons (isBlank_of_isSign hsign), char?, if_pos rfl, Option.map_some]

theorem spacedWord?_skip (text : List Char) : spacedWord? (skip text) = spacedWord? text := by
  rw [spacedWord?, spacedWord?, skip_skip]

/-- A word in front of a sign is read and the sign is left. -/
theorem spacedWord?_append {word : String} (hword : IsWord word) {c : Char} (hsign : isSign c = true)
    (rest : List Char) : spacedWord? (word.toList ++ c :: rest) = some (word, c :: rest) := by
  obtain ⟨d, ds, hcons, hd⟩ := hword.exists_cons
  have hskip : skip (word.toList ++ c :: rest) = word.toList ++ c :: rest := by
    rw [hcons]
    exact skip_cons (isBlank_of_isWordChar hd) _
  simp only [spacedWord?, hskip, word?_append hword (halts_sign hsign rest), Option.map_some,
    skip_cons (isBlank_of_isSign hsign)]

theorem tokens?_chars {place : String} {color : Option String} (hplace : IsWord place)
    (hcolor : ∀ c ∈ color, IsWord c) (rest : List Char) :
    tokens? ((tokens place color).chars ++ rest) = some (tokens place color, rest) := by
  cases color with
  | none =>
    simp only [chars, List.cons_append, List.append_assoc, List.nil_append, tokens?, char?, if_true,
      Option.bind_eq_bind, Option.bind_some, spacedChar?_cons (c := '(') (by decide), spacedWord?_skip,
      spacedWord?_append hplace (c := ')') (by decide), colorOption]
    rfl
  | some color =>
    simp only [chars, List.cons_append, List.append_assoc, List.nil_append, tokens?, char?, if_true,
      Option.bind_eq_bind, Option.bind_some, spacedChar?_cons (c := '(') (by decide), spacedWord?_skip,
      spacedWord?_append hplace (c := ',') (by decide), colorOption,
      spacedWord?_append (hcolor color rfl) (c := ')') (by decide)]

theorem capacity?_chars {place : String} (hplace : IsWord place) (rest : List Char) :
    capacity? ((capacity place).chars ++ rest) = some (capacity place, rest) := by
  simp only [chars, List.cons_append, List.append_assoc, List.nil_append, capacity?, tag?, char?, if_true,
    Option.bind_eq_bind, Option.bind_some, spacedChar?_cons (c := '(') (by decide), spacedWord?_skip,
    spacedWord?_append hplace (c := ')') (by decide)]

theorem blocked_tokens {place : String} {color : Option String} (hplace : IsWord place)
    (hcolor : ∀ c ∈ color, IsWord c) : (tokens place color).Blocked := by
  obtain ⟨cs, hcons⟩ : ∃ cs, (tokens place color).chars = '#' :: cs := by cases color <;> exact ⟨_, rfl⟩
  refine blocked_atom hcons (by decide) (by decide) fun rest _ k x after hatom => ?_
  have hnumber : number? ((tokens place color).chars ++ rest) = none := by
    rw [hcons]
    exact number?_eq_none (by decide) _
  rw [atom?, hnumber, tokens?_chars hplace hcolor] at hatom
  cases hatom
  exact Or.inl ⟨rfl, rfl⟩

theorem blocked_capacity {place : String} (hplace : IsWord place) : (capacity place).Blocked := by
  have hcons : (capacity place).chars = 'c' :: 'a' :: 'p' :: '(' :: place.toList ++ [')'] := rfl
  refine blocked_atom hcons (by decide) (by decide) fun rest _ k x after hatom => ?_
  have hnumber : number? ((capacity place).chars ++ rest) = none := number?_eq_none (by decide) _
  have htokens : tokens? ((capacity place).chars ++ rest) = none := tokens?_eq_none (by decide) _
  rw [atom?, hnumber, htokens, capacity?_chars hplace] at hatom
  cases hatom
  exact Or.inl ⟨rfl, rfl⟩

/-! ## Names that are read as numbers -/

/-- A name in front of which a number is read, whatever follows, and behind which nothing goes on. -/
def Misread (id : String) : Prop :=
  IsWord id ∧ ∀ rest, ∃ x left, number? (id.toList ++ rest) = some (x, left) ∧ Sticks left

theorem blocked_parameter {id : String} (h : Misread id) : (parameter id).Blocked := by
  obtain ⟨c, cs, hcons, hword⟩ := h.1.exists_cons
  refine blocked_atom hcons (isBlank_of_isWordChar hword) ?_ ?_
  · rintro rfl
    exact absurd hword (by decide)
  · intro rest _ k x after hatom
    obtain ⟨value, left, hnumber, hsticks⟩ := h.2 rest
    rw [chars, atom?, hnumber] at hatom
    cases hatom
    exact Or.inr hsticks

/-- A span that a character does not belong to ends at that character at the latest. -/
theorem exists_of_span {p : Char → Bool} {front more taken left : List Char} {c : Char} (hc : p c = false)
    (h : (front ++ c :: more).span p = (taken, left)) : ∃ front', front = taken ++ front' ∧ left = front' ++ c :: more := by
  obtain ⟨heq, htaken, _⟩ := span_eq h
  rcases List.append_eq_append_iff.1 heq with ⟨beyond, rfl, hbeyond⟩ | ⟨front', rfl, rfl⟩
  · cases beyond with
    | nil => exact ⟨[], by simp, hbeyond.symm⟩
    | cons d beyond =>
      cases hbeyond
      rw [htaken c (by simp)] at hc
      cases hc
  · exact ⟨front', rfl, rfl⟩

theorem sticks_append {front : List Char} (hfront : ∀ c ∈ front, isWordChar c = true) {c : Char}
    (hc : isWordChar c = true) (more : List Char) : Sticks (front ++ c :: more) := by
  cases front with
  | nil => exact sticks_cons (Or.inl hc) more
  | cons d front => exact sticks_cons (Or.inl (hfront d (List.mem_cons_self ..))) _

/-- A number that a text of word characters starts with ends before a point that no digit follows, or earlier. -/
theorem number?_point {d : Char} {ds : List Char} (hword : ∀ c ∈ d :: ds, isWordChar c = true)
    (hdigit : d.isDigit = true) {c : Char} (hc : c.isDigit = false) (more : List Char) :
    ∃ x left, number? (d :: ds ++ '.' :: c :: more) = some (x, left) ∧ Sticks left := by
  rw [number?]
  split
  · -- the first character is a digit
    rename_i hspan
    rw [List.span_eq_takeWhile_dropWhile, List.cons_append, List.takeWhile_cons_of_pos hdigit] at hspan
    cases hspan
  · rename_i integer after hne hspan
    obtain ⟨front, hfront, hafter⟩ := exists_of_span (by decide) hspan
    rw [hfront, List.forall_mem_append] at hword
    split
    · rw [hafter]
      exact ⟨_, _, rfl, sticks_append hword.2 (by decide) _⟩
    · rename_i fraction left hsome hfraction
      refine ⟨_, _, rfl, ?_⟩
      cases front with
      | nil =>
        -- the point is the one that no digit follows
        cases hafter
        rw [List.span_eq_takeWhile_dropWhile, List.takeWhile_cons_of_neg (by simp [hc])] at hfraction
        cases hfraction
        exact absurd rfl hsome
      | cons point front =>
        cases hafter
        obtain ⟨front', rfl, rfl⟩ := exists_of_span (by decide) hfraction
        rw [List.forall_mem_cons, List.forall_mem_append] at hword
        exact sticks_append hword.2.2.2 (by decide) _
  · rename_i integer after hne _ hspan
    obtain ⟨front, hfront, rfl⟩ := exists_of_span (by decide) hspan
    rw [hfront, List.forall_mem_append] at hword
    exact ⟨_, _, rfl, sticks_append hword.2 (by decide) _⟩

/-! ## Parts with parts -/

/-- Where the loop over products goes on, it ends at once or behind one operand. -/
theorem unaries_cases {P : List Char → Prop} {operation : Operation} {after : List Char}
    (hoperation : operation? .mul .div text = some (operation, after))
    (h : ∀ fuel y left, unary? fuel after = some (y, left) → P left ∧ operation? .mul .div left = none) (fuel : Nat) :
    (unaries fuel x text).2 = text ∨ P (unaries fuel x text).2 := by
  cases fuel with
  | zero => exact Or.inl rfl
  | succ fuel =>
    rw [unaries, hoperation]
    cases hright : unary? fuel after with
    | none => exact Or.inl (by simp only [hright])
    | some read =>
      obtain ⟨hafter, hnone⟩ := h _ _ _ hright
      simp only [hright, unaries_of_none hnone]
      exact Or.inr hafter

theorem terms_cases {P : List Char → Prop} {operation : Operation} {after : List Char}
    (hoperation : operation? .add .sub text = some (operation, after))
    (h : ∀ fuel y left, term? fuel after = some (y, left) → P left ∧ operation? .add .sub left = none) (fuel : Nat) :
    (terms fuel x text).2 = text ∨ P (terms fuel x text).2 := by
  cases fuel with
  | zero => exact Or.inl rfl
  | succ fuel =>
    rw [terms, hoperation]
    cases hright : term? fuel after with
    | none => exact Or.inl (by simp only [hright])
    | some read =>
      obtain ⟨hafter, hnone⟩ := h _ _ _ hright
      simp only [hright, terms_of_none hnone]
      exact Or.inr hafter

theorem operation?_cons {first second operation : Operation} (hone : operation = first ∨ operation = second)
    (rest : List Char) : operation? first second (operation.sign :: rest) = some (operation, skip rest) := by
  unfold operation?
  rw [spacedChar?, spacedChar?, skip_cons (isBlank_of_isSign (isSign_sign operation))]
  rcases hone with rfl | rfl
  · rw [char?, if_pos rfl, Option.map_some]
  · by_cases heq : operation = first
    · rw [heq, char?, if_pos rfl, Option.map_some]
    · have hne : operation.sign ≠ first.sign := by
        cases operation <;> cases first <;> first | exact absurd rfl heq | decide
      rw [char?, if_neg hne, char?, if_pos rfl, Option.map_some]
      rfl

theorem Sticks.unclosed (h : Sticks left) : char? ')' (skip left) = none := by
  rw [h.skip_eq]
  exact h.char?_eq_none (by decide) (by decide)

section

variable {l r : Expr} {operation : Operation}

/-- Is what is left behind two operands the bracket that closes them, or not a closing bracket? -/
def Closes (e : Expr) (rest left : List Char) : Prop :=
  e.parameterMentions = [] ∧ left = ')' :: rest ∨ char? ')' (skip left) = none

/-- Behind the first operand, the second is read or the sign is left. -/
theorem closes_binary (hl : l.parameterMentions = []) (h : left = operation.sign :: text ∨ r.Leaves (')' :: rest) left) :
    (binary operation l r).Closes rest left := by
  rcases h with rfl | ⟨hr, rfl⟩ | hsticks
  · refine Or.inr ?_
    rw [skip_cons (isBlank_of_isSign (isSign_sign operation)), char?, if_neg]
    cases operation <;> decide
  · refine Or.inl ⟨?_, rfl⟩
    rw [parameterMentions, hl, hr, List.append_nil]
  · exact Or.inr hsticks.unclosed

/-- A product is read before it is looked for a sum. -/
theorem closes_product (hl : l.Blocked) (hr : r.Blocked) (hadditive : operation.isAdditive = false) (rest : List Char) :
    ∀ fuel x left, term? fuel (l.chars ++ operation.sign :: (r.chars ++ ')' :: rest)) = some (x, left) →
      (binary operation l r).Closes rest left ∧ operation? .add .sub left = none := by
  intro fuel x left hterm
  have hone := Operation.eq_of_not_isAdditive hadditive
  have hclose : Stops [')'] (')' :: rest) := stops_cons (by decide) rest
  have hsign : Stops [operation.sign] (operation.sign :: (r.chars ++ ')' :: rest)) := stops_cons (by simp) _
  have hunary : [operation.sign] ⊆ afterUnary := by rcases hone with rfl | rfl <;> decide
  cases fuel with
  | zero => cases hterm
  | succ fuel =>
    simp only [term?, Option.bind_eq_bind, Option.bind_eq_some_iff] at hterm
    obtain ⟨⟨first, after⟩, hfirst, hterm⟩ := hterm
    -- either the loop over products stands before the sign, or neither loop goes on
    rcases hl.leaves _ (hsign.mono hunary) _ _ _ hfirst with ⟨hclean, rfl⟩ | hsticks
    · have hgoes : operation? .mul .div (operation.sign :: (r.chars ++ ')' :: rest)) =
          some (operation, r.chars ++ ')' :: rest) := by
        rw [operation?_cons hone, hr.start]
      have hleft := unaries_cases (x := first) hgoes (fun k y left h =>
        have hright := hr.leaves (')' :: rest) (hclose.mono (by decide)) k y left h
        ⟨hright, hright.operation?_eq_none (hclose.operation?_eq_none (by decide) (by decide) (by decide))⟩) fuel
      rw [Option.some.inj hterm] at hleft
      refine ⟨closes_binary hclean hleft, ?_⟩
      -- and the loop over sums goes on with none of what that one leaves
      rcases hleft with rfl | hleaves
      · exact hsign.operation?_eq_none hunary (by rcases hone with rfl | rfl <;> decide)
          (by rcases hone with rfl | rfl <;> decide)
      · exact hleaves.operation?_eq_none (hclose.operation?_eq_none (by decide) (by decide) (by decide))
    · rw [unaries_of_none (hsticks.operation?_eq_none ..)] at hterm
      cases hterm
      exact ⟨Or.inr hsticks.unclosed, hsticks.operation?_eq_none ..⟩

theorem closes_sum (hl : l.Blocked) (hr : r.Blocked) (hadditive : operation.isAdditive = true) (rest : List Char) :
    ∀ fuel x left, expr? fuel (l.chars ++ operation.sign :: (r.chars ++ ')' :: rest)) = some (x, left) →
      (binary operation l r).Closes rest left := by
  intro fuel x left hexpr
  have hone := Operation.eq_of_isAdditive hadditive
  have hclose : Stops [')'] (')' :: rest) := stops_cons (by decide) rest
  have hsign : Stops afterTerm (operation.sign :: (r.chars ++ ')' :: rest)) :=
    stops_cons (by rcases hone with rfl | rfl <;> decide) _
  cases fuel with
  | zero => cases hexpr
  | succ fuel =>
    simp only [expr?, Option.bind_eq_bind, Option.bind_eq_some_iff] at hexpr
    obtain ⟨⟨first, after⟩, hfirst, hexpr⟩ := hexpr
    rcases hl.term hsign _ _ _ hfirst with ⟨hclean, rfl⟩ | hsticks
    · have hgoes : operation? .add .sub (operation.sign :: (r.chars ++ ')' :: rest)) =
          some (operation, r.chars ++ ')' :: rest) := by
        rw [operation?_cons hone, hr.start]
      have hleft := terms_cases (x := first) hgoes (fun k y left h =>
        have hright := hr.term (hclose.mono (by decide)) k y left h
        ⟨hright, hright.operation?_eq_none (hclose.operation?_eq_none (by decide) (by decide) (by decide))⟩) fuel
      rw [Option.some.inj hexpr] at hleft
      exact closes_binary hclean hleft
    · rw [terms_of_none (hsticks.operation?_eq_none ..)] at hexpr
      cases hexpr
      exact Or.inr hsticks.unclosed

/-- Two operands with a sign between them are read to the bracket that closes them, or it is not read. -/
theorem closes_operands (hl : l.Blocked) (hr : r.Blocked) (operation : Operation) (rest : List Char) :
    ∀ fuel x left, expr? fuel (l.chars ++ operation.sign :: (r.chars ++ ')' :: rest)) = some (x, left) →
      (binary operation l r).Closes rest left := by
  cases hadditive : operation.isAdditive with
  | true => exact closes_sum hl hr hadditive rest
  | false => exact expr?_of_term (closes_product hl hr hadditive rest)

end

/-! ## Brackets -/

/-- Where a bracket opens, an atom is what stands in it. -/
theorem atom?_open (fuel : Nat) (text : List Char) : atom? (fuel + 1) ('(' :: text) = bracketed? fuel ('(' :: text) := by
  rw [atom?, number?_eq_none (by decide), tokens?_eq_none (by decide), capacity?_eq_none (by decide),
    call?_eq_none (by decide), parameter?_eq_none (by decide)]
  cases bracketed? fuel ('(' :: text) <;> rfl

/-- What stands in brackets is read to the bracket that closes them, or not at all. -/
theorem leaves_bracketed {e : Expr} {inner : List Char} (hrest : Stops afterUnary rest)
    (hstart : skip (inner ++ ')' :: rest) = inner ++ ')' :: rest)
    (h : ∀ fuel x left, expr? fuel (inner ++ ')' :: rest) = some (x, left) → e.Closes rest left) :
    ∀ fuel x left, unary? fuel ('(' :: (inner ++ ')' :: rest)) = some (x, left) →
      e.parameterMentions = [] ∧ left = rest := by
  intro fuel x left hunary
  obtain ⟨k, after, hatom, rfl⟩ := exists_atom_of_unary? (by decide) (by decide) hunary
  rw [atom?_open] at hatom
  cases k with
  | zero => cases hatom
  | succ k =>
    simp only [bracketed?, char?_self, hstart, Option.bind_eq_bind, Option.bind_some,
      Option.bind_eq_some_iff] at hatom
    obtain ⟨⟨read, closed⟩, hexpr, behind, hclosed, heq⟩ := hatom
    cases heq
    rcases h _ _ _ hexpr with ⟨hclean, rfl⟩ | hnone
    · rw [skip_cons (by decide), char?_self] at hclosed
      cases hclosed
      exact ⟨hclean, hrest.skip_eq⟩
    · rw [hnone] at hclosed
      cases hclosed

theorem Blocked.binary {l r : Expr} (hl : l.Blocked) (hr : r.Blocked) (operation : Operation) :
    (binary operation l r).Blocked := by
  refine ⟨fun rest => skip_cons (by decide) _, fun rest hrest fuel x left hunary => ?_⟩
  have htext : (Expr.binary operation l r).chars ++ rest =
      '(' :: ((l.chars ++ operation.sign :: r.chars) ++ ')' :: rest) := by
    simp only [chars, List.cons_append, List.append_assoc, List.nil_append]
  rw [htext] at hunary
  refine Or.inl (leaves_bracketed hrest ?_ (fun fuel x left hexpr => ?_) fuel x left hunary)
  · rw [List.append_assoc]
    exact hl.start _
  · rw [List.append_assoc, List.cons_append] at hexpr
    exact closes_operands hl hr operation rest fuel x left hexpr

/-- An expression in brackets. -/
theorem Blocked.closes {e : Expr} (h : e.Blocked) (rest : List Char) :
    ∀ fuel x left, expr? fuel (e.chars ++ ')' :: rest) = some (x, left) → e.Closes rest left := by
  intro fuel x left hexpr
  exact (h.expr (stops_cons (by decide) rest) fuel x left hexpr).imp id Sticks.unclosed

/-- No atom starts with the sign of a negation. -/
theorem atom?_minus (fuel : Nat) (text : List Char) : atom? fuel (skip ('-' :: text)) = none := by
  rw [skip_cons (by decide)]
  cases fuel with
  | zero => rfl
  | succ fuel =>
    rw [atom?, number?_eq_none (by decide), tokens?_eq_none (by decide), capacity?_eq_none (by decide),
      call?_eq_none (by decide), bracketed?_eq_none (by decide), parameter?_eq_none (by decide)]
    rfl

theorem Blocked.neg {inner : Expr} (h : inner.Blocked) : (neg inner).Blocked := by
  refine ⟨fun rest => skip_cons (by decide) _, fun rest hrest fuel x left hunary => Or.inl ?_⟩
  have htext : (Expr.neg inner).chars ++ rest = '-' :: '(' :: (inner.chars ++ ')' :: rest) := by
    simp only [chars, List.cons_append, List.append_assoc, List.nil_append]
  rw [htext] at hunary
  cases fuel with
  | zero => cases hunary
  | succ fuel =>
    have hminus : spacedChar? '-' ('-' :: '(' :: (inner.chars ++ ')' :: rest)) =
        some ('(' :: (inner.chars ++ ')' :: rest)) := by
      rw [spacedChar?_cons (by decide), skip_cons (by decide)]
    rw [unary?, hminus, Option.bind_some] at hunary
    cases hinner : unary? fuel ('(' :: (inner.chars ++ ')' :: rest)) with
    | some read =>
      rw [hinner] at hunary
      cases hunary
      exact leaves_bracketed hrest (h.start _) (h.closes rest) fuel _ _ hinner
    | none =>
      rw [hinner, atom?_minus] at hunary
      cases hunary

/-! ## Arguments -/

/-- The texts of further arguments, each behind a comma. -/
def further (others : List Expr) : List Char := (others.map chars).flatMap fun cs => ',' :: cs

theorem stops_further (others : List Expr) (rest : List Char) : Stops afterExpr (further others ++ ')' :: rest) := by
  cases others with
  | nil => exact stops_cons (by decide) rest
  | cons a others => exact stops_cons (by decide) _

theorem arguments_of_none {fuel : Nat} (h : char? ',' text = none) : arguments fuel text = ([], text) := by
  cases fuel with
  | zero => rfl
  | succ fuel => rw [arguments, h]

/-- Are further arguments read to the bracket that closes a call, or is that bracket not read? -/
def ClosesCall (args : List Expr) (rest left : List Char) : Prop :=
  (∀ a ∈ args, a.parameterMentions = []) ∧ left = ')' :: rest ∨ char? ')' left = none

/-- What is left behind one argument is what stands behind it, and further arguments are read, or nothing is. -/
theorem closesCall_cons {a : Expr} {others : List Expr} {j : Nat} {read : Expr × List Char} (h : a.Blocked)
    (hothers : ∀ fuel, ClosesCall others rest (arguments fuel (further others ++ ')' :: rest)).2)
    (hexpr : expr? j (a.chars ++ (further others ++ ')' :: rest)) = some read) (fuel : Nat) :
    ClosesCall (a :: others) rest (arguments fuel (skip read.2)).2 := by
  have hstops := stops_further others rest
  rcases h.expr hstops j read.1 read.2 hexpr with ⟨hclean, hleft⟩ | hsticks
  · rw [hleft, (hstops.mono (by decide)).skip_eq]
    exact (hothers fuel).imp (fun hall => ⟨List.forall_mem_cons.2 ⟨hclean, hall.1⟩, hall.2⟩) id
  · have hnone := fun {d} => hsticks.char?_eq_none (d := d)
    rw [hsticks.skip_eq, arguments_of_none (hnone (by decide) (by decide))]
    exact Or.inr (hnone (by decide) (by decide))

/-- The induction is on the arguments; the loop stops early where one is not read, with its comma left. -/
theorem closesCall_further {others : List Expr} (h : ∀ a ∈ others, a.Blocked) (rest : List Char) (fuel : Nat) :
    ClosesCall others rest (arguments fuel (further others ++ ')' :: rest)).2 := by
  induction others generalizing fuel with
  | nil =>
    refine Or.inl ⟨by simp, ?_⟩
    cases fuel <;> rfl
  | cons a others ih =>
    rw [List.forall_mem_cons] at h
    have htext : further (a :: others) ++ ')' :: rest = ',' :: (a.chars ++ (further others ++ ')' :: rest)) := by
      simp [further]
    rw [htext]
    cases fuel with
    | zero => exact Or.inr rfl
    | succ fuel =>
      rw [arguments, char?_self]
      simp only [h.1.start]
      cases hexpr : expr? fuel (a.chars ++ (further others ++ ')' :: rest)) with
      | none => exact Or.inr rfl
      | some read => exact closesCall_cons h.1 (ih h.2) hexpr fuel

theorem leaves_call {callee : Callee} {args : List Expr} (hne : args ≠ []) (h : ∀ a ∈ args, a.Blocked)
    {fuel : Nat} {after : List Char}
    (hcall : call? fuel (callee.name.toList ++ '(' :: (charsAll args ++ ')' :: rest)) = some (x, after)) :
    (∀ a ∈ args, a.parameterMentions = []) ∧ after = rest := by
  obtain ⟨a, others, rfl⟩ := List.exists_cons_of_ne_nil hne
  rw [List.forall_mem_cons] at h
  have htext : charsAll (a :: others) ++ ')' :: rest = a.chars ++ (further others ++ ')' :: rest) := by
    rw [charsAll_cons, further, List.append_assoc]
  cases fuel with
  | zero => cases hcall
  | succ fuel =>
    rw [htext] at hcall
    simp only [call?, callee?_append, spacedChar?_cons (c := '(') (by decide), h.1.start, Option.bind_eq_bind,
      Option.bind_some, Option.bind_eq_some_iff] at hcall
    obtain ⟨read, hexpr, behind, hclosed, hcall⟩ := hcall
    -- whether the function takes that many arguments does not matter here
    have hafter : behind = after := by
      split at hcall
      · cases hcall
      · cases hcall
        rfl
    subst hafter
    rcases closesCall_cons h.1 (closesCall_further h.2 rest) hexpr fuel with ⟨hclean, hleft⟩ | hnone
    · rw [hleft, char?_self] at hclosed
      cases hclosed
      exact ⟨hclean, rfl⟩
    · rw [hnone] at hclosed
      cases hclosed

theorem parameterMentionsAll_eq_nil {args : List Expr} (h : ∀ a ∈ args, a.parameterMentions = []) :
    parameterMentionsAll args = [] := by
  rw [parameterMentionsAll_eq, List.flatMap_eq_nil_iff]
  exact h

/-- Behind the name of a function there are its arguments, or the name is a parameter. -/
theorem atom?_name (callee : Callee) (text : List Char) (fuel : Nat) : atom? (fuel + 1) (callee.name.toList ++ text) =
    (call? fuel (callee.name.toList ++ text)).orElse fun _ => parameter? (callee.name.toList ++ text) := by
  have hname : callee.name.toList ≠ [] ∧ ∀ c ∈ callee.name.toList.head?, c.isDigit = false ∧ c ≠ '#' ∧ c ≠ '(' := by
    cases callee <;> simp [Callee.name]
  obtain ⟨c, cs, hcons⟩ := List.exists_cons_of_ne_nil hname.1
  obtain ⟨hdigit, hsharp, hopen⟩ := hname.2 c (by rw [hcons]; rfl)
  have hcapacity : capacity? (callee.name.toList ++ text) = none := by cases callee <;> rfl
  rw [atom?, hcapacity, hcons, List.cons_append, number?_eq_none hdigit, tokens?_eq_none hsharp,
    bracketed?_eq_none hopen]
  rfl

/-- A call that is not read leaves the bracket behind the name of its function. -/
theorem blocked_call {callee : Callee} {args : List Expr} (hne : args ≠ []) (h : ∀ a ∈ args, a.Blocked) :
    (call callee args).Blocked := by
  have hname : IsWord callee.name := by cases callee <;> decide
  obtain ⟨c, cs, hcons, hword⟩ := hname.exists_cons
  have hchars : (call callee args).chars = c :: (cs ++ '(' :: charsAll args ++ [')']) := by
    rw [chars, hcons]
    simp
  refine blocked_atom hchars (isBlank_of_isWordChar hword) ?_ fun rest _ k x after hatom => ?_
  · rintro rfl
    exact absurd hword (by decide)
  · have htext : (call callee args).chars ++ rest = callee.name.toList ++ '(' :: (charsAll args ++ ')' :: rest) := by
      simp only [chars, List.cons_append, List.append_assoc, List.nil_append]
    rw [htext, atom?_name] at hatom
    cases hcall : call? k (callee.name.toList ++ '(' :: (charsAll args ++ ')' :: rest)) with
    | some read =>
      rw [hcall] at hatom
      cases hatom
      obtain ⟨hclean, hafter⟩ := leaves_call hne h hcall
      exact Or.inl ⟨by rw [parameterMentions, parameterMentionsAll_eq_nil hclean], hafter⟩
    | none =>
      -- the name is read alone, as a parameter
      rw [hcall, parameter?, word?_append hname (halts_sign (by decide) _)] at hatom
      cases hatom
      exact Or.inr (sticks_cons (Or.inr rfl) _)

/-! ## Whole texts -/

/-- Expressions that could be written, were it not for the names of their parameters. -/
def Garbled (e : Expr) : Prop := e.Formed Number.IsPlain IsWord Misread

/-- The induction is on the form of the expression: whatever its parts are read as, they leave no more. -/
theorem Garbled.blocked {e : Expr} (h : e.Garbled) : e.Blocked := by
  induction h with
  | number hvalue => exact blocked_number hvalue
  | tokens hplace hcolor => exact blocked_tokens hplace hcolor
  | capacity hplace => exact blocked_capacity hplace
  | parameter hid => exact blocked_parameter hid
  | neg _ ih => exact ih.neg
  | binary _ _ ihleft ihright => exact ihleft.binary ihright _
  | call htakes _ ih => exact blocked_call (List.ne_nil_of_length_pos htakes.1) ih

/-- Where a parameter has such a name, the text is refused. -/
theorem Garbled.ofText_ne_ok {e : Expr} (h : e.Garbled) (hmentions : e.parameterMentions ≠ []) (read : Expr) :
    ofText e.text ≠ .ok read := by
  have hstart := h.blocked.start []
  have hleaves := h.blocked.expr (nofun : Stops afterExpr [])
  rw [List.append_nil] at hstart hleaves
  have hfails : ∃ failure, ofChars e.chars = .error failure := by
    rw [ofChars, hstart]
    cases hexpr : expr? (depth e.chars) e.chars with
    | none => exact ⟨_, rfl⟩
    | some found =>
      rcases hleaves _ found.1 found.2 hexpr with ⟨hclean, _⟩ | hsticks
      · exact absurd hclean hmentions
      · obtain ⟨c, cs, hcons, _⟩ := hsticks.exists_cons
        have hskip : skip found.2 = c :: cs := hsticks.skip_eq.trans hcons
        simp only [hskip]
        exact ⟨_, rfl⟩
  obtain ⟨failure, hfails⟩ := hfails
  rw [ofText, text, String.toList_ofList, hfails]
  exact fun heq => by cases heq

end PetriTree.Expr
