import Mathlib.Data.List.TakeDrop
import Mathlib.Data.List.TakeWhile
import PetriTree.Expr.Reader
import PetriTree.Proofs.Expr

/-!
# PetriTree — the grammar of expressions

What a text means is said here without a reader: the text falls into tokens, with blanks in front of any of
them, and the tokens derive an expression.

    expr      := term | expr ("+" | "-") term
    term      := unary | term ("*" | "/") unary
    unary     := atom | "-" unary
    atom      := number | "#" "(" word ")" | "#" "(" word "," word ")" | "cap" "(" word ")"
               | ("ceil" | "floor" | "min" | "max") "(" arguments ")" | "(" expr ")" | word
    arguments := expr | expr "," arguments

The rules of sums and products are recursive on the left, since operations associate to the left. Whether
`12` is a number or a word and whether `cap` is a place to look up or a parameter is left open by the text
and decided by the rules.

Main results:
* `Expr.Lexes`, `Expr.Derives`, `Expr.Derivable` — the tokens of a text, and what they derive;
* `Expr.Derivable.written` — the form of expressions that some text derives.
-/

namespace PetriTree

/-- Is the operation one of those that bind least? -/
def Operation.isAdditive : Operation → Bool
  | add | sub => true
  | mul | div => false

theorem Operation.eq_of_isAdditive {operation : Operation} (h : operation.isAdditive = true) :
    operation = .add ∨ operation = .sub := by
  cases operation with
  | add => exact Or.inl rfl
  | sub => exact Or.inr rfl
  | mul | div => cases h

theorem Operation.eq_of_not_isAdditive {operation : Operation} (h : operation.isAdditive = false) :
    operation = .mul ∨ operation = .div := by
  cases operation with
  | mul => exact Or.inl rfl
  | div => exact Or.inr rfl
  | add | sub => cases h

namespace Expr

/-! ## Words and numbers -/

/-- A text that is read as one word. -/
def IsWord (text : String) : Prop := text.toList ≠ [] ∧ ∀ c ∈ text.toList, isWordChar c = true

/-- A word that is read as the name of a parameter: one that starts with a digit would be read as a
number. -/
def IsParameterName (text : String) : Prop :=
  IsWord text ∧ ∀ c ∈ text.toList.head?, c.isDigit = false

instance (text : String) : Decidable (IsWord text) :=
  decidable_of_iff (text.toList ≠ [] ∧ text.toList.all isWordChar = true)
    (and_congr_right fun _ => List.all_eq_true)

instance (text : String) : Decidable (IsParameterName text) :=
  decidable_of_iff (IsWord text ∧ (text.toList.head?.all fun c => !c.isDigit) = true)
    (and_congr_right fun _ => by simp [Option.all_eq_true])

/-- A number that has a decimal text. -/
def IsDecimal (value : Float) : Prop := ∃ d : Number.Decimal, value = d.toFloat

/-- The form of expressions that were read. -/
def Written (e : Expr) : Prop := e.Formed IsDecimal IsWord IsParameterName

theorem IsWord.exists_cons {word : String} (h : IsWord word) :
    ∃ c cs, word.toList = c :: cs ∧ isWordChar c = true := by
  obtain ⟨hne, hchars⟩ := h
  cases hword : word.toList with
  | nil => exact absurd hword hne
  | cons c cs => exact ⟨c, cs, rfl, hchars c (by rw [hword]; exact List.mem_cons_self ..)⟩

theorem isWordChar_of_isDigit {c : Char} (h : c.isDigit = true) : isWordChar c = true := by
  have hascii : c.toNat < 128 := by
    simp only [Char.isDigit, Bool.and_eq_true, decide_eq_true_eq] at h
    have hle : c.val.toNat ≤ 57 := h.2
    exact Nat.lt_of_le_of_lt hle (by decide)
  rw [isWordChar, Text.isAlphanumeric, if_pos hascii, Char.isAlphanum, h, Bool.or_true, Bool.or_true]

theorem isBlank_of_isWordChar {c : Char} (h : isWordChar c = true) : isBlank c = false := by
  by_contra hblank
  simp only [isBlank, Bool.not_eq_false, Bool.or_eq_true, beq_iff_eq] at hblank
  rcases hblank with ((rfl | rfl) | rfl) | rfl <;> exact absurd h (by decide)

/-- Digits with an optional fraction, and the value that they denote. -/
inductive Numeral : List Char → Float → Prop
  | integer {digits : List Char} : digits ≠ [] → (∀ c ∈ digits, c.isDigit = true) →
      Numeral digits (Number.Decimal.ofDigits digits []).toFloat
  | fraction {integer fraction : List Char} : integer ≠ [] → (∀ c ∈ integer, c.isDigit = true) →
      fraction ≠ [] → (∀ c ∈ fraction, c.isDigit = true) →
      Numeral (integer ++ '.' :: fraction) (Number.Decimal.ofDigits integer fraction).toFloat

theorem Numeral.isDecimal {digits : List Char} {value : Float} (h : Numeral digits value) :
    IsDecimal value := by
  cases h with
  | integer => exact ⟨_, rfl⟩
  | fraction => exact ⟨_, rfl⟩

/-- A number starts with a digit. -/
theorem Numeral.exists_cons {digits : List Char} {value : Float} (h : Numeral digits value) :
    ∃ c cs, digits = c :: cs ∧ c.isDigit = true := by
  cases h with
  | integer hne hdigits =>
    obtain ⟨c, cs, rfl⟩ := List.exists_cons_of_ne_nil hne
    exact ⟨c, cs, rfl, hdigits c (List.mem_cons_self ..)⟩
  | fraction hne hdigits =>
    obtain ⟨c, cs, rfl⟩ := List.exists_cons_of_ne_nil hne
    exact ⟨c, _, rfl, hdigits c (List.mem_cons_self ..)⟩

/-! ## Tokens -/

/-- What a text falls into. -/
inductive Token where
  | number (value : Float)
  | word (text : String)
  | sign (c : Char)

def isSign (c : Char) : Bool := ['#', '(', ')', ',', '+', '-', '*', '/'].contains c

/-- Does a text fall into tokens? Blanks may stand in front of each of them and at the end, and a word
reaches as far as its characters do. -/
inductive Lexes : List Char → List Token → Prop
  | nil : Lexes [] []
  | blank {c : Char} {text : List Char} {ts : List Token} : isBlank c = true → Lexes text ts →
      Lexes (c :: text) ts
  | sign {c : Char} {text : List Char} {ts : List Token} : isSign c = true → Lexes text ts →
      Lexes (c :: text) (.sign c :: ts)
  | word {word : String} {text : List Char} {ts : List Token} : IsWord word →
      (∀ c ∈ text.head?, isWordChar c = false) → Lexes text ts →
      Lexes (word.toList ++ text) (.word word :: ts)
  | number {digits : List Char} {value : Float} {text : List Char} {ts : List Token} :
      Numeral digits value → Lexes text ts → Lexes (digits ++ text) (.number value :: ts)

/-- What is known of a token that stands in a text. -/
def Token.Legible : Token → Prop
  | number value => IsDecimal value
  | word text => IsWord text
  | sign _ => True

theorem Lexes.legible {text : List Char} {ts : List Token} (h : Lexes text ts) : ∀ t ∈ ts, t.Legible := by
  induction h with
  | nil => simp
  | blank _ _ ih => exact ih
  | sign _ _ ih => exact List.forall_mem_cons.2 ⟨trivial, ih⟩
  | word hword _ _ ih => exact List.forall_mem_cons.2 ⟨hword, ih⟩
  | number hnumeral _ ih => exact List.forall_mem_cons.2 ⟨hnumeral.isDecimal, ih⟩

/-- Every token has a character of its own. -/
theorem Lexes.length_le {text : List Char} {ts : List Token} (h : Lexes text ts) :
    ts.length ≤ text.length := by
  induction h with
  | nil => exact Nat.le_refl _
  | blank _ _ ih => exact Nat.le_succ_of_le ih
  | sign _ _ ih => exact Nat.succ_le_succ ih
  | word hword _ _ ih =>
    obtain ⟨c, cs, hcons, _⟩ := hword.exists_cons
    rw [hcons, List.length_append, List.length_cons, List.length_cons]
    omega
  | number hnumeral _ ih =>
    obtain ⟨c, cs, rfl, _⟩ := hnumeral.exists_cons
    rw [List.length_append, List.length_cons, List.length_cons]
    omega

/-! ## Phrases -/

/-- What tokens can derive: an expression in one of its four roles, or the arguments of a call. -/
inductive Phrase where
  | expr (e : Expr)
  | term (e : Expr)
  | unary (e : Expr)
  | atom (e : Expr)
  | arguments (es : List Expr)

/-- The rules of the grammar. -/
inductive Derives : Phrase → List Token → Prop
  | exprTerm {e : Expr} {ts : List Token} : Derives (.term e) ts → Derives (.expr e) ts
  | exprBinary {operation : Operation} {left right : Expr} {ts us : List Token} :
      operation.isAdditive = true → Derives (.expr left) ts → Derives (.term right) us →
      Derives (.expr (binary operation left right)) (ts ++ .sign operation.sign :: us)
  | termUnary {e : Expr} {ts : List Token} : Derives (.unary e) ts → Derives (.term e) ts
  | termBinary {operation : Operation} {left right : Expr} {ts us : List Token} :
      operation.isAdditive = false → Derives (.term left) ts → Derives (.unary right) us →
      Derives (.term (binary operation left right)) (ts ++ .sign operation.sign :: us)
  | unaryAtom {e : Expr} {ts : List Token} : Derives (.atom e) ts → Derives (.unary e) ts
  | unaryNeg {e : Expr} {ts : List Token} : Derives (.unary e) ts →
      Derives (.unary (neg e)) (.sign '-' :: ts)
  | number {value : Float} : Derives (.atom (number value)) [.number value]
  | tokensAll {place : String} :
      Derives (.atom (tokens place none)) [.sign '#', .sign '(', .word place, .sign ')']
  | tokensColor {place color : String} : Derives (.atom (tokens place (some color)))
      [.sign '#', .sign '(', .word place, .sign ',', .word color, .sign ')']
  | capacity {place : String} :
      Derives (.atom (capacity place)) [.word "cap", .sign '(', .word place, .sign ')']
  | call {callee : Callee} {es : List Expr} {ts : List Token} : callee.Takes es.length →
      Derives (.arguments es) ts →
      Derives (.atom (call callee es)) (.word callee.name :: .sign '(' :: (ts ++ [.sign ')']))
  | bracketed {e : Expr} {ts : List Token} : Derives (.expr e) ts →
      Derives (.atom e) (.sign '(' :: (ts ++ [.sign ')']))
  | parameter {id : String} : (∀ c ∈ id.toList.head?, c.isDigit = false) →
      Derives (.atom (parameter id)) [.word id]
  | argumentsOne {e : Expr} {ts : List Token} : Derives (.expr e) ts → Derives (.arguments [e]) ts
  | argumentsCons {e : Expr} {es : List Expr} {ts us : List Token} : Derives (.expr e) ts →
      Derives (.arguments es) us → Derives (.arguments (e :: es)) (ts ++ .sign ',' :: us)

/-- Does the text derive the expression? -/
def Derivable (text : String) (e : Expr) : Prop := ∃ ts, Lexes text.toList ts ∧ Derives (.expr e) ts

/-- The expressions of a phrase. -/
def Phrase.parts : Phrase → List Expr
  | expr e | term e | unary e | atom e => [e]
  | arguments es => es

/-- Legible tokens derive written expressions. -/
theorem Derives.written {phrase : Phrase} {ts : List Token} (h : Derives phrase ts)
    (hts : ∀ t ∈ ts, t.Legible) : ∀ e ∈ phrase.parts, Written e := by
  induction h with
  | exprTerm _ ih | termUnary _ ih | unaryAtom _ ih | argumentsOne _ ih => exact ih hts
  | exprBinary _ _ _ ihleft ihright | termBinary _ _ _ ihleft ihright =>
    obtain ⟨hleft, hright⟩ := List.forall_mem_append.1 hts
    have hright := (List.forall_mem_cons.1 hright).2
    refine List.forall_mem_singleton.2 (.binary (ihleft hleft _ ?_) (ihright hright _ ?_)) <;>
      exact List.mem_singleton_self _
  | unaryNeg _ ih =>
    have hinner := (List.forall_mem_cons.1 hts).2
    exact List.forall_mem_singleton.2 (.neg (ih hinner _ (List.mem_singleton_self _)))
  | number => exact List.forall_mem_singleton.2 (.number (hts _ (List.mem_singleton_self _)))
  | @tokensAll place =>
    have hplace : IsWord place := hts (.word place) (by simp)
    exact List.forall_mem_singleton.2 (.tokens hplace (by simp))
  | @tokensColor place color =>
    have hplace : IsWord place := hts (.word place) (by simp)
    have hcolor : IsWord color := hts (.word color) (by simp)
    exact List.forall_mem_singleton.2 (.tokens hplace (by simpa using hcolor))
  | @capacity place =>
    have hplace : IsWord place := hts (.word place) (by simp)
    exact List.forall_mem_singleton.2 (.capacity hplace)
  | call htakes _ ih =>
    have harguments := (List.forall_mem_append.1 (List.forall_mem_cons.1 (List.forall_mem_cons.1 hts).2).2).1
    exact List.forall_mem_singleton.2 (.call htakes (ih harguments))
  | bracketed _ ih => exact ih (List.forall_mem_append.1 (List.forall_mem_cons.1 hts).2).1
  | parameter hdigit =>
    have hword := hts _ (List.mem_singleton_self _)
    exact List.forall_mem_singleton.2 (.parameter ⟨hword, hdigit⟩)
  | argumentsCons _ _ ihfirst ihothers =>
    obtain ⟨hfirst, hothers⟩ := List.forall_mem_append.1 hts
    refine List.forall_mem_cons.2 ⟨ihfirst hfirst _ (List.mem_singleton_self _), ?_⟩
    exact ihothers (List.forall_mem_cons.1 hothers).2

/-- Not every expression has a text: its numbers are decimals, its words have word characters, and its
functions get as many arguments as they take. -/
theorem Derivable.written {text : String} {e : Expr} (h : Derivable text e) : Written e := by
  obtain ⟨ts, hlexes, hderives⟩ := h
  exact hderives.written hlexes.legible e (List.mem_singleton_self e)

end Expr

end PetriTree
