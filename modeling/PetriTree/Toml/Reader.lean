import PetriTree.Json.Reader
import PetriTree.Toml.Scalar

/-!
# PetriTree — reading TOML

Reading is total: no step takes more rounds than the text has characters. Lists and tables within
values nest eighty deep at most, and a path has eighty keys at most. Between the brackets of a list
or a table, line ends and comments count as blanks, except within a path. A carriage return counts
only in front of a line feed, and no other control character but the tab may stand in comments and
strings.

* `Toml.ofText?` — the table of a text.
-/

namespace PetriTree.Toml

/-- How deep lists and tables may nest within a value, and how many keys a path may have. -/
def nestingLimit : Nat := 80

/-! ## Blanks, comments and line ends -/

def isBlank (c : Char) : Bool := c == ' ' || c == '\t'

def skip (text : List Char) : List Char := text.dropWhile isBlank

/-- The characters that may stand in comments and strings. -/
def isPlain (c : Char) : Bool := c == '\t' || (32 ≤ c.toNat && c.toNat != 127)

/-- The text after its line end, if it starts with one. -/
def lineEnd? : List Char → Option (List Char)
  | '\n' :: rest => some rest
  | '\r' :: '\n' :: rest => some rest
  | _ => none

/-- The text after a comment, if there is one. -/
def skipComment : List Char → List Char
  | '#' :: rest => rest.dropWhile isPlain
  | text => text

/-- The text after blanks, comments and line ends, for at most the given number of lines. -/
def skipLines : Nat → List Char → List Char
  | 0, text => text
  | lines + 1, text =>
    let rest := skipComment (skip text)
    match lineEnd? rest with
    | some rest => skipLines lines rest
    | none => rest

/-- The text after every blank, comment and line end it starts with. -/
def skipAll (text : List Char) : List Char := skipLines (text.length + 1) text

/-- The text after the end of the current line; the last line need not end. -/
def closeLine? (text : List Char) : Option (List Char) :=
  match skipComment (skip text) with
  | [] => some []
  | rest => lineEnd? rest

/-! ## Strings -/

/-- The single quote, which encloses strings without escapes. -/
def apostrophe : Char := Char.ofNat 39

/-- The number that exactly `n` hexadecimal digits at the start of a text denote, and the rest. -/
def hex? : Nat → Nat → List Char → Option (Nat × List Char)
  | 0, value, text => some (value, text)
  | n + 1, value, c :: rest => do hex? n (value * 16 + (← Json.hexDigit? c)) rest
  | _ + 1, _, [] => none

def charOf? (n : Nat) : Option Char := if n.isValidChar then some (Char.ofNat n) else none

/-- The character of an escape whose backslash was read, and the rest. -/
def escape? : List Char → Option (Char × List Char)
  | [] => none
  | c :: rest =>
    if c = 'x' then do
      let (n, rest) ← hex? 2 0 rest
      some (← charOf? n, rest)
    else if c = 'u' then do
      let (n, rest) ← hex? 4 0 rest
      some (← charOf? n, rest)
    else if c = 'U' then do
      let (n, rest) ← hex? 8 0 rest
      some (← charOf? n, rest)
    else if c = 'e' then some (Char.ofNat 0x1b, rest)
    else if c = '/' then none
    else do some (← Json.letterEscape? c, rest)

/-- The rest of a string whose opening quote was read; `read` holds its characters in reverse. -/
def basic? : Nat → List Char → List Char → Option (String × List Char)
  | 0, _, _ | _ + 1, _, [] => none
  | fuel + 1, read, c :: rest =>
    if c = '"' then some (String.ofList read.reverse, rest)
    else if c = '\\' then do
      let (c, rest) ← escape? rest
      basic? fuel (c :: read) rest
    else if isPlain c then basic? fuel (c :: read) rest
    else none

def literal? (text : List Char) : Option (String × List Char) := do
  let (inside, rest) := text.span (· != apostrophe)
  if inside.all isPlain then some (String.ofList inside, ← after? apostrophe rest) else none

/-- Three quotes at the start of a text end a string; up to two more in front of them belong to it.
Answers those and the rest. -/
def closing? (quote : Char) (text : List Char) : Option (List Char × List Char) :=
  let (quotes, rest) := text.span (· == quote)
  if 3 ≤ quotes.length ∧ quotes.length ≤ 5 then some (quotes.drop 3, rest) else none

def startsClosing (quote : Char) (text : List Char) : Bool := text.take 3 == [quote, quote, quote]

/-- The text after the blanks and line ends it starts with. -/
def skipSpace : List Char → List Char
  | [] => []
  | '\r' :: '\n' :: rest => skipSpace rest
  | c :: rest => if isBlank c || c == '\n' then skipSpace rest else c :: rest

/-- The text after a backslash at a line end, together with all blanks and line ends that follow. -/
def continued? (text : List Char) : Option (List Char) := (lineEnd? (skip text)).map skipSpace

/-- The rest of a string over several lines; with `escapes` a backslash means something. -/
def lines? (quote : Char) (escapes : Bool) : Nat → List Char → List Char → Option (String × List Char)
  | 0, _, _ | _ + 1, _, [] => none
  | fuel + 1, read, c :: rest =>
    if startsClosing quote (c :: rest) then
      (closing? quote (c :: rest)).map fun (more, rest) => (String.ofList (read.reverse ++ more), rest)
    else if escapes ∧ c = '\\' then
      -- a line end after the backslash takes the blanks of the next lines with it
      match continued? rest with
      | some rest => lines? quote escapes fuel read rest
      | none => do
        let (c, rest) ← escape? rest
        lines? quote escapes fuel (c :: read) rest
    else if isPlain c then lines? quote escapes fuel (c :: read) rest
    else do
      let rest ← lineEnd? (c :: rest)
      lines? quote escapes fuel ('\n' :: read) rest

/-- The string over several lines whose opening quotes were read; a line end right after them is not
part of it. -/
def multiline? (quote : Char) (escapes : Bool) (text : List Char) : Option (String × List Char) :=
  let text := (lineEnd? text).getD text
  lines? quote escapes (text.length + 1) [] text

/-! ## Keys -/

def isKeyChar (c : Char) : Bool := c.isAlphanum || c == '_' || c == '-'

def key? : List Char → Option (String × List Char)
  | [] => none
  | c :: rest =>
    if c = '"' then basic? (rest.length + 1) [] rest
    else if c = apostrophe then literal? rest
    else
      match (c :: rest).span isKeyChar with
      | ([], _) => none
      | (key, rest) => some (String.ofList key, rest)

/-- The keys at the start of a text, joined by points; nothing when there are more than the given
number of them. -/
def path? : Nat → List String → List Char → Option (Path × List Char)
  | 0, _, _ => none
  | more + 1, before, text => do
    let (key, rest) ← key? (skip text)
    match skip rest with
    | '.' :: rest => path? more (before ++ [key]) rest
    | rest => some (⟨before, key⟩, rest)

def pathAt? (text : List Char) : Option (Path × List Char) := path? nestingLimit [] text

/-! ## Values -/

def isWordChar (c : Char) : Bool := c.isAlphanum || c == '_' || c == '-' || c == '+' || c == '.' || c == ':'

/-- The word at the start of a text. A date may be followed by a blank and a time. -/
def word (text : List Char) : List Char × List Char :=
  let (word, rest) := text.span isWordChar
  match rest with
  | ' ' :: c :: more =>
    -- only after a whole date can a blank be part of a word
    if date? word == some [] && c.isDigit then
      let (second, rest) := (c :: more).span isWordChar
      (word ++ ' ' :: second, rest)
    else (word, rest)
  | rest => (word, rest)

mutual

/-- The value at the start of a text, with lists and tables in it to a given depth. -/
def value? : Nat → Nat → List Char → Option (Toml × List Char)
  | 0, _, _ | _ + 1, _, [] => none
  | fuel + 1, depth, c :: rest =>
    if startsClosing '"' (c :: rest) then
      (multiline? '"' true (rest.drop 2)).map fun (s, rest) => (str s, rest)
    else if startsClosing apostrophe (c :: rest) then
      (multiline? apostrophe false (rest.drop 2)).map fun (s, rest) => (str s, rest)
    else if c = '"' then (basic? (rest.length + 1) [] rest).map fun (s, rest) => (str s, rest)
    else if c = apostrophe then (literal? rest).map fun (s, rest) => (str s, rest)
    else if c = '[' ∨ c = '{' then
      match depth with
      | 0 => none
      | depth + 1 =>
        if c = '[' then (items? fuel depth rest).map fun (items, rest) => (arr items, rest)
        else do
          let (lines, rest) ← members? fuel depth rest
          some (← ofLines? lines, rest)
    else
      let (word, rest) := word (c :: rest)
      (scalar? word).map fun value => (value, rest)

/-- The items of a list up to its closing bracket; a comma may follow the last one. -/
def items? : Nat → Nat → List Char → Option (List Toml × List Char)
  | 0, _, _ => none
  | fuel + 1, depth, text =>
    match skipAll text with
    | ']' :: rest => some ([], rest)
    | text => do
      let (item, text) ← value? fuel depth text
      match skipAll text with
      | ']' :: rest => some ([item], rest)
      | ',' :: rest =>
        let (items, rest) ← items? fuel depth rest
        some (item :: items, rest)
      | _ => none

/-- The members of a table within a value, up to its closing bracket; a comma may follow the last
one. -/
def members? : Nat → Nat → List Char → Option (List (Path × Toml) × List Char)
  | 0, _, _ => none
  | fuel + 1, depth, text =>
    match skipAll text with
    | '}' :: rest => some ([], rest)
    | text => do
      let (path, text) ← pathAt? text
      -- a path stands on one line, but the equals sign and the value may follow on others
      let (value, text) ← value? fuel depth (skipAll (← after? '=' (skipAll text)))
      match skipAll text with
      | '}' :: rest => some ([(path, value)], rest)
      | ',' :: rest =>
        let (members, rest) ← members? fuel depth rest
        some ((path, value) :: members, rest)
      | _ => none

end

/-! ## Documents -/

def line? (text : List Char) : Option ((Path × Toml) × List Char) := do
  let (path, text) ← pathAt? text
  let text := skip (← after? '=' text)
  let (value, text) ← value? (text.length + 1) nestingLimit text
  some ((path, value), ← closeLine? text)

/-- The lines up to the next header, and the rest. -/
def linesAt? : Nat → List Char → Option (List (Path × Toml) × List Char)
  | 0, _ => none
  | fuel + 1, text =>
    match skipAll text with
    | [] => some ([], [])
    | '[' :: rest => some ([], '[' :: rest)
    | text => do
      let (line, text) ← line? text
      let (lines, text) ← linesAt? fuel text
      some (line :: lines, text)

def header? : List Char → Option (Header × List Char)
  | '[' :: '[' :: rest => do
    let (path, rest) ← pathAt? rest
    some (.repeated path, ← closeLine? (← after? ']' (← after? ']' rest)))
  | '[' :: rest => do
    let (path, rest) ← pathAt? rest
    some (.single path, ← closeLine? (← after? ']' rest))
  | _ => none

/-- The sections of a text that starts with a header or is empty. -/
def sections? : Nat → List Char → Option (List Section)
  | 0, _ => none
  | _ + 1, [] => some []
  | fuel + 1, text => do
    let (header, text) ← header? text
    let (lines, text) ← linesAt? (text.length + 1) text
    let sections ← sections? fuel text
    some (⟨header, lines⟩ :: sections)

/-- The table of a text; nothing when the text is not a document. A mark of the byte order at the
start is no part of the document. -/
def ofText? (text : String) : Option Toml := do
  let text := text.toList
  let text := if text.head? = some (Char.ofNat 0xfeff) then text.drop 1 else text
  let (lines, text) ← linesAt? (text.length + 1) text
  let sections ← sections? (text.length + 1) text
  ofSections? lines sections

end PetriTree.Toml
