import PetriTree.Chance

/-!
# PetriTree — the stream of a seed

A seed of 64 bits is stretched to a key of 256 bits by a permuted congruential generator. The words
are the key stream of the cipher ChaCha with twelve rounds under that key, with nonce zero and the
blocks counted from zero.

* `Chance.ofSeed` — the stream of a seed, before anything is drawn.
-/

namespace PetriTree.Chance

/-! ## Rows of words -/

/-- Four words. -/
structure Row where
  w0 : UInt32
  w1 : UInt32
  w2 : UInt32
  w3 : UInt32

namespace Row

def zip (f : UInt32 → UInt32 → UInt32) (x y : Row) : Row :=
  ⟨f x.w0 y.w0, f x.w1 y.w1, f x.w2 y.w2, f x.w3 y.w3⟩

def add (x y : Row) : Row := x.zip (· + ·) y

/-- The words of `y` flipped where `x` has a bit, and their bits then moved round to the left. -/
def xorRotate (bits : UInt32) (x y : Row) : Row :=
  x.zip (fun a b => ((a ^^^ b) <<< bits) ||| ((a ^^^ b) >>> (32 - bits))) y

def turn (x : Row) : Row := ⟨x.w1, x.w2, x.w3, x.w0⟩

end Row

/-! ## Blocks -/

/-- A block of sixteen words in four rows. -/
structure Block where
  a : Row
  b : Row
  c : Row
  d : Row

namespace Block

def mix (s : Block) : Block :=
  let a := s.a.add s.b
  let d := Row.xorRotate 16 s.d a
  let c := s.c.add d
  let b := Row.xorRotate 12 s.b c
  let a := a.add b
  let d := Row.xorRotate 8 d a
  let c := c.add d
  let b := Row.xorRotate 7 b c
  ⟨a, b, c, d⟩

/-- Two rounds: the columns, then the diagonals, which are turned into columns and back. -/
def twoRounds (s : Block) : Block :=
  let s := s.mix
  let s := mix ⟨s.a, s.b.turn, s.c.turn.turn, s.d.turn.turn.turn⟩
  ⟨s.a, s.b.turn.turn.turn, s.c.turn.turn, s.d.turn⟩

def add (s t : Block) : Block := ⟨s.a.add t.a, s.b.add t.b, s.c.add t.c, s.d.add t.d⟩

def toList (s : Block) : List UInt32 := [s.a, s.b, s.c, s.d].flatMap fun r => [r.w0, r.w1, r.w2, r.w3]

/-- The block of the key stream with a number, under a key of two rows. -/
def ofKey (low high : Row) (number : Nat) : Block :=
  let start : Block :=
    ⟨⟨0x61707865, 0x3320646e, 0x79622d32, 0x6b206574⟩, low, high,
      ⟨UInt32.ofNat number, UInt32.ofNat (number / wordCount), 0, 0⟩⟩
  (Nat.repeat twoRounds 6 start).add start

end Block

/-! ## Keys -/

def advanceSeed (state : UInt64) : UInt64 := state * 0x5851f42d4c957f2d + 0xa17654e46fbe17f3

/-- The word that a state stands for: its upper bits folded and moved round to the right by as much
as the uppermost say. -/
def permuted (state : UInt64) : UInt32 :=
  let word := (((state >>> 18) ^^^ state) >>> 27).toUInt32
  let bits := (state >>> 59).toUInt32
  (word >>> bits) ||| (word <<< (32 - bits))

/-- The row made from the four states after the given one, and the last of these. -/
def rowOfSeed (state : UInt64) : Row × UInt64 :=
  let s0 := advanceSeed state
  let s1 := advanceSeed s0
  let s2 := advanceSeed s1
  let s3 := advanceSeed s2
  (⟨permuted s0, permuted s1, permuted s2, permuted s3⟩, s3)

def ofSeed (seed : UInt64) : Chance :=
  let (low, state) := rowOfSeed seed
  let (high, _) := rowOfSeed state
  ⟨fun i => ((Block.ofKey low high (i / 16)).toList[i % 16]?).getD 0, 0⟩

end PetriTree.Chance
