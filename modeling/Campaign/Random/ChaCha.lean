import Campaign.Random.Source

/-!
# A seeded random source

The ChaCha stream with twelve rounds, read as 64-bit words. The key is stretched from a 64-bit seed
by a linear congruential generator whose output is permuted; the block counter is the only other
input, and eight stream words come from each block.
-/

namespace Campaign.ChaCha

/-- The sixteen words of a block. -/
structure State where
  (a0 a1 a2 a3 b0 b1 b2 b3 c0 c1 c2 c3 d0 d1 d2 d3 : UInt32)

/-- Rotates a word to the left. -/
def rotateLeft (x n : UInt32) : UInt32 := (x <<< n) ||| (x >>> ((32 - n) % 32))

/-- Rotates a word to the right. -/
def rotateRight (x n : UInt32) : UInt32 := (x >>> n) ||| (x <<< ((32 - n) % 32))

/-- Mixes four words. -/
def quarterRound (a b c d : UInt32) : UInt32 × UInt32 × UInt32 × UInt32 :=
  let a := a + b
  let d := rotateLeft (d ^^^ a) 16
  let c := c + d
  let b := rotateLeft (b ^^^ c) 12
  let a := a + b
  let d := rotateLeft (d ^^^ a) 8
  let c := c + d
  let b := rotateLeft (b ^^^ c) 7
  (a, b, c, d)

/-- A round down the columns and a round along the diagonals. -/
def doubleRound (s : State) : State :=
  let (a0, b0, c0, d0) := quarterRound s.a0 s.b0 s.c0 s.d0
  let (a1, b1, c1, d1) := quarterRound s.a1 s.b1 s.c1 s.d1
  let (a2, b2, c2, d2) := quarterRound s.a2 s.b2 s.c2 s.d2
  let (a3, b3, c3, d3) := quarterRound s.a3 s.b3 s.c3 s.d3
  let (a0, b1, c2, d3) := quarterRound a0 b1 c2 d3
  let (a1, b2, c3, d0) := quarterRound a1 b2 c3 d0
  let (a2, b3, c0, d1) := quarterRound a2 b3 c0 d1
  let (a3, b0, c1, d2) := quarterRound a3 b0 c1 d2
  { a0, a1, a2, a3, b0, b1, b2, b3, c0, c1, c2, c3, d0, d1, d2, d3 }

/-- Adds two blocks word by word. -/
def State.add (s t : State) : State where
  a0 := s.a0 + t.a0
  a1 := s.a1 + t.a1
  a2 := s.a2 + t.a2
  a3 := s.a3 + t.a3
  b0 := s.b0 + t.b0
  b1 := s.b1 + t.b1
  b2 := s.b2 + t.b2
  b3 := s.b3 + t.b3
  c0 := s.c0 + t.c0
  c1 := s.c1 + t.c1
  c2 := s.c2 + t.c2
  c3 := s.c3 + t.c3
  d0 := s.d0 + t.d0
  d1 := s.d1 + t.d1
  d2 := s.d2 + t.d2
  d3 := s.d3 + t.d3

/-- The block before mixing: four constants, the key, the counter, and two zero words. -/
def initial (key : Array UInt32) (counter : UInt64) : State where
  a0 := 0x61707865
  a1 := 0x3320646e
  a2 := 0x79622d32
  a3 := 0x6b206574
  b0 := key.getD 0 0
  b1 := key.getD 1 0
  b2 := key.getD 2 0
  b3 := key.getD 3 0
  c0 := key.getD 4 0
  c1 := key.getD 5 0
  c2 := key.getD 6 0
  c3 := key.getD 7 0
  d0 := counter.toUInt32
  d1 := (counter >>> 32).toUInt32
  d2 := 0
  d3 := 0

/-- The block at a counter: six double rounds, added to where they started. -/
def block (key : Array UInt32) (counter : UInt64) : State :=
  let start := initial key counter
  (Nat.repeat doubleRound 6 start).add start

/-- A 64-bit word from its low and high halves. -/
def wide (low high : UInt32) : UInt64 := low.toUInt64 ||| (high.toUInt64 <<< 32)

/-- The stream words of a block. -/
def State.words (s : State) : Array UInt64 :=
  #[wide s.a0 s.a1, wide s.a2 s.a3, wide s.b0 s.b1, wide s.b2 s.b3,
    wide s.c0 s.c1, wide s.c2 s.c3, wide s.d0 s.d1, wide s.d2 s.d3]

/-- The next state of the generator that stretches a seed. -/
def stretchStep (s : UInt64) : UInt64 := s * 6364136223846793005 + 11634580027462260723

/-- The key word that a state of that generator stands for. -/
def keyWord (s : UInt64) : UInt32 :=
  rotateRight (((s >>> 18) ^^^ s) >>> 27).toUInt32 (s >>> 59).toUInt32

/-- The next `n` key words from a state of the generator. -/
def keyWords : Nat → UInt64 → List UInt32
  | 0, _ => []
  | n + 1, s => keyWord (stretchStep s) :: keyWords n (stretchStep s)

/-- The eight key words of a seed. -/
def keyOfSeed (seed : UInt64) : Array UInt32 := (keyWords 8 seed).toArray

end Campaign.ChaCha

namespace Campaign.Source

/-- The stream of a seed. -/
def ofSeed (seed : UInt64) : Source :=
  let key := ChaCha.keyOfSeed seed
  { word := fun i => (ChaCha.block key (UInt64.ofNat (i / 8))).words.getD (i % 8) 0 }

end Campaign.Source
