/-!
The ChaCha stream of random words, with twelve rounds.

This stands for the words of the seeded generator of `rand`, `StdRng`, from which the programs draw
their documents: a key is spread from a number as `seed_from_u64` does it, and the blocks are
counted from zero. No theorem depends on it, because what is proved of random documents holds for
any `Dice`.

A block is sixteen words in four columns of four. A round mixes the four words of each column, then
of each diagonal; slanting a block turns its diagonals into columns. The words of a block are those
of its start and of its end added up, and the stream is the words of block 0, 1, 2, …
-/

namespace TableParser.ChaCha

/-- A column of four words, from the top. -/
structure Column where
  a : UInt32
  b : UInt32
  c : UInt32
  d : UInt32
  deriving DecidableEq, Repr

/-- Four columns, from the left. -/
structure Block where
  first : Column
  second : Column
  third : Column
  fourth : Column
  deriving DecidableEq, Repr

/-- Turns the bits of a word to the left, those that fall out coming back on the right. -/
def turnLeft (w : UInt32) (n : UInt32) : UInt32 := (w <<< n) ||| (w >>> (32 - n))

namespace Column

/-- Half of a mix: two words are added, two are turned. -/
def halfMix (m n : UInt32) (x : Column) : Column :=
  let a := x.a + x.b
  let d := turnLeft (x.d ^^^ a) m
  let c := x.c + d
  ⟨a, turnLeft (x.b ^^^ c) n, c, d⟩

/-- Mixes the words of a column. -/
def mix (x : Column) : Column := halfMix 8 7 (halfMix 16 12 x)

/-- Adds two columns word by word. -/
def add (x y : Column) : Column := ⟨x.a + y.a, x.b + y.b, x.c + y.c, x.d + y.d⟩

end Column

namespace Block

/-- Mixes every column. -/
def mix (x : Block) : Block := ⟨x.first.mix, x.second.mix, x.third.mix, x.fourth.mix⟩

/-- The block whose columns are the diagonals of this one: row `i` moves `i` places to the left. -/
def slant (x : Block) : Block :=
  ⟨⟨x.first.a, x.second.b, x.third.c, x.fourth.d⟩,
    ⟨x.second.a, x.third.b, x.fourth.c, x.first.d⟩,
    ⟨x.third.a, x.fourth.b, x.first.c, x.second.d⟩,
    ⟨x.fourth.a, x.first.b, x.second.c, x.third.d⟩⟩

/-- The block whose diagonals are the columns of this one. -/
def unslant (x : Block) : Block :=
  ⟨⟨x.first.a, x.fourth.b, x.third.c, x.second.d⟩,
    ⟨x.second.a, x.first.b, x.fourth.c, x.third.d⟩,
    ⟨x.third.a, x.second.b, x.first.c, x.fourth.d⟩,
    ⟨x.fourth.a, x.third.b, x.second.c, x.first.d⟩⟩

/-- Two rounds: one on the columns, one on the diagonals. -/
def twoRounds (x : Block) : Block := x.mix.slant.mix.unslant

/-- Adds two blocks word by word. -/
def add (x y : Block) : Block :=
  ⟨x.first.add y.first, x.second.add y.second, x.third.add y.third, x.fourth.add y.fourth⟩

/-- The words of a block, row by row. -/
def words (x : Block) : List UInt32 :=
  [x.first.a, x.second.a, x.third.a, x.fourth.a, x.first.b, x.second.b, x.third.b, x.fourth.b,
    x.first.c, x.second.c, x.third.c, x.fourth.c, x.first.d, x.second.d, x.third.d, x.fourth.d]

end Block

/-- Eight words that choose a stream. -/
structure Key where
  upper : Vector UInt32 4
  lower : Vector UInt32 4
  deriving DecidableEq, Repr

/-- The block that number `n` of a stream starts from: four fixed words, the key, the number. -/
def start (key : Key) (n : UInt64) : Block :=
  ⟨⟨0x61707865, key.upper[0], key.lower[0], n.toUInt32⟩,
    ⟨0x3320646e, key.upper[1], key.lower[1], (n >>> 32).toUInt32⟩,
    ⟨0x79622d32, key.upper[2], key.lower[2], 0⟩,
    ⟨0x6b206574, key.upper[3], key.lower[3], 0⟩⟩

/-- The sixteen words of block `n` of a stream. -/
def block (key : Key) (n : UInt64) : List UInt32 :=
  let x := start key n
  (x.add (Nat.repeat Block.twoRounds 6 x)).words

/-! ### Keys from a number -/

/-- The state that follows in the sequence that spreads a number over a key. -/
def advance (state : UInt64) : UInt64 := state * 6364136223846793005 + 11634580027462260723

/-- The word of a state: some of its bits, turned to the right by its five uppermost. -/
def wordOf (state : UInt64) : UInt32 :=
  let w := (((state >>> 18) ^^^ state) >>> 27).toUInt32
  let n := (state >>> 59).toUInt32
  (w >>> n) ||| (w <<< (32 - n))

/-- The word `i` of the sequence of a number. -/
def keyWord (seed : UInt64) (i : Nat) : UInt32 := wordOf (Nat.repeat advance (i + 1) seed)

/-- The key of a number. -/
def Key.ofSeed (seed : UInt64) : Key :=
  ⟨.ofFn fun i => keyWord seed i, .ofFn fun i => keyWord seed (i + 4)⟩

end TableParser.ChaCha
