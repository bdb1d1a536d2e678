import TableParser.Sample.ChaCha
/-!
Random draws.

A `Dice` answers two questions: a number below a bound, and yes or no with a given chance. What is
made by drawing takes the dice as an argument, so it can be reasoned about for any answers.
`Words.dice` answers from a stream of 32-bit words: a given list over and over, the upper halves of
a SplitMix64 sequence, or a ChaCha stream. It makes its answers from the words as `rand` does, one
or two words for a number below a bound and two for a chance.
-/

namespace TableParser

/-- A chance, as the number of favourable ones among all 64-bit numbers. -/
structure Chance where
  favourable : Nat
  deriving DecidableEq, Repr

namespace Chance

/-- One in twenty. -/
def twentieth : Chance := ⟨922337203685477632⟩
/-- Eight in a hundred. -/
def eightPercent : Chance := ⟨1475739525896764160⟩
/-- One in five. -/
def fifth : Chance := ⟨3689348814741910528⟩
/-- One in four. -/
def quarter : Chance := ⟨4611686018427387904⟩
/-- Three in ten. -/
def threeTenths : Chance := ⟨5534023222112865280⟩
/-- One in two. -/
def half : Chance := ⟨9223372036854775808⟩

end Chance

/-- A bound with numbers below it. -/
class Bound (n : Nat) : Prop where
  pos : 0 < n

instance (n : Nat) : Bound (n + 1) := ⟨Nat.succ_pos n⟩

/-- A source of answers with a state. -/
structure Dice (σ : Type) where
  below : (n : Nat) → [Bound n] → σ → Fin n × σ
  yes : Chance → σ → Bool × σ

/-! ### Words -/

/-- Where words come from. -/
inductive WordSource where
  /-- A list of words, over and over. -/
  | cycle (words : Array UInt32)
  /-- A SplitMix64 sequence with its state. -/
  | splitMix (state : UInt64)
  /-- A ChaCha stream with what is left of the current block. -/
  | chaCha (key : ChaCha.Key) (left : List UInt32)

/-- A stream of words that counts the words drawn. -/
structure Words where
  source : WordSource
  used : Nat := 0

namespace Words

/-- How many words there are, `2^32`. -/
def wordCount : Nat := 0x100000000

/-- The number of a SplitMix64 state. -/
def mix (state : UInt64) : UInt64 :=
  let z := (state ^^^ (state >>> 30)) * 0xBF58476D1CE4E5B9
  let z := (z ^^^ (z >>> 27)) * 0x94D049BB133111EB
  z ^^^ (z >>> 31)

/-- The next word. -/
def next (w : Words) : Nat × Words :=
  match w.source with
  | .cycle words => ((words[w.used % words.size]?.getD 0).toNat, { w with used := w.used + 1 })
  | .splitMix state =>
    let state := state + 0x9E3779B97F4A7C15
    ((mix state >>> 32).toNat, ⟨.splitMix state, w.used + 1⟩)
  | .chaCha key (word :: left) => (word.toNat, ⟨.chaCha key left, w.used + 1⟩)
  | .chaCha key [] =>
    let words := ChaCha.block key (w.used / 16).toUInt64
    ((words.headD 0).toNat, ⟨.chaCha key words.tail, w.used + 1⟩)

/-- A number below `n`: the upper half of a word times `n`, with a second word to settle the carry
where the lower half leaves it open. -/
def below (n : Nat) [Bound n] (w : Words) : Fin n × Words :=
  let (word, w) := w.next
  let high := word * n / wordCount
  let low := word * n % wordCount
  if low > wordCount - n then
    let (more, w) := w.next
    let carry := if low + more * n / wordCount ≥ wordCount then 1 else 0
    (⟨(high + carry) % n, Nat.mod_lt _ Bound.pos⟩, w)
  else (⟨high % n, Nat.mod_lt _ Bound.pos⟩, w)

/-- Yes or no: whether a 64-bit number, the lower half drawn first, is a favourable one. -/
def yes (c : Chance) (w : Words) : Bool × Words :=
  let (low, w) := w.next
  let (high, w) := w.next
  (low + high * wordCount < c.favourable, w)

/-- The dice of a stream of words. -/
def dice : Dice Words := ⟨fun n => below n, yes⟩

/-- The words of a list, over and over. -/
def ofList (words : List UInt32) : Words := { source := .cycle words.toArray }

/-- The words of a SplitMix64 sequence. -/
def splitMix (seed : UInt64) : Words := { source := .splitMix seed }

/-- The words of the ChaCha stream that a number chooses. -/
def chaCha (seed : UInt64) : Words := { source := .chaCha (.ofSeed seed) [] }

end Words

end TableParser
