import TableParser.Grammar.Tables
import TableParser.Token.Basic
/-!
The scanner: the input cut into tokens.

A scan walks the character automaton as far as it goes and takes the symbol of the state where the
walk stops; it does not go back to an earlier accepting state. A walk that takes nothing takes one
character as an error, so every scan of a non-empty rest makes progress. When the symbol has a block
end, the token goes on to its terminator; without one, the rest of the input is one error token.

Main statements: `lexeme_append_rest` (a cut loses nothing) and `rest_lt` (a cut is never empty).
-/

namespace TableParser

/-! ### One cut -/

/-- A cut of the input: the symbol and text of the first token, and what is left. -/
structure Cut where
  symbol : SymbolId
  lexeme : List Char
  rest : List Char
  deriving DecidableEq

namespace Cut

/-- The cut where the walk of the automaton stops. -/
def munch (t : Tables) (input : List Char) : Cut :=
  let w := t.automaton.walk t.automaton.initial [] input
  match w.2.1 with
  | [] => ⟨t.error, input.take 1, input.drop 1⟩
  | _ :: _ =>
    let symbol := ((t.automaton.state? w.1).bind AutomatonState.accept).getD t.error
    ⟨symbol, w.2.1, w.2.2⟩

/-- Adds the body that a block end delimits; without a terminator all that is left is an error. -/
def extend (t : Tables) (c : Cut) : Cut :=
  if c.symbol = t.error then c
  else
    match t.blockEnd? c.symbol with
    | none => c
    | some b =>
      match b.split c.rest with
      | some (body, rest) => ⟨c.symbol, c.lexeme ++ body, rest⟩
      | none => ⟨t.error, c.lexeme ++ c.rest, []⟩

/-- The first token of an input. -/
def first (t : Tables) (input : List Char) : Cut :=
  (munch t input).extend t

end Cut

theorem Automaton.walk_append (a : Automaton) :
    ∀ (input : List Char) (s : StateId) (taken : List Char),
      (a.walk s taken input).2.1 ++ (a.walk s taken input).2.2 = taken.reverse ++ input
  | [], s, taken => by simp [walk]
  | c :: rest, s, taken => by
    rw [walk]
    split
    · rw [walk_append a rest _ (c :: taken)]
      simp
    · rfl

theorem BlockEnd.find_append {terminator : List Char} {escape : Option Char} :
    ∀ {input before body rest : List Char},
      find terminator escape before input = some (body, rest) →
        body ++ rest = before.reverse ++ input
  | [], _, _, _, h => by simp [find] at h
  | [c], before, body, rest, h => by
    rw [find] at h
    split at h
    · cases h
    · split at h
      · next hp =>
        obtain ⟨tail, ht⟩ := List.isPrefixOf_iff_prefix.1 hp
        simp only [Option.some.injEq, Prod.mk.injEq] at h
        rw [← h.1, ← h.2, ← ht]
        simp
      · simp [find] at h
  | c :: d :: input, before, body, rest, h => by
    rw [find] at h
    split at h
    · rw [find_append h]
      simp
    · split at h
      · next hp =>
        obtain ⟨tail, ht⟩ := List.isPrefixOf_iff_prefix.1 hp
        simp only [Option.some.injEq, Prod.mk.injEq] at h
        rw [← h.1, ← h.2, ← ht]
        simp
      · rw [find_append h]
        simp

namespace Cut

theorem munch_append (t : Tables) (input : List Char) :
    (munch t input).lexeme ++ (munch t input).rest = input := by
  rw [munch]
  dsimp only
  split
  · exact List.take_append_drop 1 input
  · simpa using t.automaton.walk_append input t.automaton.initial []

theorem munch_lexeme_ne_nil (t : Tables) {input : List Char} (h : input ≠ []) :
    (munch t input).lexeme ≠ [] := by
  rw [munch]
  dsimp only
  split
  · simpa using h
  · next hw => simp [hw]

theorem extend_append (t : Tables) (c : Cut) :
    (c.extend t).lexeme ++ (c.extend t).rest = c.lexeme ++ c.rest := by
  rw [extend]
  split
  · rfl
  · split
    · rfl
    · split
      · next hs =>
        have := BlockEnd.find_append hs
        simp only [List.append_assoc, this]
        simp
      · simp

theorem extend_lexeme_ne_nil (t : Tables) {c : Cut} (h : c.lexeme ≠ []) :
    (c.extend t).lexeme ≠ [] := by
  rw [extend]
  split
  · exact h
  · split
    · exact h
    · split <;> simp [h]

/-- A cut loses nothing. -/
theorem lexeme_append_rest (t : Tables) (input : List Char) :
    (first t input).lexeme ++ (first t input).rest = input := by
  rw [first, extend_append, munch_append]

/-- A cut of a non-empty input is never empty. -/
theorem rest_lt (t : Tables) {input : List Char} (h : input ≠ []) :
    (first t input).rest.length < input.length := by
  have hne := extend_lexeme_ne_nil t (munch_lexeme_ne_nil t h)
  have hap := congrArg List.length (lexeme_append_rest t input)
  have hpos := List.length_pos_iff.2 hne
  rw [List.length_append] at hap
  rw [first] at hap ⊢
  omega

end Cut

/-! ### Scanning on -/

/-- A scan in progress: the whole input, what is left of it and where that starts. -/
structure Scanner where
  source : String
  rest : List Char
  position : Position
  deriving DecidableEq, Repr

namespace Scanner

/-- A scan from the start of an input. -/
def ofSource (source : String) : Scanner :=
  ⟨source, source.toList, .start⟩

/-- Whether the whole input has been scanned. -/
def isExhausted (s : Scanner) : Bool := s.rest.isEmpty

/-- The next token; after the input it is the empty end-of-stream token, again and again. -/
def next (t : Tables) (s : Scanner) : Token × Scanner :=
  match s.rest with
  | [] => (⟨t.endOfStream, "", s.position⟩, s)
  | c :: cs =>
    let cut := Cut.first t (c :: cs)
    let text := String.ofList cut.lexeme
    (⟨cut.symbol, text, s.position⟩, ⟨s.source, cut.rest, s.position.after text⟩)

theorem next_rest_lt (t : Tables) {s : Scanner} (h : s.rest ≠ []) :
    (s.next t).2.rest.length < s.rest.length := by
  rw [next]
  split
  · next hs => exact absurd hs h
  · next c cs hs =>
    rw [hs]
    exact Cut.rest_lt t (List.cons_ne_nil c cs)

/-- A token with another symbol than end-of-stream comes from input that was left. -/
theorem rest_ne_nil_of_next (t : Tables) {s : Scanner} (h : (s.next t).1.symbol ≠ t.endOfStream) :
    s.rest ≠ [] := by
  intro hs
  apply h
  rw [next, hs]

end Scanner

end TableParser
