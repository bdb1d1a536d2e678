import TableParser.Proofs.Token.Passing
/-!
The tokens of a source.

Scanning gives tokens until one carries the end-of-stream symbol. Each token starts where the one
before it ends. When the automaton accepts the end of stream nowhere, the stream ends exactly where
the source does, so the texts of its tokens make up the source.

Main statements: `TokenStream.ofSource_chain` (the tokens are consecutive) and
`TokenStream.EndsLast.join_ofSource` (they make up the source).
-/

namespace TableParser

/-! ### Places -/

namespace Position

theorem after_append (p : Position) (a b : String) : p.after (a ++ b) = (p.after a).after b := by
  rw [after, String.toList_append, List.foldl_append]
  rfl

theorem offset_step (p : Position) (c : Char) : (p.step c).offset = p.offset + c.utf8Size := by
  rw [step]
  split <;> rfl

theorem offset_after (p : Position) (text : String) :
    (p.after text).offset = p.offset + text.utf8ByteSize := by
  have h : ∀ (l : List Char) (p : Position),
      (l.foldl step p).offset = p.offset + (String.ofList l).utf8ByteSize := by
    intro l
    induction l with
    | nil => intro p; simp
    | cons c l ih =>
      intro p
      rw [List.foldl_cons, ih, offset_step, String.ofList_cons, String.utf8ByteSize_append,
        String.utf8ByteSize_singleton, Nat.add_assoc]
  rw [after, h, String.ofList_toList]

end Position

/-- Each of some tokens starts where the one before it ends, the first one at `p`, and the last one
ends at `q`. -/
def Token.Chain (p : Position) : List Token → Position → Prop
  | [], q => p = q
  | tok :: later, q => tok.position = p ∧ Token.Chain tok.stop later q

/-- A chain can be cut anywhere. -/
theorem Token.Chain.split {p q : Position} {a b : List Token} (h : Token.Chain p (a ++ b) q) :
    ∃ r, Token.Chain p a r ∧ Token.Chain r b q := by
  induction a generalizing p with
  | nil => exact ⟨p, rfl, h⟩
  | cons tok a ih =>
    obtain ⟨r, hr, hb⟩ := ih h.2
    exact ⟨r, ⟨h.1, hr⟩, hb⟩

/-- A chain of tokens is as long as their texts together. -/
theorem Token.Chain.offset_eq {p q : Position} {ts : List Token} (h : Token.Chain p ts q) :
    q.offset = p.offset + (String.join (ts.map Token.text)).utf8ByteSize := by
  induction ts generalizing p with
  | nil => rw [show p = q from h]; simp
  | cons tok ts ih =>
    rw [ih h.2, Token.stop, h.1, Position.offset_after, List.map_cons, String.join_cons,
      String.utf8ByteSize_append, Nat.add_assoc]

namespace TokenStream

variable {t : Tables}

/-! ### Scanning to the end -/

/-- Scanning goes on until a token ends the stream. -/
theorem scan_induction {motive : Scanner → Prop}
    (last : ∀ s, (s.next t).1.symbol = t.endOfStream → motive s)
    (more : ∀ s, (s.next t).1.symbol ≠ t.endOfStream → motive (s.next t).2 → motive s)
    (s : Scanner) : motive s := by
  induction hn : s.rest.length using Nat.strongRecOn generalizing s with
  | ind n ih =>
    by_cases h : (s.next t).1.symbol = t.endOfStream
    · exact last s h
    · have hlt := Scanner.next_rest_lt t (Scanner.rest_ne_nil_of_next t h)
      exact more s h (ih _ (hn ▸ hlt) _ rfl)

theorem collect_eq (t : Tables) (s : Scanner) : ∀ done : List Token,
    collect t done s = ⟨done.reverse ++ (ofScanner t s).ahead, (ofScanner t s).last⟩ := by
  induction s using scan_induction (t := t) with
  | last s h =>
    intro done
    rw [ofScanner, collect.eq_def, collect.eq_def]
    simp [h]
  | more s h ih =>
    intro done
    rw [ofScanner, collect.eq_def t done, collect.eq_def t []]
    simp [h, ih]

theorem ofScanner_last {s : Scanner} (h : (s.next t).1.symbol = t.endOfStream) :
    ofScanner t s = ⟨[], (s.next t).1⟩ := by
  rw [ofScanner, collect.eq_def]
  simp [h]

theorem ofScanner_more {s : Scanner} (h : (s.next t).1.symbol ≠ t.endOfStream) :
    ofScanner t s =
      ⟨(s.next t).1 :: (ofScanner t (s.next t).2).ahead, (ofScanner t (s.next t).2).last⟩ := by
  rw [ofScanner, collect.eq_def]
  simp [h, collect_eq]

/-- The last token, and no other, has the end-of-stream symbol. -/
theorem symbol_ofScanner (s : Scanner) :
    (ofScanner t s).last.symbol = t.endOfStream ∧
      ∀ tok ∈ (ofScanner t s).ahead, tok.symbol ≠ t.endOfStream := by
  induction s using scan_induction (t := t) with
  | last s h => rw [ofScanner_last h]; exact ⟨h, by simp⟩
  | more s h ih =>
    rw [ofScanner_more h]
    exact ⟨ih.1, by simpa using ⟨h, ih.2⟩⟩

/-- What holds of the first token of every rest of the input holds of every token. -/
theorem forall_ofScanner {p : Token → Prop} (hp : ∀ s : Scanner, s.rest ≠ [] → p (s.next t).1)
    (s : Scanner) : ∀ tok ∈ (ofScanner t s).ahead, p tok := by
  induction s using scan_induction (t := t) with
  | last s h => rw [ofScanner_last h]; simp
  | more s h ih =>
    rw [ofScanner_more h]
    simpa using ⟨hp s (Scanner.rest_ne_nil_of_next t h), ih⟩

end TokenStream

namespace Scanner

variable {t : Tables}

/-- A token starts where the scan is and takes its text off the rest. -/
theorem next_eq (t : Tables) (s : Scanner) :
    (s.next t).1.position = s.position ∧ (s.next t).2.position = (s.next t).1.stop ∧
      (s.next t).1.text ++ String.ofList (s.next t).2.rest = String.ofList s.rest := by
  rw [next]
  split
  · next h => exact ⟨rfl, rfl, by simp [h]⟩
  · next c cs h =>
    dsimp only [Token.stop]
    refine ⟨rfl, rfl, ?_⟩
    rw [← String.ofList_append, Cut.lexeme_append_rest, h]

/-- A token has the error symbol or one that the automaton accepts. -/
theorem symbol_first (t : Tables) (input : List Char) :
    (Cut.first t input).symbol = t.error ∨
      ∃ st ∈ t.automaton.states, st.accept = some (Cut.first t input).symbol := by
  have hmunch : (Cut.munch t input).symbol = t.error ∨
      ∃ st ∈ t.automaton.states, st.accept = some (Cut.munch t input).symbol := by
    rw [Cut.munch]
    dsimp only
    split
    · exact .inl rfl
    · cases h : (t.automaton.state? (t.automaton.walk t.automaton.initial [] input).1).bind
        AutomatonState.accept with
      | none => exact .inl rfl
      | some a =>
        obtain ⟨st, hst, ha⟩ := Option.bind_eq_some_iff.1 h
        exact .inr ⟨st, Array.mem_of_getElem? hst, ha⟩
  rw [Cut.first, Cut.extend]
  split
  · exact hmunch
  · split
    · exact hmunch
    · split
      · exact hmunch
      · exact .inl rfl

theorem symbol_next {s : Scanner} (h : s.rest ≠ []) :
    (s.next t).1.symbol = t.error ∨
      ∃ st ∈ t.automaton.states, st.accept = some (s.next t).1.symbol := by
  rw [next]
  split
  · next hs => exact absurd hs h
  · exact symbol_first t _

end Scanner

namespace TokenStream

variable {t : Tables}

/-! ### The source in tokens -/

/-- The tokens of a scan are consecutive. -/
theorem chain_ofScanner (s : Scanner) :
    Token.Chain s.position (ofScanner t s).ahead (ofScanner t s).last.position := by
  induction s using scan_induction (t := t) with
  | last s h => rw [ofScanner_last h]; exact (s.next_eq t).1.symm
  | more s h ih =>
    rw [ofScanner_more h]
    obtain ⟨hp, hq, -⟩ := s.next_eq t
    exact ⟨hp, hq ▸ ih⟩

/-- The tokens of a source are consecutive from its start. -/
theorem ofSource_chain (t : Tables) (source : String) :
    Token.Chain .start (ofSource t source).ahead (ofSource t source).last.position :=
  chain_ofScanner (.ofSource source)

/-- The token at hand starts where the tokens before it end. -/
theorem position_current {s : TokenStream} {p : Position}
    (h : Token.Chain p s.ahead s.last.position) : s.current.position = p := by
  cases hahead : s.ahead with
  | nil =>
    rw [hahead] at h
    rw [current_of_nil hahead]
    exact h.symm
  | cons tok later =>
    rw [hahead] at h
    rw [current_of_cons hahead]
    exact h.1

/-- Tables that report the end of the stream only after the input. -/
def EndsLast (t : Tables) : Prop :=
  t.error ≠ t.endOfStream ∧ ∀ st ∈ t.automaton.states, st.accept ≠ some t.endOfStream

theorem EndsLast.symbol_ne (h : EndsLast t) {s : Scanner} (hs : s.rest ≠ []) :
    (s.next t).1.symbol ≠ t.endOfStream := by
  rcases Scanner.symbol_next (t := t) hs with he | ⟨st, hst, ha⟩
  · rw [he]; exact h.1
  · intro heq
    exact h.2 st hst (heq ▸ ha)

/-- The tokens of a scan make up what was left, and the last one is empty. -/
theorem EndsLast.join_ofScanner (h : EndsLast t) (s : Scanner) :
    (ofScanner t s).last.text = "" ∧
      String.join ((ofScanner t s).ahead.map Token.text) = String.ofList s.rest := by
  induction s using scan_induction (t := t) with
  | last s hs =>
    have hnil : s.rest = [] := Decidable.byContradiction fun hne => h.symbol_ne hne hs
    rw [ofScanner_last hs, Scanner.next, hnil]
    exact ⟨rfl, by simp⟩
  | more s hs ih =>
    rw [ofScanner_more hs]
    refine ⟨ih.1, ?_⟩
    rw [List.map_cons, String.join_cons, ih.2, (s.next_eq t).2.2]

/-- The tokens of a source make it up, and the last one is empty. -/
theorem EndsLast.join_ofSource (h : EndsLast t) (source : String) :
    (ofSource t source).last.text = "" ∧
      String.join ((ofSource t source).ahead.map Token.text) = source := by
  have := h.join_ofScanner (.ofSource source)
  rwa [Scanner.ofSource, String.ofList_toList] at this

end TokenStream

end TableParser
