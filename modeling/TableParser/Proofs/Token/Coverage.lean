import TableParser.Proofs.Grammar.Consistency
import TableParser.Proofs.Token.Source
/-!
Scanning covers the source.

Whatever the automaton accepts, a call of the scanner takes a piece off the front of what is left,
and nothing is left after at most as many calls as the source has characters. So the tokens are
slices of the source, one after the other, and a position is what counting newlines, characters and
bytes before it gives (`Position.counted`). After the end every call gives the same empty token.

A token stream is cut off earlier: at the first token that has the end-of-stream symbol. It covers
the source only if the scanner never gives this symbol to a piece of the input, and nothing that is
checked on loading forbids that an automaton state accepts it (`blankEnd`).

Main statements: `Scanner.next_covers` and `TokenStream.covers_iff`.
-/

namespace TableParser

/-! ### Places by counting -/

namespace Position

/-- The place after a text, by counting: one more line than there are newlines, one more column than
there are characters after the last newline, and all bytes. -/
def counted (before : String) : Position where
  line := before.toList.count '\n' + 1
  column := (before.toList.reverse.takeWhile (· ≠ '\n')).length + 1
  offset := before.utf8ByteSize

/-- A character counts for one line or one column. -/
theorem step_counted (l : List Char) (c : Char) :
    (counted (String.ofList l)).step c = counted (String.ofList (l ++ [c])) := by
  have hsize : (String.ofList (l ++ [c])).utf8ByteSize =
      (String.ofList l).utf8ByteSize + c.utf8Size := by
    rw [String.ofList_append, String.utf8ByteSize_append, ← String.singleton_eq_ofList,
      String.utf8ByteSize_singleton]
  rw [step, counted, counted, hsize]
  by_cases hc : c = '\n'
  · simp [hc]
  · simp [hc]

/-- Stepping over a text from the start of the source comes to the place that counting gives. -/
theorem after_start (text : String) : start.after text = counted text := by
  have h : ∀ l : List Char, l.reverse.foldl step start = counted (String.ofList l.reverse) := by
    intro l
    induction l with
    | nil => rfl
    | cons c l ih => rw [List.reverse_cons, List.foldl_append, ih, ← step_counted]; rfl
  rw [after, ← List.reverse_reverse text.toList, h, List.reverse_reverse, String.ofList_toList]

end Position

namespace Token

/-- A token is the piece of a source that stands at its place: a slice of the bytes between the ends
of two characters. -/
structure IsSlice (source : String) (tok : Token) : Prop where
  start : String.Pos.Raw.IsValid source ⟨tok.position.offset⟩
  stop : String.Pos.Raw.IsValid source ⟨tok.position.offset + tok.length⟩
  bytes : source.toByteArray.extract tok.position.offset (tok.position.offset + tok.length) =
    tok.text.toByteArray

theorem isSlice_of_append {source before after : String} {tok : Token}
    (hsource : before ++ tok.text ++ after = source)
    (hoffset : tok.position.offset = before.utf8ByteSize) :
    tok.IsSlice source := by
  subst hsource
  constructor
  · exact String.Pos.Raw.isValid_iff_exists_append.2
      ⟨before, tok.text ++ after, String.append_assoc .., by rw [hoffset]; rfl⟩
  · refine String.Pos.Raw.isValid_iff_exists_append.2 ⟨before ++ tok.text, after, rfl, ?_⟩
    rw [hoffset, length, String.rawEndPos, String.utf8ByteSize_append]
  · rw [hoffset, length, String.toByteArray_append, String.toByteArray_append,
      ← String.size_toByteArray, ← String.size_toByteArray, ← ByteArray.size_append,
      ByteArray.extract_append_size_left]
    exact ByteArray.extract_append_eq_right rfl ByteArray.size_append

/-- A chain of tokens ends where its texts end. -/
theorem Chain.eq_after {p q : Position} {ts : List Token} (h : Chain p ts q) :
    q = p.after (String.join (ts.map text)) := by
  induction ts generalizing p with
  | nil => rw [← show p = q from h]; rfl
  | cons tok ts ih => rw [ih h.2, stop, h.1, List.map_cons, String.join_cons, Position.after_append]

end Token

namespace Scanner

variable {t : Tables} {s : Scanner}

/-! ### Calls in a row -/

/-- The tokens of some calls in a row. -/
def scanned (t : Tables) : Nat → Scanner → List Token
  | 0, _ => []
  | n + 1, s => (s.next t).1 :: scanned t n (s.next t).2

/-- The scanner after some calls in a row. -/
def after (t : Tables) : Nat → Scanner → Scanner
  | 0, s => s
  | n + 1, s => after t n (s.next t).2

/-- After the input a call gives the empty end-of-stream token and changes nothing. -/
theorem next_of_nil (h : s.rest = []) : s.next t = (⟨t.endOfStream, "", s.position⟩, s) := by
  rw [next, h]

/-- A piece of the input is never empty. -/
theorem text_next_ne (h : s.rest ≠ []) : (s.next t).1.text ≠ "" := by
  rw [next]
  split
  · next hs => exact absurd hs h
  · next c cs hs =>
    intro hempty
    have hlexeme := Cut.extend_lexeme_ne_nil t (Cut.munch_lexeme_ne_nil t (List.cons_ne_nil c cs))
    exact hlexeme (String.ofList_eq_empty_iff.1 hempty)

theorem after_of_nil (h : s.rest = []) (n : Nat) : s.after t n = s := by
  induction n with
  | zero => rfl
  | succ n ih => rw [after, next_of_nil h, ih]

theorem after_add (n m : Nat) : ∀ s : Scanner, s.after t (n + m) = (s.after t n).after t m := by
  induction n with
  | zero => intro s; rw [Nat.zero_add]; rfl
  | succ n ih => intro s; rw [Nat.succ_add]; exact ih (s.next t).2

/-- Once the input is used up the scanner stays as it is. -/
theorem after_of_le {k n : Nat} (hend : (s.after t n).rest = []) (h : n ≤ k) :
    s.after t k = s.after t n := by
  obtain ⟨m, rfl⟩ := Nat.exists_eq_add_of_le h
  rw [after_add, after_of_nil hend]

theorem mem_scanned {k n : Nat} (h : k < n) : ((s.after t k).next t).1 ∈ s.scanned t n := by
  induction n generalizing k s with
  | zero => exact absurd h (Nat.not_lt_zero k)
  | succ n ih =>
    cases k with
    | zero => exact List.mem_cons_self
    | succ k => exact List.mem_cons_of_mem _ (ih (Nat.lt_of_succ_lt_succ h))

/-- Calls in a row are consecutive. -/
theorem chain_scanned (n : Nat) : ∀ s : Scanner,
    Token.Chain s.position (s.scanned t n) (s.after t n).position := by
  induction n with
  | zero => intro s; rfl
  | succ n ih =>
    intro s
    obtain ⟨hstart, hstop, -⟩ := s.next_eq t
    exact ⟨hstart, hstop ▸ ih (s.next t).2⟩

/-- Calls in a row take their texts off the rest. -/
theorem join_scanned (n : Nat) : ∀ s : Scanner,
    String.join ((s.scanned t n).map Token.text) ++ String.ofList (s.after t n).rest =
      String.ofList s.rest := by
  induction n with
  | zero => intro s; exact String.empty_append
  | succ n ih =>
    intro s
    obtain ⟨-, -, htext⟩ := s.next_eq t
    rw [scanned, after, List.map_cons, String.join_cons, String.append_assoc, ih, htext]

/-- The scan comes to the end of the input after at most as many calls as it has characters left,
and all these calls give tokens with some text. -/
theorem exists_exhausted (t : Tables) (s : Scanner) : ∃ n ≤ s.rest.length, (s.after t n).rest = [] ∧
    (∀ k < n, (s.after t k).rest ≠ []) ∧ ∀ tok ∈ s.scanned t n, tok.text ≠ "" := by
  induction hlength : s.rest.length using Nat.strongRecOn generalizing s with
  | ind length ih =>
    by_cases hs : s.rest = []
    · exact ⟨0, Nat.zero_le _, hs, by omega, by simp [scanned]⟩
    · have hlt := next_rest_lt t hs
      obtain ⟨n, hn, hend, hbefore, htext⟩ := ih _ (hlength ▸ hlt) (s.next t).2 rfl
      refine ⟨n + 1, by omega, hend, fun k hk => ?_, ?_⟩
      · cases k with
        | zero => exact hs
        | succ k => exact hbefore k (by omega)
      · rw [scanned, List.forall_mem_cons]
        exact ⟨text_next_ne hs, htext⟩

/-- For any tables and any source, calling the scanner until its input is used up takes at most as
many calls as there are characters. The tokens have some text each, are slices of the source one
after the other, and make it up; each of them stands where counting what is before it says. Every
later call gives the empty end-of-stream token at the end of the source and leaves the scanner as it
is. -/
theorem next_covers (t : Tables) (source : String) : ∃ n ≤ source.length,
    (∀ k, ((ofSource source).after t k).isExhausted = true ↔ n ≤ k) ∧
    (∀ tok ∈ (ofSource source).scanned t n, tok.text ≠ "") ∧
    String.join (((ofSource source).scanned t n).map Token.text) = source ∧
    (∀ before tok later, (ofSource source).scanned t n = before ++ tok :: later →
      tok.IsSlice source ∧ tok.position = .counted (String.join (before.map Token.text))) ∧
    ∀ k, n ≤ k → ((ofSource source).after t k).next t =
      (⟨t.endOfStream, "", .counted source⟩, (ofSource source).after t k) := by
  obtain ⟨n, hn, hend, hbefore, htext⟩ := exists_exhausted t (ofSource source)
  have hjoin := join_scanned (t := t) n (ofSource source)
  rw [hend, String.ofList_nil, String.append_empty, ofSource, String.ofList_toList,
    ← ofSource] at hjoin
  have hchain := chain_scanned (t := t) n (ofSource source)
  refine ⟨n, hn, fun k => ?_, htext, hjoin, fun before tok later hsplit => ?_, fun k hk => ?_⟩
  · rw [isExhausted, List.isEmpty_iff]
    constructor
    · intro hk
      exact Nat.le_of_not_lt fun hlt => hbefore k hlt hk
    · intro hk
      rw [after_of_le hend hk, hend]
  · rw [hsplit] at hchain hjoin
    obtain ⟨place, hbegin, hplace, -⟩ := hchain.split
    have hposition : tok.position = .counted (String.join (before.map Token.text)) := by
      rw [hplace, hbegin.eq_after]
      exact Position.after_start _
    rw [List.map_append, String.join_append, List.map_cons, String.join_cons,
      ← String.append_assoc] at hjoin
    exact ⟨Token.isSlice_of_append hjoin (by rw [hposition]; rfl), hposition⟩
  · rw [after_of_le hend hk, next_of_nil hend, hchain.eq_after, hjoin]
    rw [show (ofSource source).position = .start from rfl, Position.after_start]

end Scanner

namespace TokenStream

variable {a : Asset} {t : Tables} {s : Scanner} {source : String}

/-! ### Cut off at the end -/

/-- Some tokens cover a source: their texts make it up, and the last one, and no other, has the
end-of-stream symbol and no text. -/
structure Covers (t : Tables) (source : String) (tokens : List Token) : Prop where
  join : String.join (tokens.map Token.text) = source
  last : ∃ before tok, tokens = before ++ [tok] ∧ tok.symbol = t.endOfStream ∧ tok.text = "" ∧
    ∀ other ∈ before, other.symbol ≠ t.endOfStream

/-- No call that still has input gives the end-of-stream symbol. -/
def NeverEarly (t : Tables) (s : Scanner) : Prop :=
  ∀ k, (s.after t k).rest ≠ [] → ((s.after t k).next t).1.symbol ≠ t.endOfStream

/-- A stream holds the tokens of some calls in a row and the token of the call after them. -/
theorem exists_calls (t : Tables) (s : Scanner) : ∃ n, (ofScanner t s).ahead = s.scanned t n ∧
    (ofScanner t s).last = ((s.after t n).next t).1 := by
  induction s using scan_induction (t := t) with
  | last s h => rw [ofScanner_last h]; exact ⟨0, rfl, rfl⟩
  | more s h ih =>
    obtain ⟨n, hahead, hlast⟩ := ih
    rw [ofScanner_more h]
    exact ⟨n + 1, congrArg _ hahead, hlast⟩

/-- The tokens of a stream take their texts off the rest, up to the cut. -/
theorem exists_left (t : Tables) (s : Scanner) : ∃ left,
    String.join ((ofScanner t s).tokens.map Token.text) ++ left = String.ofList s.rest := by
  obtain ⟨n, hahead, hlast⟩ := exists_calls t s
  refine ⟨String.ofList ((s.after t n).next t).2.rest, ?_⟩
  obtain ⟨-, -, htext⟩ := (s.after t n).next_eq t
  rw [tokens, hahead, hlast, List.map_append, String.join_append, List.map_singleton,
    String.join_cons, String.join_nil, String.append_empty, String.append_assoc, htext,
    Scanner.join_scanned]

/-- A stream whose last token has no text is never cut off early. -/
theorem neverEarly_of_text (h : (ofScanner t s).last.text = "") : NeverEarly t s := by
  obtain ⟨n, hahead, hlast⟩ := exists_calls t s
  have hend : (s.after t n).rest = [] := by
    refine Decidable.byContradiction fun hrest => Scanner.text_next_ne (t := t) hrest ?_
    rw [← hlast, h]
  intro k hk
  have hlt : k < n := by
    refine Nat.lt_of_not_le fun hle => hk ?_
    rw [Scanner.after_of_le hend hle, hend]
  refine (symbol_ofScanner s).2 _ ?_
  rw [hahead]
  exact Scanner.mem_scanned hlt

/-- A stream that is never cut off early goes on to the end of the input. -/
theorem join_of_neverEarly (h : NeverEarly t s) : (ofScanner t s).last.text = "" ∧
    String.join ((ofScanner t s).ahead.map Token.text) = String.ofList s.rest := by
  obtain ⟨n, hahead, hlast⟩ := exists_calls t s
  have hend : (s.after t n).rest = [] := by
    refine Decidable.byContradiction fun hrest => h n hrest ?_
    rw [← hlast, (symbol_ofScanner s).1]
  have hjoin := Scanner.join_scanned (t := t) n s
  rw [hend, String.ofList_nil, String.append_empty] at hjoin
  rw [hlast, Scanner.next_of_nil hend, hahead]
  exact ⟨rfl, hjoin⟩

/-- The tokens of a source cover it exactly when no call gives the end-of-stream symbol before the
end. -/
theorem covers_iff_neverEarly :
    Covers t source (tokenize t source) ↔ NeverEarly t (.ofSource source) := by
  have hends := symbol_ofScanner (t := t) (.ofSource source)
  rw [tokenize, ofSource, tokens]
  constructor
  · rintro ⟨-, before, tok, hsplit, -, htext, -⟩
    obtain ⟨-, htok⟩ := List.append_inj' hsplit rfl
    rw [← List.singleton_inj.1 htok] at htext
    exact neverEarly_of_text htext
  · intro h
    obtain ⟨htext, hjoin⟩ := join_of_neverEarly h
    refine ⟨?_, _, _, rfl, hends.1, htext, hends.2⟩
    rw [List.map_append, String.join_append, hjoin, List.map_singleton, htext, String.join_cons,
      String.join_nil, String.append_empty, String.append_empty]
    exact String.ofList_toList

/-- For any grammar that loads, the tokens of a source cover it exactly when no call of the scanner
gives the end-of-stream symbol before the end of the source. That is so for every source if no state
of the automaton accepts this symbol. Anyhow exactly one token has it, the last one, and the tokens
make up the source up to where it ends. -/
theorem covers_iff (hload : a.load = .ok t) :
    (∀ source, Covers t source (tokenize t source) ↔ NeverEarly t (.ofSource source)) ∧
    ((∀ st ∈ t.automaton.states, st.accept ≠ some t.endOfStream) →
      ∀ source, Covers t source (tokenize t source)) ∧
    ∀ source, ∃ before tok left, tokenize t source = before ++ [tok] ∧ tok.symbol = t.endOfStream ∧
      (∀ other ∈ before, other.symbol ≠ t.endOfStream) ∧
      String.join ((tokenize t source).map Token.text) ++ left = source := by
  refine ⟨fun source => covers_iff_neverEarly, fun haccept source => ?_, fun source => ?_⟩
  · have hends : EndsLast t := ⟨Tables.error_ne_endOfStream (Asset.check_of_load hload), haccept⟩
    exact covers_iff_neverEarly.2 fun k hk => hends.symbol_ne hk
  · obtain ⟨left, hleft⟩ := exists_left t (.ofSource source)
    obtain ⟨hlast, hahead⟩ := symbol_ofScanner (t := t) (.ofSource source)
    exact ⟨_, _, left, rfl, hlast, hahead, hleft.trans String.ofList_toList⟩

end TokenStream

/-- A document of the settings language with a stray character is covered. -/
theorem Script.covers_stray :
    TokenStream.Covers tables "a = ? \x7b" (tokenize tables "a = ? \x7b") := by
  have hstates : ∀ st ∈ states, st.accept ≠ some eof := by decide
  exact (TokenStream.covers_iff load_asset).2.1
    (fun st hst => hstates st (List.mem_toArray.1 hst)) _

/-! ### Blanks that end the stream -/

/-- Words and blanks, where the automaton accepts the end of the stream for a blank. -/
def blankEnd : Asset where
  format := Asset.formatName
  version := Asset.formatVersion
  name := "words"
  start := ⟨0⟩
  endOfStream := ⟨1⟩
  error := ⟨2⟩
  symbols :=
    [{ name := "Words", kind := .nonTerminal },
     { name := "End", kind := .endOfStream },
     { name := "Stray", kind := .error },
     { name := "Word", kind := .terminal }]
  rules := [⟨⟨0⟩, [⟨3⟩]⟩]
  automaton :=
    ⟨0, #[{ edges := [⟨[('a', 'z')], 1⟩, ⟨[(' ', ' ')], 2⟩] }, { accept := some ⟨3⟩ },
      { accept := some ⟨1⟩ }]⟩

theorem load_blankEnd : blankEnd.load = .ok blankEnd.tables := by
  have hnames : (blankEnd.symbols.map GrammarSymbol.name).Nodup := by decide
  refine Asset.load_eq_ok.2 ⟨rfl, ?_, Script.eq_ok_of_isOk (by decide), rfl⟩
  rw [Asset.checkShape, bind_unit_eq_ok]
  exact ⟨Asset.checkSymbols_eq_ok.2 ⟨by decide, hnames⟩, Script.eq_ok_of_isOk (by decide)⟩

theorem tokenize_blankEnd :
    tokenize blankEnd.tables "a b" = [⟨⟨3⟩, "a", .start⟩, ⟨⟨1⟩, " ", ⟨1, 2, 1⟩⟩] := by
  have hword : Scanner.next blankEnd.tables (.ofSource "a b") =
      (⟨⟨3⟩, "a", .start⟩, ⟨"a b", [' ', 'b'], ⟨1, 2, 1⟩⟩) := rfl
  have hblank : Scanner.next blankEnd.tables ⟨"a b", [' ', 'b'], ⟨1, 2, 1⟩⟩ =
      (⟨⟨1⟩, " ", ⟨1, 2, 1⟩⟩, ⟨"a b", ['b'], ⟨1, 3, 2⟩⟩) := rfl
  rw [tokenize, TokenStream.ofSource, TokenStream.ofScanner_more (by rw [hword]; decide), hword,
    TokenStream.ofScanner_last (by rw [hblank]; rfl), hblank]
  rfl

/-- The grammar loads, and of `a b` its tokens leave the second word out. -/
theorem blankEnd_not_covers : blankEnd.load = .ok blankEnd.tables ∧
    tokenize blankEnd.tables "a b" = [⟨⟨3⟩, "a", .start⟩, ⟨⟨1⟩, " ", ⟨1, 2, 1⟩⟩] ∧
    ¬ TokenStream.Covers blankEnd.tables "a b" (tokenize blankEnd.tables "a b") := by
  refine ⟨load_blankEnd, tokenize_blankEnd, fun h => ?_⟩
  have hjoin := h.join
  rw [tokenize_blankEnd] at hjoin
  exact absurd hjoin (by decide)

end TableParser
