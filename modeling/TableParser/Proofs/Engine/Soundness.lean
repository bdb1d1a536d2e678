import TableParser.Proofs.Engine.Moves
import TableParser.Proofs.Engine.Reading
import TableParser.Proofs.Engine.StackPath
import TableParser.Proofs.Grammar.Derivation
/-!
What is read without an error is a sentence.

Both engines keep a derivation. The predictive engine derives, from the start symbol, the tokens
passed so far and then what is still to come. The shift-reduce engine derives the tokens passed so
far from the symbols that its stack spells. As long as no error is reported each step keeps the
derivation, and at the end of the document it is one of the whole input from the start symbol.

Main statement: `Engine.derives_of_endsAfter`.
-/

namespace TableParser

/-! ### The predictive engine -/

namespace Predictive

/-- The symbols that are still to come. -/
def symbols : List Pending → List SymbolId
  | [] => []
  | .symbol s :: below => s :: symbols below
  | .close _ :: below => symbols below

theorem symbols_append (a b : List Pending) : symbols (a ++ b) = symbols a ++ symbols b := by
  induction a with
  | nil => rfl
  | cons p a ih => cases p <;> simp [symbols, ih]

theorem symbols_body {t : Tables} {rule : RuleId} {r : Rule} (known : t.rule? rule = some r) :
    symbols (body t rule) = r.rhs := by
  rw [body, known, Option.elim_some]
  induction r.rhs with
  | nil => rfl
  | cons s rhs ih => rw [List.map_cons, symbols, ih]

/-- A table that predicts rules of the non-terminal they are predicted for, in a grammar where the
end of the stream stands in no rule. -/
structure Consistent (t : Tables) (table : PredictionTable) : Prop where
  rule : ∀ {s a rule}, table.get? s a = some rule → ∃ r, t.rule? rule = some r ∧ r.lhs = s
  start : t.start ≠ t.endOfStream
  rhs : ∀ {rule r}, t.rule? rule = some r → t.endOfStream ∉ r.rhs

/-- The engine is in the middle of a derivation of a word, whose first part it has passed. -/
structure Tracks (t : Tables) (word : List SymbolId) (m : Predictive) : Prop where
  derives : ∃ passed, word = passed ++ m.input.word t ∧
    t.Derives [t.start] (passed ++ symbols m.stack)
  last : m.input.last.symbol = t.endOfStream
  finished : m.finished = true → m.stack = [] ∧ m.input.ahead = []

variable {t : Tables} {table : PredictionTable} {word : List SymbolId} {m : Predictive}

/-- A step without an error keeps the derivation. -/
theorem tracks_step (consistent : Consistent t table) (showHidden : Bool) (h : Tracks t word m)
    (hok : (m.step t table showHidden).1.error? = none) :
    Tracks t word (m.step t table showHidden).2 := by
  obtain ⟨e, m', hstep, hmoves⟩ := exists_moves t table showHidden m
  rw [hstep] at hok ⊢
  obtain ⟨⟨passed, hword, hderives⟩, hlast, hfinished⟩ := h
  cases hmoves with
  | rest => exact ⟨⟨passed, hword, hderives⟩, hlast, hfinished⟩
  | close running top =>
    rw [top] at hderives
    exact ⟨⟨passed, hword, hderives⟩, hlast, by simp [running]⟩
  | hidden running _ next =>
    obtain ⟨-, hhidden, hpass⟩ := TokenStream.nextHidden_some next
    refine ⟨⟨passed, ?_, hderives⟩, hpass.2 ▸ hlast, by simp [running]⟩
    rw [hword, hpass.word_eq (by simpa using hhidden)]
  | expand running top next _ predicted =>
    obtain ⟨r, known, rfl⟩ := consistent.rule predicted
    refine ⟨⟨passed, ?_, ?_⟩, TokenStream.last_of_nextHidden next ▸ hlast, by simp [running]⟩
    · rw [hword, TokenStream.word_of_nextHidden next]
    · rw [top] at hderives
      rw [symbols_append, symbols_body known, symbols, ← List.append_assoc]
      exact hderives.extend known
  | @take s below input running top next _ same =>
    obtain ⟨_, hpass, -, -, hvisible⟩ := TokenStream.nextHidden_none next
    rw [top, symbols] at hderives
    cases hahead : input.ahead with
    | nil =>
      -- the end of the stream is in no derivation, so it is never matched
      rw [TokenStream.current_of_nextHidden next hahead, hlast] at same
      have hnot := hderives.not_mem consistent.rhs (by simpa using Ne.symm consistent.start)
      exact absurd (by simp [same]) hnot
    | cons tok later =>
      have htok : tok.symbol = s := by rw [← same, TokenStream.current_of_cons hahead]
      refine ⟨⟨passed ++ [s], ?_, by simpa using hderives⟩, hpass.2 ▸ hlast, by simp [running]⟩
      rw [hword, ← TokenStream.word_of_nextHidden next,
        TokenStream.word_of_cons hahead (hvisible tok later hahead), htok, List.append_assoc]
      rfl
  | skip | leftOver => cases hok
  | finish running top next empty =>
    refine ⟨⟨passed, ?_, hderives⟩, TokenStream.last_of_nextHidden next ▸ hlast,
      fun _ => ⟨top, TokenStream.atEnd_iff.1 empty⟩⟩
    rw [hword, TokenStream.word_of_nextHidden next]

/-- At the end of the document the start symbol derives the word. -/
theorem derives_of_endDocument {showHidden : Bool} (h : Tracks t word (m.step t table showHidden).2)
    (hend : (m.step t table showHidden).1 = .endDocument) : t.Derives [t.start] word := by
  obtain ⟨e, m', hstep, hmoves⟩ := exists_moves t table showHidden m
  rw [hstep] at h hend
  have hdone : m'.finished = true := by
    cases hmoves with
    | rest done => exact done
    | finish => rfl
    | close | hidden | expand | take | skip | leftOver => cases hend
  obtain ⟨passed, hword, hderives⟩ := h.derives
  obtain ⟨hstack, hahead⟩ := h.finished hdone
  rw [hstack, symbols, List.append_nil] at hderives
  rwa [hword, TokenStream.word_of_nil hahead, List.append_nil]

end Predictive

/-! ### The shift-reduce engine -/

namespace ShiftReduce

open ShiftReduceTable

/-- A closed table that accepts the start symbol alone and never shifts the end of the stream. -/
structure Consistent (t : Tables) (table : ShiftReduceTable) (es : List Arc) : Prop where
  closed : Closed t table es
  accept : ∀ {s a xs below}, table.action? s a = some .accept → table.Spells xs (s :: below) →
    xs = [t.start]
  shift : ∀ {s a target}, table.action? s a = some (.shift target) → a ≠ t.endOfStream

/-- The engine is in the middle of a derivation of a word: the symbols on its stack derive the part
of the word that it has passed. -/
structure Tracks (t : Tables) (table : ShiftReduceTable) (word : List SymbolId) (m : ShiftReduce) :
    Prop where
  derives : ∃ xs passed, table.Spells xs m.states ∧ word = passed ++ m.input.word t ∧
    t.Derives xs.reverse passed
  last : m.input.last.symbol = t.endOfStream
  halted : m.phase ≠ .running → t.Derives [t.start] word

variable {t : Tables} {table : ShiftReduceTable} {es : List Arc} {word : List SymbolId}
  {m : ShiftReduce}

/-- A step without an error keeps the derivation. -/
theorem tracks_step (consistent : Consistent t table es) (showHidden : Bool)
    (h : Tracks t table word m) (hok : (m.step t table showHidden).1.error? = none) :
    Tracks t table word (m.step t table showHidden).2 := by
  obtain ⟨e, m', hstep, hmoves⟩ := exists_moves t table showHidden m
  rw [hstep] at hok ⊢
  obtain ⟨⟨xs, passed, hspells, hword, hderives⟩, hlast, hhalted⟩ := h
  cases hmoves with
  | rest halted => exact ⟨⟨xs, passed, hspells, hword, hderives⟩, hlast, fun _ => hhalted halted⟩
  | hidden running next =>
    obtain ⟨-, hhidden, hpass⟩ := TokenStream.nextHidden_some next
    refine ⟨⟨xs, passed, hspells, ?_, hderives⟩, hpass.2 ▸ hlast, by simp [running]⟩
    rw [hword, hpass.word_eq (by simpa using hhidden)]
  | @shift input target running next action =>
    obtain ⟨_, hpass, -, -, hvisible⟩ := TokenStream.nextHidden_none next
    cases hahead : input.ahead with
    | nil =>
      rw [TokenStream.current_of_nextHidden next hahead, hlast] at action
      exact absurd rfl (consistent.shift action)
    | cons tok later =>
      rw [TokenStream.current_of_cons hahead] at action
      refine ⟨⟨tok.symbol :: xs, passed ++ [tok.symbol], spells_shift hspells action, ?_, ?_⟩,
        hpass.2 ▸ hlast, by simp [running]⟩
      · rw [hword, ← TokenStream.word_of_nextHidden next,
          TokenStream.word_of_cons hahead (hvisible tok later hahead), List.append_assoc]
        rfl
      · rw [List.reverse_cons]
        exact hderives.append_right tok.symbol
  | @reduce input rule r s target below running next action known exposed goes =>
    obtain ⟨-, hbelow⟩ := hspells.exposed exposed
    obtain ⟨rest, hm⟩ := exists_below hspells
    rw [hm] at hspells
    have htake := consistent.closed.take_eq_rhs hspells action known
    refine ⟨⟨r.lhs :: xs.drop r.rhs.length, passed, hbelow.move (.inr goes), ?_, ?_⟩,
      TokenStream.last_of_nextHidden next ▸ hlast, by simp [running]⟩
    · rw [hword, TokenStream.word_of_nextHidden next]
    · -- the right side on top of the stack is what the left side derives
      have hsplit : xs.reverse = (xs.drop r.rhs.length).reverse ++ r.rhs ++ [] := calc
        xs.reverse = (xs.take r.rhs.length ++ xs.drop r.rhs.length).reverse := by
          rw [List.take_append_drop]
        _ = (xs.drop r.rhs.length).reverse ++ (xs.take r.rhs.length).reverse := List.reverse_append
        _ = _ := by rw [htake, List.reverse_reverse, List.append_nil]
      rw [hsplit] at hderives
      rw [List.reverse_cons]
      exact hderives.rewrite known
  | giveUp | skip => cases hok
  | @accept input running next action empty =>
    have hend : m.input.word t = [] := by
      rw [← TokenStream.word_of_nextHidden next,
        TokenStream.word_of_nil (TokenStream.atEnd_iff.1 empty)]
    refine ⟨⟨xs, passed, hspells, ?_, hderives⟩, TokenStream.last_of_nextHidden next ▸ hlast,
      fun _ => ?_⟩
    · rw [hword, TokenStream.word_of_nextHidden next]
    · obtain ⟨below, hm⟩ := exists_below hspells
      rw [hm] at hspells
      rw [consistent.accept action hspells] at hderives
      rw [hword, hend, List.append_nil]
      exact hderives

/-- At the end of the document the start symbol derives the word. -/
theorem derives_of_endDocument {showHidden : Bool}
    (h : Tracks t table word (m.step t table showHidden).2)
    (hend : (m.step t table showHidden).1 = .endDocument) : t.Derives [t.start] word := by
  obtain ⟨e, m', hstep, hmoves⟩ := exists_moves t table showHidden m
  rw [hstep] at h hend
  refine h.halted ?_
  cases hmoves with
  | rest => simp
  | hidden | shift | reduce | giveUp | accept | skip => cases hend

end ShiftReduce

/-! ### Either engine -/

namespace Machine

variable {t : Tables} {word : List SymbolId} {machine : Machine} {showHidden : Bool}

/-- A machine with a consistent table is in the middle of a derivation of a word. -/
def Tracks (t : Tables) (word : List SymbolId) : Machine → Prop
  | .predictive table m => Predictive.Consistent t table ∧ m.Tracks t word
  | .shiftReduce table m => (∃ es, ShiftReduce.Consistent t table es) ∧ m.Tracks t table word

theorem tracks_step (h : machine.Tracks t word)
    (hok : (machine.step t showHidden).1.error? = none) :
    (machine.step t showHidden).2.Tracks t word := by
  cases machine with
  | predictive table m =>
    obtain ⟨consistent, h⟩ := h
    exact ⟨consistent, Predictive.tracks_step consistent showHidden h hok⟩
  | shiftReduce table m =>
    obtain ⟨⟨es, consistent⟩, h⟩ := h
    exact ⟨⟨es, consistent⟩, ShiftReduce.tracks_step consistent showHidden h hok⟩

theorem derives_of_endDocument (h : machine.Tracks t word)
    (hend : (machine.step t showHidden).1 = .endDocument) : t.Derives [t.start] word := by
  have hstep := tracks_step h (by rw [hend]; rfl)
  cases machine with
  | predictive table m => exact Predictive.derives_of_endDocument hstep.2 hend
  | shiftReduce table m => exact ShiftReduce.derives_of_endDocument hstep.2 hend

end Machine

/-- Reads without an error keep the derivation. -/
theorem Engine.tracks_reads {t : Tables} {e : Engine} {word : List SymbolId}
    (h : e.machine.Tracks t word) {n : Nat} (hok : ∀ ev ∈ e.events t n, ev.error? = none) :
    (e.reads t n).machine.Tracks t word := by
  induction n with
  | zero => exact h
  | succ n ih =>
    rw [events_succ] at hok
    have hlast := hok _ (List.mem_append_right _ List.mem_cons_self)
    rw [reads_succ] at hlast ⊢
    exact Machine.tracks_step (ih fun ev hev => hok ev (List.mem_append_left _ hev)) hlast

/-- A document that is read to its end without an error is a sentence. -/
theorem Engine.derives_of_endsAfter {t : Tables} {e : Engine} {word : List SymbolId}
    (h : e.machine.Tracks t word) {n : Nat} (hn : EndsAfter t n e)
    (hok : ∀ ev ∈ e.events t n, ev.error? = none) : t.Derives [t.start] word := by
  have hend : (e.reads t (n + 1)).event = .endDocument := of_decide_eq_true hn.1
  rw [reads_succ] at hend
  exact Machine.derives_of_endDocument (tracks_reads h hok) hend

end TableParser
