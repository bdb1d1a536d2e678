import TableParser.Proofs.Engine.Hidden
/-!
Hidden tokens decide nothing.

Two inputs may have the same symbols and texts in the same order and differ in the hidden tokens
between them. While hidden tokens are passed over, an engine does the same on both: what it looks at
is the symbol at hand, and that is never a hidden one. The events differ in places only, and in the
hidden text of errors, as recovery passes hidden tokens together with others:

    a  =  ·blank·  =  b           error "="  at 3
    a  =  =  ·comment·  b         error "="  at 2
    a  =  =  ·comment·  =  b      error "=·comment·="

Main statements: `Machine.alike_step` and `Engine.alike_reads`.
-/

namespace TableParser

variable {t : Tables}

/-- What a token says apart from its place. -/
def Token.content (tok : Token) : SymbolId × String := (tok.symbol, tok.text)

/-! ### Streams -/

/-- What the tokens of a list say that are not hidden. -/
def contents (t : Tables) (tokens : List Token) : List (SymbolId × String) :=
  (tokens.filter fun tok => !t.isHidden tok.symbol).map Token.content

theorem contents_append (a b : List Token) :
    contents t (a ++ b) = contents t a ++ contents t b := by
  rw [contents, List.filter_append, List.map_append]
  rfl

theorem contents_cons_shown {tok : Token} (h : t.isHidden tok.symbol = false)
    (tokens : List Token) :
    contents t (tok :: tokens) = tok.content :: contents t tokens := by
  rw [contents, List.filter_cons_of_pos (by rw [h]; rfl), List.map_cons]
  rfl

theorem contents_cons_hidden {tok : Token} (h : t.isHidden tok.symbol = true)
    (tokens : List Token) :
    contents t (tok :: tokens) = contents t tokens := by
  rw [contents, List.filter_cons_of_neg (by rw [h]; exact Bool.false_ne_true)]
  rfl

/-- Passing hidden tokens at the front leaves what the others say. -/
theorem contents_dropHidden (tokens : List Token) :
    contents t (tokens.dropWhile fun tok => t.isHidden tok.symbol) = contents t tokens := by
  induction tokens with
  | nil => rfl
  | cons tok tokens ih =>
    cases h : t.isHidden tok.symbol with
    | true =>
      rw [List.dropWhile_cons_of_pos (p := fun tok : Token => t.isHidden tok.symbol) h, ih,
        contents_cons_hidden h]
    | false =>
      rw [List.dropWhile_cons_of_neg (p := fun tok : Token => t.isHidden tok.symbol)
        (by rw [h]; exact Bool.false_ne_true)]

/-- Recovery passes what is not wanted, whatever is hidden in between. -/
theorem contents_dropWhile (sync : SymbolId → Bool) (tokens : List Token) :
    contents t (tokens.dropWhile (TokenStream.isSkipped t sync)) =
      (contents t tokens).dropWhile fun c => !sync c.1 := by
  induction tokens with
  | nil => rfl
  | cons tok tokens ih =>
    cases h : t.isHidden tok.symbol with
    | true =>
      rw [List.dropWhile_cons_of_pos (by rw [TokenStream.isSkipped, h, Bool.true_or]), ih,
        contents_cons_hidden h]
    | false =>
      cases hs : sync tok.symbol with
      | true =>
        rw [List.dropWhile_cons_of_neg
          (by rw [TokenStream.isSkipped, h, hs]; exact Bool.false_ne_true), contents_cons_shown h,
          List.dropWhile_cons_of_neg (by rw [Token.content, hs]; exact Bool.false_ne_true)]
      | false =>
        rw [List.dropWhile_cons_of_pos (by rw [TokenStream.isSkipped, h, hs]; rfl), ih,
          contents_cons_shown h, List.dropWhile_cons_of_pos (by rw [Token.content, hs]; rfl)]

namespace TokenStream

/-- Two streams, left of the tokens of two inputs, that say the same apart from hidden tokens. -/
structure Alike (t : Tables) (tokens tokens' : List Token) (s s' : TokenStream) : Prop where
  ahead : contents t s.ahead = contents t s'.ahead
  last : s.last.content = s'.last.content
  suffix : s.ahead <:+ tokens
  suffix' : s'.ahead <:+ tokens'

/-- No hidden token is at hand. -/
def Facing (t : Tables) (s : TokenStream) : Prop :=
  ∀ tok later, s.ahead = tok :: later → t.isHidden tok.symbol = false

variable {s s' : TokenStream} {tokens tokens' : List Token}

theorem facing_dropHidden (s : TokenStream) : (s.dropHidden t).Facing t := by
  obtain ⟨-, -, -, -, hfront⟩ := nextHidden_none (nextHidden_plain t s)
  exact hfront

/-- What is left of a stream is at its end. -/
theorem Passes.suffix {ts : List Token} (h : Passes ts s s') : s'.ahead <:+ s.ahead := by
  rw [h.1]
  exact List.suffix_append ts s'.ahead

namespace Alike

theorem dropHidden (h : Alike t tokens tokens' s s') :
    Alike t tokens tokens' (s.dropHidden t) (s'.dropHidden t) where
  ahead := by
    rw [TokenStream.dropHidden, TokenStream.dropHidden, contents_dropHidden,
      contents_dropHidden, h.ahead]
  last := h.last
  suffix := (List.dropWhile_suffix _).trans h.suffix
  suffix' := (List.dropWhile_suffix _).trans h.suffix'

/-- Where no hidden token is at hand, both streams are at the end or before tokens that say the
same. -/
theorem cases_facing (h : Alike t tokens tokens' s s') (hs : s.Facing t) (hs' : s'.Facing t) :
    (s.ahead = [] ∧ s'.ahead = []) ∨ ∃ tok later tok' later', s.ahead = tok :: later ∧
      s'.ahead = tok' :: later' ∧ tok.content = tok'.content ∧
      contents t later = contents t later' := by
  have hahead := h.ahead
  match hnext : s.ahead, hnext' : s'.ahead with
  | [], [] => exact .inl ⟨rfl, rfl⟩
  | tok :: later, tok' :: later' =>
    rw [hnext, hnext', contents_cons_shown (hs tok later hnext),
      contents_cons_shown (hs' tok' later' hnext'), List.cons.injEq] at hahead
    exact .inr ⟨tok, later, tok', later', rfl, rfl, hahead.1, hahead.2⟩
  | tok :: later, [] =>
    rw [hnext, hnext', contents_cons_shown (hs tok later hnext)] at hahead
    cases hahead
  | [], tok' :: later' =>
    rw [hnext, hnext', contents_cons_shown (hs' tok' later' hnext')] at hahead
    cases hahead

/-- The tokens at hand say the same. -/
theorem current (h : Alike t tokens tokens' s s') (hs : s.Facing t) (hs' : s'.Facing t) :
    s.current.content = s'.current.content := by
  rcases h.cases_facing hs hs' with
    ⟨hnil, hnil'⟩ | ⟨tok, later, tok', later', hcons, hcons', hsame, -⟩
  · rw [current_of_nil hnil, current_of_nil hnil', h.last]
  · rw [current_of_cons hcons, current_of_cons hcons', hsame]

theorem symbol (h : Alike t tokens tokens' s s') (hs : s.Facing t) (hs' : s'.Facing t) :
    s.current.symbol = s'.current.symbol :=
  congrArg Prod.fst (h.current hs hs')

theorem atEnd (h : Alike t tokens tokens' s s') (hs : s.Facing t) (hs' : s'.Facing t) :
    s.atEnd = s'.atEnd := by
  rcases h.cases_facing hs hs' with ⟨hnil, hnil'⟩ | ⟨tok, later, tok', later', hcons, hcons', -⟩
  · rw [TokenStream.atEnd, TokenStream.atEnd, hnil, hnil']
  · rw [TokenStream.atEnd, TokenStream.atEnd, hcons, hcons']
    rfl

theorem advance (h : Alike t tokens tokens' s s') (hs : s.Facing t) (hs' : s'.Facing t) :
    Alike t tokens tokens' s.advance s'.advance := by
  refine ⟨?_, h.last, s.passes_advance.suffix.trans h.suffix,
    s'.passes_advance.suffix.trans h.suffix'⟩
  rcases h.cases_facing hs hs' with
    ⟨hnil, hnil'⟩ | ⟨tok, later, tok', later', hcons, hcons', -, hsame⟩
  · rw [TokenStream.advance, TokenStream.advance, hnil, hnil']
  · rw [TokenStream.advance, TokenStream.advance, hcons, hcons']
    exact hsame

/-- Recovery passes the same and leaves the same, with no hidden token at hand. -/
theorem recover (h : Alike t tokens tokens' s s') (hs : s.Facing t) (hs' : s'.Facing t)
    (sync : SymbolId → Bool) :
    Alike t tokens tokens' (s.recover t sync).2 (s'.recover t sync).2 ∧
      contents t (s.recover t sync).1 = contents t (s'.recover t sync).1 ∧
      (s.recover t sync).2.Facing t ∧ (s'.recover t sync).2.Facing t := by
  have hfacing : ∀ s : TokenStream, (s.recover t sync).2.Facing t := by
    intro s tok later hnext
    exact (recover_wanted hnext).1
  have hleft : contents t (s.recover t sync).2.ahead = contents t (s'.recover t sync).2.ahead := by
    rcases h.cases_facing hs hs' with
      ⟨hnil, hnil'⟩ | ⟨tok, later, tok', later', hcons, hcons', -, hsame⟩
    · rw [recover_at_end sync hnil, recover_at_end sync hnil', hnil, hnil']
    · rw [TokenStream.recover, TokenStream.recover, hcons, hcons']
      dsimp only
      rw [contents_dropWhile, contents_dropWhile, hsame]
  have hahead := h.ahead
  have hpass := recover_passes (t := t) sync s
  have hpass' := recover_passes (t := t) sync s'
  rw [hpass.1, hpass'.1, contents_append, contents_append, hleft] at hahead
  refine ⟨⟨hleft, ?_, hpass.suffix.trans h.suffix, hpass'.suffix.trans h.suffix'⟩,
    List.append_cancel_right hahead, hfacing s, hfacing s'⟩
  rw [hpass.2, hpass'.2, h.last]

end Alike

end TokenStream

/-! ### Events -/

/-- The error was reported for passing over tokens of an input. -/
structure SyntaxError.Spans (err : SyntaxError) (tokens passed : List Token) : Prop where
  slice : passed <:+: tokens
  text : err.text = String.join (passed.map Token.text)
  position : ∀ tok ∈ passed.head?, tok.position = err.position

/-- Events of two inputs that say the same apart from places and the hidden text of errors. -/
inductive Event.Alike (t : Tables) (tokens tokens' : List Token) : Event → Event → Prop where
  | quiet {ev : Event} (silent : ev.value? = none) : Alike t tokens tokens' ev ev
  | terminal {tok tok' : Token} (same : tok.content = tok'.content) :
      Alike t tokens tokens' (.terminal tok) (.terminal tok')
  | shift {tok tok' : Token} (same : tok.content = tok'.content) :
      Alike t tokens tokens' (.shift tok) (.shift tok')
  | error {err err' : SyntaxError} {passed passed' : List Token}
      (expected : err.expected = err'.expected) (spans : err.Spans tokens passed)
      (spans' : err'.Spans tokens' passed') (same : contents t passed = contents t passed') :
      Alike t tokens tokens' (.error err) (.error err')

/-- An error over no input at all. -/
theorem SyntaxError.spans_nil (position : Position) (expected : List SymbolId)
    (tokens : List Token) :
    SyntaxError.Spans ⟨"", position, expected⟩ tokens [] :=
  ⟨List.nil_infix, rfl, by simp⟩

/-- An error of recovery spans what recovery has passed. -/
theorem TokenStream.spans_recover {s : TokenStream} {tokens : List Token} (hs : s.ahead <:+ tokens)
    (expected : List SymbolId) (sync : SymbolId → Bool) :
    (s.recoverError t expected sync).1.Spans tokens (s.recover t sync).1 where
  slice := by
    refine List.IsInfix.trans ?_ hs.isInfix
    rw [(recover_passes sync s).1]
    exact (List.prefix_append _ _).isInfix
  text := rfl
  position := by
    intro tok htok
    rw [recoverError, SyntaxError.ofSkipped]
    dsimp only
    rw [recover] at htok
    split at htok
    · cases htok
    · next first later hcons =>
      obtain rfl : first = tok := Option.some.inj htok
      rw [current_of_cons hcons]

variable {tokens tokens' : List Token}

/-- Recovery from the same error reports the same. -/
theorem TokenStream.Alike.error {s s' : TokenStream} (h : Alike t tokens tokens' s s')
    (hs : s.Facing t) (hs' : s'.Facing t) (expected : List SymbolId) (sync : SymbolId → Bool) :
    Event.Alike t tokens tokens' (.error (s.recoverError t expected sync).1)
      (.error (s'.recoverError t expected sync).1) :=
  .error rfl (spans_recover h.suffix expected sync) (spans_recover h.suffix' expected sync)
    (h.recover hs hs' sync).2.1

/-! ### Machines -/

namespace Predictive

variable {table : PredictionTable} {m m' : Predictive}

/-- Two machines that have the same to do. -/
structure Alike (t : Tables) (tokens tokens' : List Token) (m m' : Predictive) : Prop where
  stack : m.stack = m'.stack
  finished : m.finished = m'.finished
  input : TokenStream.Alike t tokens tokens' m.input m'.input

/-- Both machines recover in the same way. -/
theorem alike_fail {input input' : TokenStream}
    (h : TokenStream.Alike t tokens tokens' input input') (hs : input.Facing t)
    (hs' : input'.Facing t) (expected : List SymbolId) (sync : SymbolId → Bool)
    (stack : List Pending) (finished : Bool) :
    Event.Alike t tokens tokens' (fail t expected sync ⟨input, stack, finished⟩).1
        (fail t expected sync ⟨input', stack, finished⟩).1 ∧
      Alike t tokens tokens' (fail t expected sync ⟨input, stack, finished⟩).2
        (fail t expected sync ⟨input', stack, finished⟩).2 := by
  obtain ⟨hnext, -, hfacing, hfacing'⟩ := h.recover hs hs' sync
  refine ⟨h.error hs hs' expected sync, ?_, rfl, hnext⟩
  have hstack : ∀ i : TokenStream, (fail t expected sync ⟨i, stack, finished⟩).2.stack =
      if sync (i.recover t sync).2.current.symbol then stack else stack.tail := fun _ => rfl
  rw [hstack, hstack, hnext.symbol hfacing hfacing']

/-- Machines that have the same to do report the same and then have the same to do. -/
theorem alike_step (table : PredictionTable) (h : Alike t tokens tokens' m m') :
    Event.Alike t tokens tokens' (m.step t table false).1 (m'.step t table false).1 ∧
      Alike t tokens tokens' (m.step t table false).2 (m'.step t table false).2 := by
  obtain ⟨input, stack, finished⟩ := m
  obtain ⟨input', stack', finished'⟩ := m'
  obtain ⟨hstack, hfinished, hinput⟩ := h
  dsimp only at hstack hfinished hinput
  subst hstack hfinished
  have hnext := hinput.dropHidden
  have hs := TokenStream.facing_dropHidden (t := t) input
  have hs' := TokenStream.facing_dropHidden (t := t) input'
  have hsymbol := hnext.symbol hs hs'
  cases finished with
  | true => exact ⟨.quiet rfl, rfl, rfl, hinput⟩
  | false =>
    match stack with
    | .close rule :: below => exact ⟨.quiet rfl, rfl, rfl, hinput⟩
    | [] =>
      simp only [step, TokenStream.nextHidden_plain, Bool.false_eq_true, if_false, finish,
        ← hnext.atEnd hs hs']
      split
      · exact ⟨.quiet rfl, rfl, rfl, hnext⟩
      · exact ⟨hnext.error hs hs' _ _, rfl, rfl, (hnext.recover hs hs' _).1⟩
    | .symbol s :: below =>
      simp only [step, TokenStream.nextHidden_plain, Bool.false_eq_true, if_false, expand,
        matchTerminal, ← hsymbol]
      split
      · split
        · exact ⟨.quiet rfl, rfl, rfl, hnext⟩
        · exact alike_fail hnext hs hs' _ _ _ _
      · split
        · exact ⟨.terminal (hnext.current hs hs'), rfl, rfl, hnext.advance hs hs'⟩
        · exact alike_fail hnext hs hs' _ _ _ _

end Predictive

namespace ShiftReduce

variable {table : ShiftReduceTable} {m m' : ShiftReduce}

/-- Two machines that have the same to do. -/
structure Alike (t : Tables) (tokens tokens' : List Token) (m m' : ShiftReduce) : Prop where
  states : m.states = m'.states
  phase : m.phase = m'.phase
  input : TokenStream.Alike t tokens tokens' m.input m'.input

/-- Both machines give the document up. -/
theorem alike_giveUp (h : Alike t tokens tokens' m m') :
    Event.Alike t tokens tokens' m.giveUp.1 m'.giveUp.1 ∧
      Alike t tokens tokens' m.giveUp.2 m'.giveUp.2 :=
  ⟨.error rfl (SyntaxError.spans_nil _ _ _) (SyntaxError.spans_nil _ _ _) rfl, h.states,
    rfl, h.input⟩

/-- Both machines reduce, or both give the document up. -/
theorem alike_reduce (table : ShiftReduceTable) (rule : RuleId) {input input' : TokenStream}
    (h : TokenStream.Alike t tokens tokens' input input') (states : List StateId) (phase : Phase) :
    Event.Alike t tokens tokens' (reduce t table rule ⟨input, states, phase⟩).1
        (reduce t table rule ⟨input', states, phase⟩).1 ∧
      Alike t tokens tokens' (reduce t table rule ⟨input, states, phase⟩).2
        (reduce t table rule ⟨input', states, phase⟩).2 := by
  simp only [reduce]
  split
  · exact alike_giveUp ⟨rfl, rfl, h⟩
  · split
    · exact ⟨.quiet rfl, rfl, rfl, h⟩
    · exact alike_giveUp ⟨rfl, rfl, h⟩

/-- Both machines recover in the same way. -/
theorem alike_fail (table : ShiftReduceTable) {input input' : TokenStream}
    (h : TokenStream.Alike t tokens tokens' input input') (hs : input.Facing t)
    (hs' : input'.Facing t) (states : List StateId) (phase : Phase) :
    Event.Alike t tokens tokens' (fail t table ⟨input, states, phase⟩).1
        (fail t table ⟨input', states, phase⟩).1 ∧
      Alike t tokens tokens' (fail t table ⟨input, states, phase⟩).2
        (fail t table ⟨input', states, phase⟩).2 := by
  obtain ⟨hnext, -, hfacing, hfacing'⟩ :=
    h.recover hs hs' fun s => (table.action? (states.headD table.initial) s).isSome
  refine ⟨h.error hs hs' _ _, rfl, ?_, hnext⟩
  have hphase : ∀ i : TokenStream, (fail t table ⟨i, states, phase⟩).2.phase =
      if (i.recover t fun s => (table.action? (states.headD table.initial) s).isSome).2.atEnd &&
        (table.action? (states.headD table.initial) t.endOfStream).isNone then .done else phase :=
    fun _ => rfl
  rw [hphase, hphase, hnext.atEnd hfacing hfacing']

/-- Machines that have the same to do report the same and then have the same to do. -/
theorem alike_step (table : ShiftReduceTable) (h : Alike t tokens tokens' m m') :
    Event.Alike t tokens tokens' (m.step t table false).1 (m'.step t table false).1 ∧
      Alike t tokens tokens' (m.step t table false).2 (m'.step t table false).2 := by
  obtain ⟨input, states, phase⟩ := m
  obtain ⟨input', states', phase'⟩ := m'
  obtain ⟨hstates, hphase, hinput⟩ := h
  dsimp only at hstates hphase hinput
  subst hstates hphase
  have hnext := hinput.dropHidden
  have hs := TokenStream.facing_dropHidden (t := t) input
  have hs' := TokenStream.facing_dropHidden (t := t) input'
  have hsymbol := hnext.symbol hs hs'
  cases phase with
  | accepted | done => exact ⟨.quiet rfl, rfl, rfl, hinput⟩
  | running =>
    simp only [step, TokenStream.nextHidden_plain, top, ← hsymbol]
    split
    · exact ⟨.shift (hnext.current hs hs'), rfl, rfl, hnext.advance hs hs'⟩
    · exact alike_reduce table _ hnext states .running
    · rw [hnext.atEnd hs hs']
      split
      · exact ⟨.quiet rfl, rfl, rfl, hnext⟩
      · exact alike_fail table hnext hs hs' states .running
    · exact alike_fail table hnext hs hs' states .running

end ShiftReduce

/-- Two machines of one strategy that have the same to do. -/
inductive Machine.Alike (t : Tables) (tokens tokens' : List Token) : Machine → Machine → Prop where
  | predictive (table : PredictionTable) {m m' : Predictive}
      (same : Predictive.Alike t tokens tokens' m m') :
      Alike t tokens tokens' (.predictive table m) (.predictive table m')
  | shiftReduce (table : ShiftReduceTable) {m m' : ShiftReduce}
      (same : ShiftReduce.Alike t tokens tokens' m m') :
      Alike t tokens tokens' (.shiftReduce table m) (.shiftReduce table m')

/-- Machines that have the same to do report the same and then have the same to do. -/
theorem Machine.alike_step {m m' : Machine} (h : Machine.Alike t tokens tokens' m m') :
    Event.Alike t tokens tokens' (m.step t false).1 (m'.step t false).1 ∧
      Machine.Alike t tokens tokens' (m.step t false).2 (m'.step t false).2 := by
  cases h with
  | predictive table same =>
    obtain ⟨hevent, hnext⟩ := Predictive.alike_step table same
    exact ⟨hevent, .predictive table hnext⟩
  | shiftReduce table same =>
    obtain ⟨hevent, hnext⟩ := ShiftReduce.alike_step table same
    exact ⟨hevent, .shiftReduce table hnext⟩

/-! ### Engines -/

namespace Engine

variable {e e' : Engine}

/-- Reads of two engines that pass over hidden tokens and have the same to do. -/
theorem alike_reads (hplain : e.showHidden = false) (hplain' : e'.showHidden = false)
    (h : Machine.Alike t tokens tokens' e.machine e'.machine) (n : Nat) :
    Machine.Alike t tokens tokens' (e.reads t n).machine (e'.reads t n).machine ∧
      Event.Alike t tokens tokens' (e.reads t (n + 1)).event (e'.reads t (n + 1)).event := by
  have hstep : ∀ {e e' : Engine}, e.showHidden = false → e'.showHidden = false →
      Machine.Alike t tokens tokens' e.machine e'.machine →
      Event.Alike t tokens tokens' (e.read t).event (e'.read t).event ∧
        Machine.Alike t tokens tokens' (e.read t).machine (e'.read t).machine := by
    intro e e' hplain hplain' h
    rw [event_read, event_read, machine_read, machine_read, hplain, hplain']
    exact Machine.alike_step h
  have hreads : ∀ n,
      Machine.Alike t tokens tokens' (e.reads t n).machine (e'.reads t n).machine := by
    intro n
    induction n with
    | zero => exact h
    | succ n ih =>
      rw [reads_succ, reads_succ]
      exact (hstep (by rw [showHidden_reads, hplain]) (by rw [showHidden_reads, hplain']) ih).2
  refine ⟨hreads n, ?_⟩
  rw [reads_succ, reads_succ]
  exact (hstep (by rw [showHidden_reads, hplain]) (by rw [showHidden_reads, hplain']) (hreads n)).1

end Engine

end TableParser
