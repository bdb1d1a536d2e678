import TableParser.Proofs.Engine.Hidden
/-!
Two machines before inputs that begin alike.

As long as no error is reported, what a step does depends on the stack and on the symbol at hand
alone. So two machines of one table that start alike, before inputs with a common beginning, do the
same until the beginning is used up: where one of them reports no error the other reports none.

    input    a = { b }        taken   a =    at hand   {
    input'   a = { = }        taken   a =    at hand   {

Main statement: `Engine.clean_of_beside`.
-/

namespace TableParser

variable {t : Tables}

/-! ### Streams -/

namespace TokenStream

variable {s s' : TokenStream}

/-- The tokens still to come that are not hidden, and the last one. -/
def visible (t : Tables) (s : TokenStream) : List Token := s.shown t false ++ [s.last]

/-- The symbols of the tokens still to come that are not hidden, and of the last one. -/
def front (t : Tables) (s : TokenStream) : List SymbolId := (s.visible t).map Token.symbol

theorem front_eq (s : TokenStream) : s.front t = s.word t ++ [s.last.symbol] := by
  rw [front, visible, List.map_append]
  rfl

/-- Passing tokens leaves an end of those that are not hidden. -/
theorem Passes.visible_eq {ts : List Token} (h : Passes ts s s') :
    ∃ before, s.visible t = before ++ s'.visible t := by
  refine ⟨ts.filter fun tok => false || !t.isHidden tok.symbol, ?_⟩
  rw [visible, visible, shown, shown, h.1, List.filter_append, h.2, List.append_assoc]

/-- What was passed in tokens is what was passed in symbols. -/
theorem Passes.map_symbol_eq {ts before : List Token} {passed : List SymbolId} (h : Passes ts s s')
    (hbefore : s.visible t = before ++ s'.visible t) (hpassed : s.word t = passed ++ s'.word t) :
    before.map Token.symbol = passed := by
  have hfront : before.map Token.symbol ++ s'.front t = passed ++ s'.front t := calc
    _ = s.front t := by rw [front, front, hbefore, List.map_append]
    _ = _ := by rw [front_eq, front_eq, hpassed, h.2, List.append_assoc]
  exact List.append_cancel_right hfront

theorem Passes.length_front_le {ts : List Token} (h : Passes ts s s') :
    (s'.front t).length ≤ (s.front t).length := by
  obtain ⟨before, hbefore⟩ := h.visible_eq (t := t)
  rw [front, front, hbefore, List.length_map, List.length_map, List.length_append]
  omega

/-- Hidden tokens at the front do not count. -/
theorem visible_dropHidden (s : TokenStream) : (s.dropHidden t).visible t = s.visible t := by
  obtain ⟨hs, hpass, hhidden, -⟩ := nextHidden_none (nextHidden_plain t s)
  rw [visible, visible, hpass.shown_eq hhidden, hpass.2]

/-- The first of the tokens that are not hidden is the one at hand after the hidden ones. -/
theorem visible_cons (s : TokenStream) :
    ((s.dropHidden t).ahead = [] ∧ s.visible t = [(s.dropHidden t).current]) ∨
      ((s.dropHidden t).ahead ≠ [] ∧
        s.visible t = (s.dropHidden t).current :: (s.dropHidden t).advance.visible t) := by
  obtain ⟨hs, hpass, hhidden, -, hvisible⟩ := nextHidden_none (nextHidden_plain t s)
  rw [← visible_dropHidden (t := t) s]
  cases hahead : (s.dropHidden t).ahead with
  | nil =>
    refine .inl ⟨rfl, ?_⟩
    rw [visible, shown, hahead, current_of_nil hahead]
    rfl
  | cons tok later =>
    refine .inr ⟨by simp, ?_⟩
    rw [visible, shown_of_cons hahead (hvisible tok later hahead), current_of_cons hahead]
    rfl

/-- The end of the stream is empty, and it is the only token with its symbol. -/
structure Sealed (t : Tables) (s : TokenStream) : Prop where
  last : s.last.symbol = t.endOfStream
  text : s.last.text = ""
  ahead : ∀ tok ∈ s.ahead, tok.symbol ≠ t.endOfStream

theorem EndsLast.sealed_ofSource (h : EndsLast t) (source : String) :
    (ofSource t source).Sealed t :=
  ⟨(symbol_ofScanner _).1, (h.join_ofSource source).1, (symbol_ofScanner _).2⟩

theorem Sealed.passes {ts : List Token} (h : s.Sealed t) (hpass : Passes ts s s') :
    s'.Sealed t where
  last := by rw [hpass.2, h.last]
  text := by rw [hpass.2, h.text]
  ahead tok htok := h.ahead tok (by rw [hpass.1]; exact List.mem_append_right _ htok)

theorem Sealed.dropHidden (h : s.Sealed t) : (s.dropHidden t).Sealed t := by
  obtain ⟨hs, hpass, -⟩ := nextHidden_none (nextHidden_plain t s)
  exact h.passes hpass

theorem Sealed.atEnd_iff (h : s.Sealed t) : s.atEnd = true ↔ s.current.symbol = t.endOfStream := by
  cases hahead : s.ahead with
  | nil =>
    exact iff_of_true (TokenStream.atEnd_iff.2 hahead) (by rw [current_of_nil hahead, h.last])
  | cons tok later =>
    rw [current_of_cons hahead]
    refine iff_of_false (by rw [TokenStream.atEnd, hahead]; exact Bool.false_ne_true)
      (h.ahead tok ?_)
    rw [hahead]
    exact List.mem_cons_self

/-- Two streams with the same symbol at hand, after hidden tokens. -/
structure Meets (t : Tables) (s s' : TokenStream) : Prop where
  first : s.Sealed t
  second : s'.Sealed t
  symbol : (s.dropHidden t).current.symbol = (s'.dropHidden t).current.symbol

/-- The first symbol is that of the token at hand. -/
theorem symbol_of_front {a : SymbolId} {x : List SymbolId} (h : s.front t = a :: x) :
    (s.dropHidden t).current.symbol = a := by
  rw [front] at h
  rcases s.visible_cons (t := t) with ⟨-, hcons⟩ | ⟨-, hcons⟩
  · rw [hcons, List.map_cons, List.cons.injEq] at h
    exact h.1
  · rw [hcons, List.map_cons, List.cons.injEq] at h
    exact h.1

namespace Meets

theorem atEnd (h : Meets t s s') : (s.dropHidden t).atEnd = (s'.dropHidden t).atEnd := by
  rw [Bool.eq_iff_iff, h.first.dropHidden.atEnd_iff, h.second.dropHidden.atEnd_iff, h.symbol]

/-- Both streams begin with the same symbols before what is left in each. -/
def Left (t : Tables) (s s' r r' : TokenStream) : Prop :=
  ∃ p, s.front t = p ++ r.front t ∧ s'.front t = p ++ r'.front t

theorem left_refl : Left t s s' s s' := ⟨[], rfl, rfl⟩

theorem Left.trans {r r' q q' : TokenStream} (h : Left t s s' r r') (h' : Left t r r' q q') :
    Left t s s' q q' := by
  obtain ⟨p, hp, hp'⟩ := h
  obtain ⟨u, hu, hu'⟩ := h'
  exact ⟨p ++ u, by rw [hp, hu, List.append_assoc], by rw [hp', hu', List.append_assoc]⟩

/-- Before the end of a common beginning the streams meet. -/
theorem of_left {r r' : TokenStream} {c : List SymbolId} (h : Left t s s' r r') (hr : r.Sealed t)
    (hr' : r'.Sealed t) (hc : c <+: s.front t) (hc' : c <+: s'.front t)
    (hlt : (s.front t).length < (r.front t).length + c.length) : Meets t r r' := by
  obtain ⟨p, hp, hp'⟩ := h
  rw [hp] at hc
  rw [hp'] at hc'
  rw [hp, List.length_append] at hlt
  -- what was passed is shorter than the beginning, so the next symbol is in it
  obtain ⟨d, rfl⟩ := List.prefix_of_prefix_length_le (List.prefix_append p _) hc (by omega)
  rw [List.prefix_append_right_inj] at hc hc'
  cases d with
  | nil =>
    rw [List.append_nil] at hlt
    omega
  | cons a d =>
    obtain ⟨x, hx⟩ := hc
    obtain ⟨y, hy⟩ := hc'
    exact ⟨hr, hr', by rw [symbol_of_front hx.symm, symbol_of_front hy.symm]⟩

theorem left_dropHidden : Left t s s' (s.dropHidden t) (s'.dropHidden t) :=
  ⟨[], by rw [front, front, visible_dropHidden]; rfl, by rw [front, front, visible_dropHidden]; rfl⟩

theorem left_advance (h : Meets t s s') :
    Left t s s' (s.dropHidden t).advance (s'.dropHidden t).advance := by
  have hend := h.atEnd
  rw [Bool.eq_iff_iff, TokenStream.atEnd_iff, TokenStream.atEnd_iff] at hend
  have hstay : ∀ {s : TokenStream}, (s.dropHidden t).ahead = [] →
      s.front t = (s.dropHidden t).advance.front t := by
    intro s hnil
    have hadvance : (s.dropHidden t).advance = s.dropHidden t := by
      rw [advance, hnil, List.tail_nil, ← hnil]
    rw [hadvance, front, front, visible_dropHidden]
  rcases s.visible_cons (t := t) with ⟨hnil, -⟩ | ⟨hne, hcons⟩
  · exact ⟨[], hstay hnil, hstay (hend.1 hnil)⟩
  · rcases s'.visible_cons (t := t) with ⟨hnil', -⟩ | ⟨-, hcons'⟩
    · exact absurd (hend.2 hnil') hne
    · refine ⟨[(s.dropHidden t).current.symbol], ?_, ?_⟩
      · rw [front, hcons, List.map_cons]
        rfl
      · rw [front, hcons', List.map_cons, h.symbol]
        rfl

end Meets

end TokenStream

open TokenStream (Meets Sealed)

/-! ### Steps -/

namespace Predictive

/-- With the same stack and the same symbol at hand, a machine reports no error if the other one
does not, and they go on alike. -/
theorem beside_step (table : PredictionTable) {input input' : TokenStream}
    (h : Meets t input input') (stack : List Pending) (finished : Bool)
    (hok : (step t table false ⟨input', stack, finished⟩).1.error? = none) :
    (step t table false ⟨input, stack, finished⟩).1.error? = none ∧
      (step t table false ⟨input, stack, finished⟩).2.stack =
        (step t table false ⟨input', stack, finished⟩).2.stack ∧
      (step t table false ⟨input, stack, finished⟩).2.finished =
        (step t table false ⟨input', stack, finished⟩).2.finished ∧
      Meets.Left t input input' (step t table false ⟨input, stack, finished⟩).2.input
        (step t table false ⟨input', stack, finished⟩).2.input := by
  cases finished with
  | true => exact ⟨rfl, rfl, rfl, Meets.left_refl⟩
  | false =>
    rcases stack with - | ⟨s | rule, below⟩
    · revert hok
      simp only [step, TokenStream.nextHidden_plain, Bool.false_eq_true, if_false, finish, h.atEnd]
      split
      · exact fun _ => ⟨rfl, rfl, rfl, Meets.left_dropHidden⟩
      · rintro ⟨⟩
    · revert hok
      simp only [step, TokenStream.nextHidden_plain, Bool.false_eq_true, if_false, expand,
        matchTerminal, h.symbol]
      split
      · split
        · exact fun _ => ⟨rfl, rfl, rfl, Meets.left_dropHidden⟩
        · rintro ⟨⟩
      · split
        · exact fun _ => ⟨rfl, rfl, rfl, h.left_advance⟩
        · rintro ⟨⟩
    · exact ⟨rfl, rfl, rfl, Meets.left_refl⟩

end Predictive

namespace ShiftReduce

/-- With the same stack and the same symbol at hand, a machine reports no error if the other one
does not, and they go on alike. -/
theorem beside_step (table : ShiftReduceTable) {input input' : TokenStream}
    (h : Meets t input input') (states : List StateId) (phase : Phase)
    (hok : (step t table false ⟨input', states, phase⟩).1.error? = none) :
    (step t table false ⟨input, states, phase⟩).1.error? = none ∧
      (step t table false ⟨input, states, phase⟩).2.states =
        (step t table false ⟨input', states, phase⟩).2.states ∧
      (step t table false ⟨input, states, phase⟩).2.phase =
        (step t table false ⟨input', states, phase⟩).2.phase ∧
      Meets.Left t input input' (step t table false ⟨input, states, phase⟩).2.input
        (step t table false ⟨input', states, phase⟩).2.input := by
  cases phase with
  | accepted | done => exact ⟨rfl, rfl, rfl, Meets.left_refl⟩
  | running =>
    revert hok
    simp only [step, TokenStream.nextHidden_plain, top, h.symbol, h.atEnd, reduce]
    split
    · exact fun _ => ⟨rfl, rfl, rfl, h.left_advance⟩
    · split
      · rintro ⟨⟩
      · split
        · exact fun _ => ⟨rfl, rfl, rfl, Meets.left_dropHidden⟩
        · rintro ⟨⟩
    · split
      · exact fun _ => ⟨rfl, rfl, rfl, Meets.left_dropHidden⟩
      · rintro ⟨⟩
    · rintro ⟨⟩

end ShiftReduce
namespace Machine

/-- Two machines of one table that have the same to do. -/
inductive Beside : Machine → Machine → Prop where
  | predictive (table : PredictionTable) {m m' : Predictive} (stack : m.stack = m'.stack)
      (finished : m.finished = m'.finished) : Beside (.predictive table m) (.predictive table m')
  | shiftReduce (table : ShiftReduceTable) {m m' : ShiftReduce} (states : m.states = m'.states)
      (phase : m.phase = m'.phase) : Beside (.shiftReduce table m) (.shiftReduce table m')

/-- With the same symbol at hand, a machine reports no error if the other one does not, and they go
on alike. -/
theorem beside_step {m m' : Machine} (h : Beside m m') (meets : Meets t m.input m'.input)
    (hok : (m'.step t false).1.error? = none) :
    (m.step t false).1.error? = none ∧ Beside (m.step t false).2 (m'.step t false).2 ∧
      Meets.Left t m.input m'.input (m.step t false).2.input (m'.step t false).2.input := by
  cases h with
  | @predictive table m m' stack finished =>
    obtain ⟨input, stack₀, finished₀⟩ := m
    obtain ⟨input', stack', finished'⟩ := m'
    dsimp only at stack finished
    subst stack finished
    obtain ⟨hclean, hstack, hfinished, hleft⟩ := Predictive.beside_step table meets _ _ hok
    exact ⟨hclean, .predictive table hstack hfinished, hleft⟩
  | @shiftReduce table m m' states phase =>
    obtain ⟨input, states₀, phase₀⟩ := m
    obtain ⟨input', states', phase'⟩ := m'
    dsimp only at states phase
    subst states phase
    obtain ⟨hclean, hstates, hphase, hleft⟩ := ShiftReduce.beside_step table meets _ _ hok
    exact ⟨hclean, .shiftReduce table hstates hphase, hleft⟩

end Machine

/-! ### Reads -/

namespace Engine

variable {e e' : Engine}

theorem sealed_read (h : e.machine.input.Sealed t) : (e.read t).machine.input.Sealed t := by
  obtain ⟨ts, hpass, -⟩ := Machine.passes_step (t := t) e.showHidden h.text
  exact h.passes hpass

theorem sealed_reads (h : e.machine.input.Sealed t) (n : Nat) :
    (e.reads t n).machine.input.Sealed t := by
  induction n with
  | zero => exact h
  | succ n ih =>
    rw [reads_succ]
    exact sealed_read ih

/-- With the same symbol at hand, a read reports no error if that of the other engine does not, and
the engines go on alike. -/
theorem beside_read (plain : e.showHidden = false) (plain' : e'.showHidden = false)
    (beside : Machine.Beside e.machine e'.machine)
    (meets : Meets t e.machine.input e'.machine.input) (hok : (e'.read t).event.error? = none) :
    (e.read t).event.error? = none ∧ Machine.Beside (e.read t).machine (e'.read t).machine ∧
      Meets.Left t e.machine.input e'.machine.input (e.read t).machine.input
        (e'.read t).machine.input := by
  rw [event_read, plain'] at hok
  rw [event_read, machine_read, machine_read, plain, plain']
  exact Machine.beside_step beside meets hok

section Beginning

variable {c : List SymbolId} (plain : e.showHidden = false) (plain' : e'.showHidden = false)
  (beside : Machine.Beside e.machine e'.machine) (sealed : e.machine.input.Sealed t)
  (sealed' : e'.machine.input.Sealed t) (clean : ∀ n, (e'.reads t (n + 1)).event.error? = none)
  (hc : c <+: e.machine.input.front t) (hc' : c <+: e'.machine.input.front t)

include plain plain' beside sealed sealed' clean hc hc'

/-- The engines go on alike while the common beginning is not used up. -/
theorem beside_reads (n : Nat) (hn : (e.machine.input.front t).length <
      ((e.reads t n).machine.input.front t).length + c.length) :
    Machine.Beside (e.reads t n).machine (e'.reads t n).machine ∧
      Meets.Left t e.machine.input e'.machine.input
      (e.reads t n).machine.input (e'.reads t n).machine.input := by
  induction n with
  | zero => exact ⟨beside, Meets.left_refl⟩
  | succ n ih =>
    have hsealed := sealed_reads sealed n
    obtain ⟨ts, hpass, -⟩ := Machine.passes_step (t := t) (e.reads t n).showHidden hsealed.text
    rw [← machine_read, ← reads_succ] at hpass
    have hle := hpass.length_front_le (t := t)
    obtain ⟨hbeside, hleft⟩ := ih (by omega)
    have hmeets := Meets.of_left hleft hsealed (sealed_reads sealed' n) hc hc' (by omega)
    have hok := clean n
    rw [reads_succ] at hok
    obtain ⟨-, hnext, hstep⟩ := beside_read (by rw [showHidden_reads, plain])
      (by rw [showHidden_reads, plain']) hbeside hmeets hok
    rw [reads_succ, reads_succ]
    exact ⟨hnext, hleft.trans hstep⟩

/-- While the common beginning is not used up, the read of one engine reports no error, as no read
of the other one does. -/
theorem clean_of_beside (n : Nat) (hn : (e.machine.input.front t).length <
      ((e.reads t n).machine.input.front t).length + c.length) :
    (e.reads t (n + 1)).event.error? = none := by
  obtain ⟨hbeside, hleft⟩ := beside_reads plain plain' beside sealed sealed' clean hc hc' n hn
  have hmeets := Meets.of_left hleft (sealed_reads sealed n) (sealed_reads sealed' n) hc hc' hn
  have hok := clean n
  rw [reads_succ] at hok ⊢
  exact (beside_read (by rw [showHidden_reads, plain]) (by rw [showHidden_reads, plain']) hbeside
    hmeets hok).1

end Beginning

end Engine

end TableParser
