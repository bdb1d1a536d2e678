import Mathlib.Data.List.DropRight
import TableParser.Proofs.Engine.Passage
/-!
Showing hidden tokens only adds their events.

An engine that shows hidden tokens does, read by read, what an engine does that passes over them,
but for the reads that show a hidden token. Such a read leaves the machine as it is, up to hidden
tokens at the front of its input (`Machine.passHidden`), so the other engine waits:

    shown    terminal a   terminal ·blank·   nonTerminal …   terminal =
    plain    terminal a                      nonTerminal …   terminal =

There are no more such reads in a row than there are tokens, so one engine ends if the other does.

Main statements: `Engine.Shadows.reads`, `Engine.Shadows.exists_reads` and
`Engine.Shadows.endsAfter`.
-/

namespace TableParser

variable {t : Tables}

namespace TokenStream

variable {s s' : TokenStream}

theorem nextHidden_plain (t : Tables) (s : TokenStream) :
    s.nextHidden t false = (none, s.dropHidden t) := rfl

@[simp] theorem dropHidden_dropHidden (t : Tables) (s : TokenStream) :
    (s.dropHidden t).dropHidden t = s.dropHidden t := by
  rw [dropHidden, dropHidden, List.dropWhile_idempotent]

/-- Showing a hidden token passes it. -/
theorem dropHidden_of_shown {tok : Token} (h : s.nextHidden t true = (some tok, s')) :
    s'.dropHidden t = s.dropHidden t := by
  obtain ⟨-, hhidden, hahead, hlast⟩ := nextHidden_some h
  rw [dropHidden, dropHidden, hahead, hlast, List.singleton_append,
    List.dropWhile_cons_of_pos (p := fun tok : Token => t.isHidden tok.symbol) hhidden]

/-- Where no hidden token is shown there is none at the front. -/
theorem dropHidden_of_none (h : s.nextHidden t true = (none, s')) :
    s' = s ∧ s.dropHidden t = s := by
  obtain ⟨hs, hpass, -, hnil, hfront⟩ := nextHidden_none h
  rw [hnil rfl] at hpass
  obtain rfl := hpass.eq_of_nil
  refine ⟨rfl, ?_⟩
  obtain ⟨ahead, last⟩ := s'
  cases ahead with
  | nil => rfl
  | cons tok later =>
    rw [dropHidden,
      List.dropWhile_cons_of_neg (by rw [hfront tok later rfl]; exact Bool.false_ne_true)]

end TokenStream

/-- Whether an event is about a hidden token. -/
def Event.isHidden (t : Tables) (ev : Event) : Bool :=
  ev.token?.any fun tok => t.isHidden tok.symbol

/-! ### Machines -/

/-- The machine after the hidden tokens at the front of its input. -/
def Predictive.passHidden (t : Tables) (m : Predictive) : Predictive :=
  { m with input := m.input.dropHidden t }

/-- The machine after the hidden tokens at the front of its input. -/
def ShiftReduce.passHidden (t : Tables) (m : ShiftReduce) : ShiftReduce :=
  { m with input := m.input.dropHidden t }

/-- The machine after the hidden tokens at the front of its input. -/
def Machine.passHidden (t : Tables) : Machine → Machine
  | .predictive table m => .predictive table (m.passHidden t)
  | .shiftReduce table m => .shiftReduce table (m.passHidden t)

namespace Predictive

variable {table : PredictionTable}

/-- Hidden tokens at the front make no difference to a machine that passes over them. -/
theorem step_passHidden (t : Tables) (table : PredictionTable) (m : Predictive) :
    ((m.passHidden t).step t table false).1 = (m.step t table false).1 ∧
      ((m.passHidden t).step t table false).2.passHidden t =
        (m.step t table false).2.passHidden t := by
  obtain ⟨input, stack, finished⟩ := m
  cases finished with
  | true => exact ⟨rfl, by simp [step, passHidden]⟩
  | false =>
    rcases stack with - | ⟨s | rule, below⟩
    case cons.close => exact ⟨rfl, by simp [step, passHidden]⟩
    all_goals
      simp only [step, passHidden, TokenStream.nextHidden_plain, TokenStream.dropHidden_dropHidden,
        Bool.false_eq_true, if_false, and_self]

/-- A machine that passes over hidden tokens reports none. -/
theorem isHidden_step {m : Predictive} (hlast : t.isHidden m.input.last.symbol = false) :
    (m.step t table false).1.isHidden t = false := by
  obtain ⟨e, m', hstep, hmoves⟩ := exists_moves t table false m
  rw [hstep]
  cases hmoves with
  | rest | close | expand | skip | leftOver | finish => rfl
  | hidden _ _ next => exact absurd (TokenStream.nextHidden_some next).1 Bool.false_ne_true
  | take _ _ next => exact TokenStream.isHidden_current hlast next

/-- A machine that shows hidden tokens shows one, or does what it does when it passes over them. -/
theorem step_shown (t : Tables) (table : PredictionTable) (m : Predictive) :
    (∃ tok input, m.input.nextHidden t true = (some tok, input) ∧
      m.step t table true = (.terminal tok, { m with input })) ∨
        m.step t table true = m.step t table false := by
  obtain ⟨input, stack, finished⟩ := m
  cases finished with
  | true => exact .inr rfl
  | false =>
    rcases stack with - | ⟨s | rule, below⟩
    case cons.close => exact .inr rfl
    all_goals
      cases hn : input.nextHidden t true with
      | mk tok? input' =>
        cases tok? with
        | some tok => exact .inl ⟨tok, input', rfl, step_hidden (by simp) hn⟩
        | none =>
          obtain ⟨rfl, hdrop⟩ := TokenStream.dropHidden_of_none hn
          refine .inr ?_
          simp only [step, hn, TokenStream.nextHidden_plain, hdrop]

end Predictive

namespace ShiftReduce

variable {table : ShiftReduceTable}

/-- Hidden tokens at the front make no difference to a machine that passes over them. -/
theorem step_passHidden (t : Tables) (table : ShiftReduceTable) (m : ShiftReduce) :
    ((m.passHidden t).step t table false).1 = (m.step t table false).1 ∧
      ((m.passHidden t).step t table false).2.passHidden t =
        (m.step t table false).2.passHidden t := by
  obtain ⟨input, states, phase⟩ := m
  cases phase with
  | accepted | done => exact ⟨rfl, by simp [step, passHidden]⟩
  | running =>
    have hstep : step t table false (passHidden t ⟨input, states, .running⟩) =
        step t table false ⟨input, states, .running⟩ := by
      simp only [step, passHidden, TokenStream.nextHidden_plain, TokenStream.dropHidden_dropHidden]
    rw [hstep]
    exact ⟨rfl, rfl⟩

/-- A machine that passes over hidden tokens reports none. -/
theorem isHidden_step {m : ShiftReduce} (hlast : t.isHidden m.input.last.symbol = false) :
    (m.step t table false).1.isHidden t = false := by
  obtain ⟨e, m', hstep, hmoves⟩ := exists_moves t table false m
  rw [hstep]
  cases hmoves with
  | rest | reduce | giveUp | accept | skip => rfl
  | hidden _ next => exact absurd (TokenStream.nextHidden_some next).1 Bool.false_ne_true
  | shift _ next => exact TokenStream.isHidden_current hlast next

/-- A machine that shows hidden tokens shows one, or does what it does when it passes over them. -/
theorem step_shown (t : Tables) (table : ShiftReduceTable) (m : ShiftReduce) :
    (∃ tok input, m.input.nextHidden t true = (some tok, input) ∧
      m.step t table true = (.shift tok, { m with input })) ∨
        m.step t table true = m.step t table false := by
  obtain ⟨input, states, phase⟩ := m
  cases phase with
  | accepted | done => exact .inr rfl
  | running =>
    cases hn : input.nextHidden t true with
    | mk tok? input' =>
      cases tok? with
      | some tok =>
        refine .inl ⟨tok, input', rfl, ?_⟩
        simp only [step, hn]
      | none =>
        obtain ⟨rfl, hdrop⟩ := TokenStream.dropHidden_of_none hn
        refine .inr ?_
        simp only [step, hn, TokenStream.nextHidden_plain, hdrop]

end ShiftReduce

namespace Machine

/-- The end of the stream stays where it is. -/
theorem last_step (t : Tables) (showHidden : Bool) (m : Machine) :
    (m.step t showHidden).2.input.last = m.input.last := by
  cases m with
  | predictive table m => exact m.last_step t table showHidden
  | shiftReduce table m => exact m.last_step t table showHidden

/-- Machines that differ in hidden tokens at the front take the same steps while they pass over
them. -/
theorem step_eq_of_passHidden {m m' : Machine} (h : m.passHidden t = m'.passHidden t) :
    (m.step t false).1 = (m'.step t false).1 ∧
      (m.step t false).2.passHidden t = (m'.step t false).2.passHidden t := by
  have hstep : ∀ m : Machine, ((m.passHidden t).step t false).1 = (m.step t false).1 ∧
      ((m.passHidden t).step t false).2.passHidden t = (m.step t false).2.passHidden t := by
    rintro (⟨table, m⟩ | ⟨table, m⟩)
    · obtain ⟨hevent, hnext⟩ := Predictive.step_passHidden t table m
      exact ⟨hevent, congrArg (Machine.predictive table) hnext⟩
    · obtain ⟨hevent, hnext⟩ := ShiftReduce.step_passHidden t table m
      exact ⟨hevent, congrArg (Machine.shiftReduce table) hnext⟩
  rw [← (hstep m).1, ← (hstep m).2, h]
  exact hstep m'

/-- A step of a machine that shows hidden tokens shows one and passes it, or it is a step of the
machine that passes over them. -/
theorem step_shown {m : Machine} (hlast : t.isHidden m.input.last.symbol = false) :
    ((m.step t true).1.isHidden t = true ∧ (m.step t true).2.passHidden t = m.passHidden t ∧
        (m.step t true).2.input.ahead.length < m.input.ahead.length) ∨
      ((m.step t true).1.isHidden t = false ∧ m.step t true = m.step t false) := by
  have hshown : ∀ {s s' : TokenStream} {tok : Token}, s.nextHidden t true = (some tok, s') →
      t.isHidden tok.symbol = true ∧ s'.dropHidden t = s.dropHidden t ∧
        s'.ahead.length < s.ahead.length := by
    intro s s' tok h
    obtain ⟨-, hhidden, hpass⟩ := TokenStream.nextHidden_some h
    refine ⟨hhidden, TokenStream.dropHidden_of_shown h, ?_⟩
    rw [hpass.length_eq, List.length_singleton]
    omega
  cases m with
  | predictive table m =>
    rcases m.step_shown t table with ⟨tok, input, next, hstep⟩ | hstep
    · obtain ⟨hhidden, hdrop, hlength⟩ := hshown next
      rw [step_predictive hstep]
      refine .inl ⟨hhidden, ?_, hlength⟩
      rw [passHidden, passHidden, Predictive.passHidden, hdrop, Predictive.passHidden]
    · refine .inr ⟨?_, by rw [step, step, hstep]⟩
      rw [step, hstep]
      exact Predictive.isHidden_step hlast
  | shiftReduce table m =>
    rcases m.step_shown t table with ⟨tok, input, next, hstep⟩ | hstep
    · obtain ⟨hhidden, hdrop, hlength⟩ := hshown next
      rw [step_shiftReduce hstep]
      refine .inl ⟨hhidden, ?_, hlength⟩
      rw [passHidden, passHidden, ShiftReduce.passHidden, hdrop, ShiftReduce.passHidden]
    · refine .inr ⟨?_, by rw [step, step, hstep]⟩
      rw [step, hstep]
      exact ShiftReduce.isHidden_step hlast

end Machine

/-! ### Engines -/

namespace Engine

variable {e e' : Engine}

/-- The document ends after `n` events if the next read reports the end and none of them is the
end. -/
theorem endsAfter_iff {n : Nat} :
    EndsAfter t n e ↔ (e.reads t (n + 1)).event = .endDocument ∧ .endDocument ∉ e.events t n := by
  rw [EndsAfter, ended, decide_eq_true_eq]
  refine and_congr_right fun _ => ?_
  rw [mem_events]
  constructor
  · rintro h ⟨k, hk, hend⟩
    have := h k hk
    rw [ended, hend] at this
    cases this
  · intro h k hk
    exact decide_eq_false fun hend => h ⟨k, hk, hend⟩

/-- The events that are not about hidden tokens. -/
def visible (t : Tables) (events : List Event) : List Event :=
  events.filter fun ev => !ev.isHidden t

theorem visible_append (a b : List Event) : visible t (a ++ b) = visible t a ++ visible t b :=
  List.filter_append ..

theorem visible_cons_hidden {ev : Event} (h : ev.isHidden t = true) (events : List Event) :
    visible t (ev :: events) = visible t events :=
  List.filter_cons_of_neg (by rw [h]; exact Bool.false_ne_true)

theorem visible_cons_shown {ev : Event} (h : ev.isHidden t = false) (events : List Event) :
    visible t (ev :: events) = ev :: visible t events :=
  List.filter_cons_of_pos (by rw [h]; rfl)

/-- `e` shows hidden tokens, `e'` passes over them, and else they are at the same place. -/
structure Shadows (t : Tables) (e e' : Engine) : Prop where
  shown : e.showHidden = true
  plain : e'.showHidden = false
  same : e.machine.passHidden t = e'.machine.passHidden t
  last : t.isHidden e.machine.input.last.symbol = false

namespace Shadows

/-- Whether hidden tokens are shown makes no difference to the machine at the start. -/
theorem start {strategy : Strategy} {source : String} (hvisible : t.isHidden t.endOfStream = false)
    (h : Engine.start t strategy true source = .ok e)
    (h' : Engine.start t strategy false source = .ok e') : Shadows t e e' := by
  obtain ⟨hinput, hshow, -⟩ := start_eq h
  have hmachine := machine_of_start h
  rw [machine_of_start h', Except.ok.injEq] at hmachine
  refine ⟨hshow, (start_eq h').2.1, by rw [hmachine], ?_⟩
  rw [hinput, show (TokenStream.ofSource t source).last.symbol = t.endOfStream from
    (TokenStream.symbol_ofScanner _).1, hvisible]

/-- A read shows a hidden token, and then the other engine waits, or both engines read the same
event. -/
theorem read (h : Shadows t e e') :
    ((e.read t).event.isHidden t = true ∧ Shadows t (e.read t) e' ∧
        (e.read t).machine.input.ahead.length < e.machine.input.ahead.length) ∨
      ((e.read t).event.isHidden t = false ∧ (e.read t).event = (e'.read t).event ∧
        Shadows t (e.read t) (e'.read t)) := by
  obtain ⟨shown, plain, same, last⟩ := h
  have hlast : t.isHidden (e.read t).machine.input.last.symbol = false := by
    rw [machine_read, Machine.last_step, last]
  have hread := Machine.step_shown last
  rw [← congrArg (e.machine.step t) shown, ← event_read, ← machine_read] at hread
  rcases hread with ⟨hhidden, hpass, hlength⟩ | ⟨hvisible, hstep⟩
  · exact .inl ⟨hhidden, ⟨shown, plain, hpass.trans same, hlast⟩, hlength⟩
  · obtain ⟨hevent, hnext⟩ := Machine.step_eq_of_passHidden same
    rw [← hstep, ← congrArg (e'.machine.step t) plain, ← event_read, ← event_read] at hevent
    rw [← hstep, ← congrArg (e'.machine.step t) plain, ← machine_read, ← machine_read] at hnext
    exact .inr ⟨hvisible, hevent, shown, plain, hnext, hlast⟩

/-- Up to some read the other engine has read the events that are not about hidden tokens. -/
theorem reads (h : Shadows t e e') (n : Nat) :
    ∃ k ≤ n, visible t (e.events t n) = e'.events t k ∧ Shadows t (e.reads t n) (e'.reads t k) := by
  induction n generalizing e e' with
  | zero => exact ⟨0, Nat.le_refl 0, rfl, h⟩
  | succ n ih =>
    rcases h.read with ⟨hhidden, hnext, -⟩ | ⟨hvisible, hevent, hnext⟩
    · obtain ⟨k, hk, hevents, hreads⟩ := ih hnext
      refine ⟨k, by omega, ?_, hreads⟩
      rw [events, visible_cons_hidden hhidden, hevents]
    · obtain ⟨k, hk, hevents, hreads⟩ := ih hnext
      refine ⟨k + 1, by omega, ?_, hreads⟩
      rw [events, visible_cons_shown hvisible, hevents, hevent, events]

/-- After some hidden tokens a read shows none. -/
theorem exists_visible (h : Shadows t e e') :
    ∃ n, visible t (e.events t n) = [] ∧ Shadows t (e.reads t n) e' ∧
      (e.reads t (n + 1)).event.isHidden t = false := by
  -- a read that shows a hidden token passes it
  induction hlength : e.machine.input.ahead.length using Nat.strongRecOn generalizing e with
  | ind length ih =>
    rcases h.read with ⟨hhidden, hnext, hlt⟩ | ⟨hvisible, -⟩
    · obtain ⟨n, hevents, hreads, hvisible⟩ := ih _ (hlength ▸ hlt) hnext rfl
      refine ⟨n + 1, ?_, hreads, hvisible⟩
      rw [events, visible_cons_hidden hhidden, hevents]
    · exact ⟨0, rfl, h, hvisible⟩

/-- Up to any read of the other engine some reads read the same events and those of hidden tokens,
and the next read shows none. -/
theorem exists_reads (h : Shadows t e e') (k : Nat) :
    ∃ n, visible t (e.events t n) = e'.events t k ∧ Shadows t (e.reads t n) (e'.reads t k) ∧
      (e.reads t (n + 1)).event.isHidden t = false := by
  induction k generalizing e e' with
  | zero => exact h.exists_visible
  | succ k ih =>
    obtain ⟨n, hevents, hreads, hvisible⟩ := h.exists_visible
    rcases hreads.read with ⟨hhidden, -⟩ | ⟨-, hevent, hnext⟩
    · rw [reads_succ, hhidden] at hvisible
      cases hvisible
    · obtain ⟨m, hevents', hreads', hvisible'⟩ := ih hnext
      have hadd : e.reads t (n + 1 + m) = ((e.reads t n).read t).reads t m := by
        rw [reads_add, reads_succ]
      refine ⟨n + 1 + m, ?_, by rw [hadd]; exact hreads', ?_⟩
      · rw [reads_succ] at hvisible
        rw [events_add, events_succ, reads_succ, visible_append, visible_append, hevents, hevents',
          visible_cons_shown hvisible, hevent, events]
        rfl
      · rw [reads_succ, hadd, ← reads_succ]
        exact hvisible'

/-- One engine ends if the other does, and then both have read the same events but for those of
hidden tokens. -/
theorem endsAfter (h : Shadows t e e') :
    (∀ n, EndsAfter t n e → ∃ k, EndsAfter t k e' ∧ visible t (e.events t n) = e'.events t k) ∧
      ∀ k, EndsAfter t k e' → ∃ n, EndsAfter t n e ∧ visible t (e.events t n) = e'.events t k := by
  have hmem : ∀ events : List Event, .endDocument ∈ events ↔ .endDocument ∈ visible t events := by
    intro events
    rw [visible, List.mem_filter]
    exact (and_iff_left rfl).symm
  have hevent : ∀ {n k : Nat}, Shadows t (e.reads t n) (e'.reads t k) →
      (e.reads t (n + 1)).event.isHidden t = false →
      (e.reads t (n + 1)).event = (e'.reads t (k + 1)).event := by
    intro n k hreads hvisible
    rw [reads_succ] at hvisible
    rcases hreads.read with ⟨hhidden, -⟩ | ⟨-, hevent, -⟩
    · rw [hvisible] at hhidden
      cases hhidden
    · rw [reads_succ, reads_succ, hevent]
  constructor
  · intro n hn
    obtain ⟨k, -, hevents, hreads⟩ := h.reads n
    rw [endsAfter_iff] at hn
    refine ⟨k, endsAfter_iff.2 ⟨?_, ?_⟩, hevents⟩
    · rw [← hevent hreads (by rw [hn.1]; rfl), hn.1]
    · rw [← hevents, ← hmem]
      exact hn.2
  · intro k hk
    obtain ⟨n, hevents, hreads, hvisible⟩ := h.exists_reads k
    rw [endsAfter_iff] at hk
    refine ⟨n, endsAfter_iff.2 ⟨?_, ?_⟩, hevents⟩
    · rw [hevent hreads hvisible, hk.1]
    · rw [hmem, hevents]
      exact hk.2

end Shadows

end Engine

end TableParser
