import TableParser.Engine.Basic
/-!
Reading on.

`Engine.reads t n e` is the engine after `n` reads and `Engine.events t n e` the events of these
reads. A run collects the events before the first end of the document; `Emits` says which events
some steps of a machine report, and a measure that every step before the end makes smaller bounds
their number.

Main statements: `Engine.run_eq` (what a run that has room collects) and `Emits.ends` (a machine
with such a measure ends).
-/

namespace TableParser

theorem Event.error?_eq_some {ev : Event} {err : SyntaxError} :
    ev.error? = some err ↔ ev = .error err := by
  cases ev <;> simp [error?]

/-! ### Steps in a row -/

/-- The events that some steps in a row report. -/
inductive Emits {σ : Type} (step : σ → Event × σ) : σ → List Event → σ → Prop where
  | nil (m : σ) : Emits step m [] m
  | cons {m m' m'' : σ} {e : Event} {es : List Event} (first : step m = (e, m'))
      (rest : Emits step m' es m'') : Emits step m (e :: es) m''

namespace Emits

variable {σ : Type} {step : σ → Event × σ} {m m' m'' : σ} {es es' : List Event}

theorem single {e : Event} (h : step m = (e, m')) : Emits step m [e] m' := .cons h (.nil m')

theorem append (h : Emits step m es m') (h' : Emits step m' es' m'') :
    Emits step m (es ++ es') m'' := by
  induction h with
  | nil => exact h'
  | cons first _ ih => exact .cons first (ih h')

/-- The last of some steps. -/
theorem split_last {e : Event} (h : Emits step m (es ++ [e]) m') :
    ∃ m₁, Emits step m es m₁ ∧ step m₁ = (e, m') := by
  induction es generalizing m with
  | nil =>
    cases h with
    | cons first rest =>
      cases rest
      exact ⟨m, .nil m, first⟩
  | cons e' es ih =>
    cases h with
    | cons first rest =>
      obtain ⟨m₁, hm₁, hlast⟩ := ih rest
      exact ⟨m₁, .cons first hm₁, hlast⟩

/-- A machine inside another one takes its steps there. -/
theorem map {τ : Type} {step' : τ → Event × τ} {f : σ → τ}
    (hf : ∀ m, step' (f m) = ((step m).1, f (step m).2)) (h : Emits step m es m') :
    Emits step' (f m) es (f m') := by
  induction h with
  | nil m => exact .nil (f m)
  | cons first _ ih => exact .cons (by rw [hf, first]) ih

/-- Where every step before the end makes a measure smaller, steps in a row reach the end, and there
are no more of them than the measure says. -/
theorem ends (inv : σ → Prop) (μ : σ → Nat) (hinv : ∀ m, inv m → inv (step m).2)
    (hμ : ∀ m, inv m → (step m).1 ≠ .endDocument → μ (step m).2 < μ m) (m : σ) (hm : inv m) :
    ∃ es m', Emits step m es m' ∧ .endDocument ∉ es ∧ (step m').1 = .endDocument ∧
      es.length ≤ μ m := by
  induction hn : μ m using Nat.strongRecOn generalizing m with
  | ind n ih =>
    by_cases he : (step m).1 = .endDocument
    · exact ⟨[], m, .nil m, by simp, he, by simp⟩
    · have hlt := hμ m hm he
      obtain ⟨es, m', hes, hend, hlast, hlen⟩ := ih _ (hn ▸ hlt) (step m).2 (hinv m hm) rfl
      refine ⟨(step m).1 :: es, m', .cons rfl hes, ?_, hlast, ?_⟩
      · simpa [Ne.symm he] using hend
      · rw [List.length_cons]
        omega

end Emits

namespace Engine

variable {t : Tables} {e : Engine}

/-! ### Reads -/

/-- The engine after some reads. -/
def reads (t : Tables) : Nat → Engine → Engine
  | 0, e => e
  | n + 1, e => reads t n (e.read t)

/-- The events of some reads. -/
def events (t : Tables) : Nat → Engine → List Event
  | 0, _ => []
  | n + 1, e => (e.read t).event :: events t n (e.read t)

@[simp] theorem showHidden_read (t : Tables) (e : Engine) :
    (e.read t).showHidden = e.showHidden := rfl

theorem machine_read (t : Tables) (e : Engine) :
    (e.read t).machine = (e.machine.step t e.showHidden).2 := rfl

theorem event_read (t : Tables) (e : Engine) :
    (e.read t).event = (e.machine.step t e.showHidden).1 := rfl

theorem reads_succ (t : Tables) (n : Nat) :
    ∀ e : Engine, e.reads t (n + 1) = (e.reads t n).read t := by
  induction n with
  | zero => intro e; rfl
  | succ n ih => intro e; exact ih (e.read t)

@[simp] theorem showHidden_reads (t : Tables) (n : Nat) :
    ∀ e : Engine, (e.reads t n).showHidden = e.showHidden := by
  induction n with
  | zero => intro e; rfl
  | succ n ih => intro e; exact ih (e.read t)

theorem events_succ (t : Tables) (n : Nat) :
    ∀ e : Engine, e.events t (n + 1) = e.events t n ++ [(e.reads t (n + 1)).event] := by
  induction n with
  | zero => intro e; rfl
  | succ n ih => intro e; rw [events, ih, events, List.cons_append]; rfl

/-- Reading on after some reads. -/
theorem reads_add (t : Tables) (n k : Nat) :
    ∀ e : Engine, e.reads t (n + k) = (e.reads t n).reads t k := by
  induction n with
  | zero => intro e; rw [Nat.zero_add]; rfl
  | succ n ih => intro e; rw [Nat.add_right_comm]; exact ih (e.read t)

theorem events_add (t : Tables) (n k : Nat) :
    ∀ e : Engine, e.events t (n + k) = e.events t n ++ (e.reads t n).events t k := by
  induction n with
  | zero => intro e; rw [Nat.zero_add]; rfl
  | succ n ih => intro e; rw [Nat.add_right_comm, events, ih, events, List.cons_append]; rfl

theorem mem_events {n : Nat} {ev : Event} :
    ∀ {e : Engine}, ev ∈ e.events t n ↔ ∃ k < n, (e.reads t (k + 1)).event = ev := by
  induction n with
  | zero => intro e; simp [events]
  | succ n ih =>
    intro e
    rw [events, List.mem_cons, ih]
    constructor
    · rintro (rfl | ⟨k, hk, rfl⟩)
      · exact ⟨0, by omega, rfl⟩
      · exact ⟨k + 1, by omega, rfl⟩
    · rintro ⟨k, hk, rfl⟩
      cases k with
      | zero => exact .inl rfl
      | succ k => exact .inr ⟨k, by omega, rfl⟩

/-- A read of a predictive engine is a step. -/
theorem reads_predictive {table : PredictionTable} {m : Predictive} {n : Nat}
    (hm : (e.reads t n).machine = .predictive table m) :
    (e.reads t (n + 1)).event = (m.step t table e.showHidden).1 ∧
      (e.reads t (n + 1)).machine = .predictive table (m.step t table e.showHidden).2 := by
  rw [reads_succ, event_read, machine_read, hm, showHidden_reads]
  exact ⟨rfl, rfl⟩

/-- A read of a shift-reduce engine is a step. -/
theorem reads_shiftReduce {table : ShiftReduceTable} {m : ShiftReduce} {n : Nat}
    (hm : (e.reads t n).machine = .shiftReduce table m) :
    (e.reads t (n + 1)).event = (m.step t table e.showHidden).1 ∧
      (e.reads t (n + 1)).machine = .shiftReduce table (m.step t table e.showHidden).2 := by
  rw [reads_succ, event_read, machine_read, hm, showHidden_reads]
  exact ⟨rfl, rfl⟩

/-- Reads keep the strategy and its table. -/
theorem machine_reads {table : ShiftReduceTable} {m : ShiftReduce}
    (h : e.machine = .shiftReduce table m) (n : Nat) :
    ∃ m', (e.reads t n).machine = .shiftReduce table m' := by
  induction n with
  | zero => exact ⟨m, h⟩
  | succ n ih =>
    obtain ⟨m', hm'⟩ := ih
    exact ⟨_, (reads_shiftReduce hm').2⟩

/-- Reads follow the steps of the machine. -/
theorem reads_of_emits {machine : Machine} {es : List Event}
    (h : Emits (Machine.step t e.showHidden) e.machine es machine) :
    e.events t es.length = es ∧ (e.reads t es.length).machine = machine ∧
      (e.reads t es.length).showHidden = e.showHidden := by
  induction es generalizing e with
  | nil => cases h; exact ⟨rfl, rfl, rfl⟩
  | cons ev es ih =>
    cases h with
    | @cons _ next _ _ _ first rest =>
      have hm : (e.read t).machine = next := by rw [machine_read, first]
      rw [← hm, ← showHidden_read t e] at rest
      obtain ⟨hev, hmachine, hshow⟩ := ih rest
      refine ⟨?_, hmachine, hshow⟩
      rw [List.length_cons, events, hev, event_read, first]

/-! ### A whole run -/

/-- A document ends after `n` events: the next read reports the end and none before does. -/
def EndsAfter (t : Tables) (n : Nat) (e : Engine) : Prop :=
  (e.reads t (n + 1)).ended = true ∧ ∀ k < n, (e.reads t (k + 1)).ended = false

/-- A document ends in one place. -/
theorem EndsAfter.unique {n k : Nat} (h : EndsAfter t n e) (h' : EndsAfter t k e) : n = k := by
  rcases Nat.lt_trichotomy n k with hlt | heq | hlt
  · exact absurd h.1 (by simp [h'.2 n hlt])
  · exact heq
  · exact absurd h'.1 (by simp [h.2 k hlt])

/-- The read after the last event reports the end. -/
theorem events_of_endsAfter {n : Nat} (h : EndsAfter t n e) :
    e.events t (n + 1) = e.events t n ++ [.endDocument] := by
  have hend : (e.reads t (n + 1)).event = .endDocument := of_decide_eq_true h.1
  rw [events_succ, hend]

theorem endsAfter_of_emits {machine : Machine} {es : List Event}
    (h : Emits (Machine.step t e.showHidden) e.machine es machine) (hes : .endDocument ∉ es)
    (hend : (machine.step t e.showHidden).1 = .endDocument) : EndsAfter t es.length e := by
  obtain ⟨hev, hm, hs⟩ := reads_of_emits h
  constructor
  · rw [reads_succ, ended, event_read, hm, hs, hend]
    rfl
  · intro k hk
    rw [ended, decide_eq_false_iff_not]
    intro he
    exact hes (hev ▸ mem_events.2 ⟨k, hk, he⟩)

/-- Steps that do not report the end come before it. -/
theorem length_le_of_emits {machine : Machine} {es : List Event}
    (h : Emits (Machine.step t e.showHidden) e.machine es machine)
    (hes : .endDocument ∉ es) {n : Nat} (hn : EndsAfter t n e) : es.length ≤ n := by
  refine Nat.le_of_not_lt fun hlt => hes ?_
  rw [← (reads_of_emits h).1]
  exact mem_events.2 ⟨n, hlt, of_decide_eq_true hn.1⟩

theorem collect_eq {n : Nat} :
    ∀ {limit : Nat} {e : Engine} (done : List Event), EndsAfter t n e → n < limit →
      collect t limit done e = (done.reverse ++ e.events t n, e.reads t (n + 1)) := by
  induction n with
  | zero =>
    intro limit e done hend hlt
    obtain ⟨limit, rfl⟩ := Nat.exists_eq_add_of_lt hlt
    have h0 : (e.read t).ended = true := hend.1
    rw [collect, if_pos h0, events, List.append_nil]
    rfl
  | succ n ih =>
    intro limit e done hend hlt
    obtain ⟨limit, rfl⟩ : ∃ k, limit = k + 1 := ⟨limit - 1, by omega⟩
    have h0 : (e.read t).ended = false := hend.2 0 (by omega)
    have hrest : EndsAfter t n (e.read t) := ⟨hend.1, fun k hk => hend.2 (k + 1) (by omega)⟩
    rw [collect, if_neg (by simp [h0]), ih _ hrest (by omega), events]
    simp [reads]

/-- A run with room for its events collects them and stops at the end. -/
theorem run_eq {n : Nat} (h : EndsAfter t n e) (hn : n < e.limit) :
    e.run t = (e.events t n, e.reads t (n + 1)) := by
  rw [run, collect_eq [] h hn]
  rfl

/-- Reading within a limit comes to the end of the document or uses the limit up. -/
theorem collect_ended {limit : Nat} :
    ∀ {e : Engine} (done : List Event), (collect t (limit + 1) done e).2.ended = true →
      ∃ n < limit + 1, EndsAfter t n e := by
  induction limit with
  | zero =>
    intro e done h
    rw [collect] at h
    by_cases hend : (e.read t).ended = true
    · exact ⟨0, by omega, hend, by omega⟩
    · rw [if_neg hend] at h
      exact absurd h hend
  | succ limit ih =>
    intro e done h
    by_cases hend : (e.read t).ended = true
    · exact ⟨0, by omega, hend, by omega⟩
    · rw [collect, if_neg hend] at h
      obtain ⟨n, hn, hfirst, hbefore⟩ := ih _ h
      refine ⟨n + 1, by omega, hfirst, fun k hk => ?_⟩
      cases k with
      | zero => exact Bool.eq_false_iff.2 hend
      | succ k => exact hbefore k (by omega)

/-- A run that stops at the end has collected the events before it. -/
theorem run_ended (h : (e.run t).2.ended = true) :
    ∃ n, EndsAfter t n e ∧ e.run t = (e.events t n, e.reads t (n + 1)) := by
  obtain ⟨limit, hlimit⟩ : ∃ limit, e.limit = limit + 1 :=
    ⟨e.limit - 1, by rw [Engine.limit]; omega⟩
  rw [run, hlimit] at h
  obtain ⟨n, hn, hends⟩ := collect_ended [] h
  exact ⟨n, hends, run_eq hends (hlimit ▸ hn)⟩

/-! ### The engines there are -/

/-- The engines that can be made of the tables by the operations on engines. -/
inductive Reachable (t : Tables) : Engine → Prop where
  | start {strategy : Strategy} {showHidden : Bool} {source : String} {e : Engine}
      (h : Engine.start t strategy showHidden source = .ok e) : Reachable t e
  | read {e : Engine} (h : Reachable t e) : Reachable t (e.read t)
  | restart {e : Engine} (source : String) (h : Reachable t e) : Reachable t (e.restart t source)
  | withHidden {e : Engine} (on : Bool) (h : Reachable t e) : Reachable t (e.withHidden on)

theorem Reachable.reads (h : Reachable t e) (n : Nat) : Reachable t (e.reads t n) := by
  induction n with
  | zero => exact h
  | succ n ih => rw [reads_succ]; exact ih.read

end Engine

end TableParser
