import TableParser.Proofs.Engine.Moves
import TableParser.Proofs.Engine.Reading
import TableParser.Proofs.Engine.StackPath
import TableParser.Proofs.Token.Source
/-!
The input that a step passes.

Each step of an engine takes some tokens off its input and reports them: as a token that was
matched, shifted or shown, or as an error over all that was passed. A step that carries no text
passes nothing but hidden tokens, and these only when they are not shown. So while hidden tokens are
shown the texts of the events are those of the passed tokens, in order.

Main statements: `Engine.passes_reads`, `Engine.ahead_of_ended` (a document that is over has no
input left unless it was given up) and `Engine.reads_of_ended` (the end is final).
-/

namespace TableParser

open TokenStream (Passes)

/-- What a step passes and what its event says of it. Hidden tokens that are not shown are passed
without a word; the tokens after them are those that the event carries, and it is at the first of
them. -/
inductive Reports (t : Tables) (showHidden : Bool) (s s' : TokenStream) (e : Event) : Prop where
  | quiet {hs : List Token} (unseen : Passes hs s s')
      (hidden : ∀ tok ∈ hs, t.isHidden tok.symbol = true) (none : showHidden = true → hs = [])
      (silent : e.value? = .none)
  | loud {hs ts : List Token} {middle : TokenStream} (unseen : Passes hs s middle)
      (hidden : ∀ tok ∈ hs, t.isHidden tok.symbol = true) (none : showHidden = true → hs = [])
      (carried : Passes ts middle s') (value : e.value? = some (String.join (ts.map Token.text)))
      (position : e.position? = some middle.current.position)

/-- An event without text passes hidden tokens that are not shown, and an event with text has the
text of what it passes if hidden tokens are shown. -/
theorem Reports.exists_passed {t : Tables} {showHidden : Bool} {s s' : TokenStream} {e : Event}
    (h : Reports t showHidden s s' e) : ∃ ts, Passes ts s s' ∧
      (e.value? = none → (∀ tok ∈ ts, t.isHidden tok.symbol = true) ∧
        (showHidden = true → ts = [])) ∧
      (showHidden = true → e.value?.getD "" = String.join (ts.map Token.text)) := by
  cases h with
  | quiet unseen hidden none silent =>
    refine ⟨_, unseen, fun _ => ⟨hidden, none⟩, fun hshow => ?_⟩
    rw [silent, none hshow]
    rfl
  | @loud hs ts middle unseen hidden none carried value position =>
    refine ⟨_, unseen.trans carried, fun hsilent => ?_, fun hshow => ?_⟩
    · rw [value] at hsilent
      cases hsilent
    · rw [value, none hshow]
      rfl

/-- The token at hand is passed by taking it. At the end, the empty last token is taken and
stays. -/
theorem TokenStream.join_taken {s : TokenStream} (hlast : s.last.text = "") :
    String.join ((s.ahead.take 1).map Token.text) = s.current.text := by
  cases hahead : s.ahead with
  | nil => simp [current_of_nil hahead, hlast]
  | cons tok later => simp [current_of_cons hahead]

/-- The hidden token that is shown is at hand. -/
theorem TokenStream.reports_shown {t : Tables} {showHidden : Bool} {s s' : TokenStream}
    {tok : Token} {e : Event} (next : s.nextHidden t showHidden = (some tok, s'))
    (value : e.value? = some tok.text)
    (position : e.position? = some tok.position) : Reports t showHidden s s' e := by
  obtain ⟨-, -, hpass⟩ := nextHidden_some next
  refine .loud (.refl s) (by simp) (fun _ => rfl) hpass (by simp [value]) ?_
  rw [position, current_of_cons hpass.1]

theorem TokenStream.mem_of_nextHidden {t : Tables} {showHidden : Bool} {s s' : TokenStream}
    {tok : Token} (next : s.nextHidden t showHidden = (some tok, s')) : tok ∈ s.tokens := by
  obtain ⟨-, -, hpass⟩ := nextHidden_some next
  rw [tokens, hpass.1]
  simp

namespace Predictive

/-- A step reports what it passes. -/
theorem reports_step {t : Tables} {table : PredictionTable} {showHidden : Bool} {m : Predictive}
    (hlast : m.input.last.text = "") :
    Reports t showHidden m.input (m.step t table showHidden).2.input
      (m.step t table showHidden).1 := by
  obtain ⟨e, m', hstep, hmoves⟩ := exists_moves t table showHidden m
  rw [hstep]
  cases hmoves with
  | rest | close => exact .quiet (.refl _) (by simp) (fun _ => rfl) rfl
  | hidden _ _ next => exact TokenStream.reports_shown next rfl rfl
  | expand _ _ next | finish _ _ next =>
    obtain ⟨hs, hpass, hhidden, hhs, -⟩ := TokenStream.nextHidden_none next
    exact .quiet hpass hhidden hhs rfl
  | @take s below input _ _ next =>
    obtain ⟨hs, hpass, hhidden, hhs, -⟩ := TokenStream.nextHidden_none next
    refine .loud hpass hhidden hhs input.passes_advance ?_ rfl
    rw [TokenStream.join_taken (hpass.2 ▸ hlast)]
    rfl
  | @skip _ _ input _ sync _ _ next =>
    obtain ⟨hs, hpass, hhidden, hhs, -⟩ := TokenStream.nextHidden_none next
    exact .loud hpass hhidden hhs (input.recover_passes sync) rfl rfl
  | @leftOver input _ _ next =>
    obtain ⟨hs, hpass, hhidden, hhs, -⟩ := TokenStream.nextHidden_none next
    exact .loud hpass hhidden hhs (input.recover_passes _) rfl rfl

/-- A token that is matched or shown is one of the input. -/
theorem token_mem_step {t : Tables} {table : PredictionTable} {showHidden : Bool} {m : Predictive}
    {tok : Token} (h : (m.step t table showHidden).1.token? = some tok) : tok ∈ m.input.tokens := by
  obtain ⟨e, m', hstep, hmoves⟩ := exists_moves t table showHidden m
  rw [hstep] at h
  cases hmoves with
  | hidden _ _ next => cases h; exact TokenStream.mem_of_nextHidden next
  | take _ _ next =>
    cases h
    obtain ⟨_, hpass, -⟩ := TokenStream.nextHidden_none next
    exact hpass.tokens_subset (TokenStream.current_mem_tokens _)
  | rest | close | expand | skip | leftOver | finish => cases h

end Predictive

namespace ShiftReduce

/-- A step reports what it passes. -/
theorem reports_step {t : Tables} {table : ShiftReduceTable} {showHidden : Bool} {m : ShiftReduce}
    (hlast : m.input.last.text = "") :
    Reports t showHidden m.input (m.step t table showHidden).2.input
      (m.step t table showHidden).1 := by
  obtain ⟨e, m', hstep, hmoves⟩ := exists_moves t table showHidden m
  rw [hstep]
  cases hmoves with
  | rest => exact .quiet (.refl _) (by simp) (fun _ => rfl) rfl
  | hidden _ next => exact TokenStream.reports_shown next rfl rfl
  | reduce _ next | accept _ next =>
    obtain ⟨hs, hpass, hhidden, hhs, -⟩ := TokenStream.nextHidden_none next
    exact .quiet hpass hhidden hhs rfl
  | giveUp _ next =>
    obtain ⟨hs, hpass, hhidden, hhs, -⟩ := TokenStream.nextHidden_none next
    exact .loud hpass hhidden hhs (.refl _) rfl rfl
  | @shift input _ _ next =>
    obtain ⟨hs, hpass, hhidden, hhs, -⟩ := TokenStream.nextHidden_none next
    refine .loud hpass hhidden hhs input.passes_advance ?_ rfl
    rw [TokenStream.join_taken (hpass.2 ▸ hlast)]
    rfl
  | @skip input _ sync _ next =>
    obtain ⟨hs, hpass, hhidden, hhs, -⟩ := TokenStream.nextHidden_none next
    exact .loud hpass hhidden hhs (input.recover_passes sync) rfl rfl

/-- A token that is shifted or shown is one of the input. -/
theorem token_mem_step {t : Tables} {table : ShiftReduceTable} {showHidden : Bool} {m : ShiftReduce}
    {tok : Token} (h : (m.step t table showHidden).1.token? = some tok) : tok ∈ m.input.tokens := by
  obtain ⟨e, m', hstep, hmoves⟩ := exists_moves t table showHidden m
  rw [hstep] at h
  cases hmoves with
  | hidden _ next => cases h; exact TokenStream.mem_of_nextHidden next
  | shift _ next =>
    cases h
    obtain ⟨_, hpass, -⟩ := TokenStream.nextHidden_none next
    exact hpass.tokens_subset (TokenStream.current_mem_tokens _)
  | rest | reduce | giveUp | accept | skip => cases h

/-- A reduction without a way on gives the document up. -/
theorem givesUp_of_hole {t : Tables} {table : ShiftReduceTable} {showHidden : Bool}
    {m : ShiftReduce} {input : TokenStream} {rule : RuleId} (running : m.phase = .running)
    (next : m.input.nextHidden t showHidden = (none, input))
    (action : table.action? (m.top table) input.current.symbol = some (.reduce rule))
    (hole : ∀ r, t.rule? rule = some r →
      (m.states.drop r.rhs.length).head?.bind (fun s => table.goto? s r.lhs) = none) :
    m.GivesUp t table showHidden := by
  refine ⟨running, input, rule, next, action, ?_⟩
  rw [ShiftReduce.reduce]
  cases hr : t.rule? rule with
  | none => exact ⟨{ m with input }, rfl⟩
  | some r =>
    dsimp only
    rw [hole r hr]
    exact ⟨{ m with input, states := m.states.drop r.rhs.length }, rfl⟩

end ShiftReduce

namespace Machine

variable {t : Tables} {showHidden : Bool} {machine : Machine}

theorem step_predictive {table : PredictionTable} {m m' : Predictive} {e : Event}
    (h : m.step t table showHidden = (e, m')) :
    (predictive table m).step t showHidden = (e, predictive table m') := by
  rw [step, h]
  rfl

theorem step_shiftReduce {table : ShiftReduceTable} {m m' : ShiftReduce} {e : Event}
    (h : m.step t table showHidden = (e, m')) :
    (shiftReduce table m).step t showHidden = (e, shiftReduce table m') := by
  rw [step, h]
  rfl

/-- A step reports what it passes. -/
theorem reports_step {m : Machine} (showHidden : Bool) (hlast : m.input.last.text = "") :
    Reports t showHidden m.input (m.step t showHidden).2.input (m.step t showHidden).1 := by
  cases m with
  | predictive table m => exact Predictive.reports_step hlast
  | shiftReduce table m => exact ShiftReduce.reports_step hlast

/-- A step passes the tokens that its event reports. -/
theorem passes_step {m : Machine} (showHidden : Bool) (hlast : m.input.last.text = "") :
    ∃ ts, Passes ts m.input (m.step t showHidden).2.input ∧
      ((m.step t showHidden).1.value? = none →
        (∀ tok ∈ ts, t.isHidden tok.symbol = true) ∧ (showHidden = true → ts = [])) ∧
      (showHidden = true → (m.step t showHidden).1.value?.getD "" =
        String.join (ts.map Token.text)) :=
  (reports_step showHidden hlast).exists_passed

/-! ### The end -/

/-- The next step gives the document up. -/
def GivesUp (t : Tables) (showHidden : Bool) : Machine → Prop
  | .predictive _ _ => False
  | .shiftReduce table m => m.GivesUp t table showHidden

/-- No input is left when the document is over. -/
def Settled : Machine → Prop
  | .predictive _ m => m.finished = true → m.input.ahead = []
  | .shiftReduce _ m => m.phase ≠ .running → m.input.ahead = []

theorem start_cases {strategy : Strategy} {input : TokenStream}
    (h : Machine.start t strategy input = .ok machine) :
    (∃ table, machine = .predictive table (.start t input)) ∨
      ∃ table, machine = .shiftReduce table (.start table input) := by
  cases strategy with
  | predictive =>
    rw [Machine.start] at h
    cases hp : t.getPrediction with
    | error e => rw [hp] at h; cases h
    | ok table => rw [hp] at h; cases h; exact .inl ⟨table, rfl⟩
  | shiftReduce =>
    rw [Machine.start] at h
    cases hp : t.getShiftReduce with
    | error e => rw [hp] at h; cases h
    | ok table => rw [hp] at h; cases h; exact .inr ⟨table, rfl⟩

theorem input_start {strategy : Strategy} {input : TokenStream}
    (h : Machine.start t strategy input = .ok machine) : machine.input = input := by
  rcases start_cases h with ⟨table, rfl⟩ | ⟨table, rfl⟩ <;> rfl

theorem settled_start {strategy : Strategy} {input : TokenStream}
    (h : Machine.start t strategy input = .ok machine) : machine.Settled := by
  rcases start_cases h with ⟨table, rfl⟩ | ⟨table, rfl⟩
  · simp [Settled, Predictive.start]
  · simp [Settled, ShiftReduce.start]

/-- A step that does not give the document up leaves no input behind. -/
theorem settled_step (h : machine.Settled) (hg : ¬ machine.GivesUp t showHidden) :
    (machine.step t showHidden).2.Settled := by
  cases machine with
  | predictive table m =>
    obtain ⟨e, m', hstep, hmoves⟩ := Predictive.exists_moves t table showHidden m
    rw [step_predictive hstep]
    intro hend
    cases hmoves with
    | rest done => exact h done
    | finish _ _ _ empty => exact TokenStream.atEnd_iff.1 empty
    | close running | hidden running | expand running | take running | skip running
    | leftOver running => rw [show m.finished = true from hend] at running; cases running
  | shiftReduce table m =>
    obtain ⟨e, m', hstep, hmoves⟩ := ShiftReduce.exists_moves t table showHidden m
    rw [step_shiftReduce hstep]
    intro hend
    cases hmoves with
    | rest halted => exact h halted
    | accept _ _ _ empty => exact TokenStream.atEnd_iff.1 empty
    | hidden running | shift running | reduce running => exact absurd running hend
    | giveUp running next action hole =>
      exact absurd (ShiftReduce.givesUp_of_hole running next action hole) hg
    | skip running =>
      -- recovery ends the document only at the end of the input
      simp only at hend
      split at hend
      · next hover => exact TokenStream.atEnd_iff.1 (Bool.and_eq_true_iff.1 hover).1
      · exact absurd rfl hend

/-- At the end of the document no input is left. -/
theorem ahead_of_endDocument (h : machine.Settled)
    (hend : (machine.step t showHidden).1 = .endDocument) :
    (machine.step t showHidden).2.input.ahead = [] := by
  cases machine with
  | predictive table m =>
    obtain ⟨e, m', hstep, hmoves⟩ := Predictive.exists_moves t table showHidden m
    rw [step_predictive hstep] at hend ⊢
    cases hmoves with
    | rest done => exact h done
    | finish _ _ _ empty => exact TokenStream.atEnd_iff.1 empty
    | close | hidden | expand | take | skip | leftOver => cases hend
  | shiftReduce table m =>
    obtain ⟨e, m', hstep, hmoves⟩ := ShiftReduce.exists_moves t table showHidden m
    rw [step_shiftReduce hstep] at hend ⊢
    cases hmoves with
    | rest halted => exact h halted
    | hidden | shift | reduce | giveUp | accept | skip => cases hend

/-- The end of the document is final. -/
theorem step_endDocument (hend : (machine.step t showHidden).1 = .endDocument) :
    (machine.step t showHidden).2.step t showHidden =
      (.endDocument, (machine.step t showHidden).2) := by
  cases machine with
  | predictive table m =>
    obtain ⟨e, m', hstep, hmoves⟩ := Predictive.exists_moves t table showHidden m
    rw [step_predictive hstep] at hend ⊢
    have hdone : m'.finished = true := by
      cases hmoves with
      | rest done => exact done
      | finish => rfl
      | close | hidden | expand | take | skip | leftOver => cases hend
    refine step_predictive ?_
    rw [Predictive.step, if_pos hdone]
  | shiftReduce table m =>
    obtain ⟨e, m', hstep, hmoves⟩ := ShiftReduce.exists_moves t table showHidden m
    rw [step_shiftReduce hstep] at hend ⊢
    cases hmoves with
    | rest => rfl
    | hidden | shift | reduce | giveUp | accept | skip => cases hend

end Machine

namespace Engine

variable {t : Tables} {e : Engine}

/-! ### Reads -/

/-- Reads pass the tokens that their events report. -/
theorem passes_reads (hlast : e.machine.input.last.text = "") (n : Nat) :
    ∃ ts, Passes ts e.machine.input (e.reads t n).machine.input ∧
      ((∀ ev ∈ e.events t n, ev.value? = none) →
        (∀ tok ∈ ts, t.isHidden tok.symbol = true) ∧ (e.showHidden = true → ts = [])) ∧
      (e.showHidden = true →
        String.join ((e.events t n).map fun ev => ev.value?.getD "") =
          String.join (ts.map Token.text)) := by
  induction n generalizing e with
  | zero => exact ⟨[], .refl _, by simp, by simp [events]⟩
  | succ n ih =>
    obtain ⟨ts, hpass, hsilent, htext⟩ :=
      Machine.passes_step (t := t) (m := e.machine) e.showHidden hlast
    obtain ⟨ts', hpass', hsilent', htext'⟩ := ih (e := e.read t) (by rw [← hlast, ← hpass.2]; rfl)
    refine ⟨ts ++ ts', hpass.trans hpass', ?_, ?_⟩
    · intro hquiet
      rw [events, List.forall_mem_cons] at hquiet
      obtain ⟨hts, hnil⟩ := hsilent hquiet.1
      obtain ⟨hts', hnil'⟩ := hsilent' hquiet.2
      refine ⟨fun tok htok => (List.mem_append.1 htok).elim (hts tok) (hts' tok), fun hshow => ?_⟩
      rw [hnil hshow, hnil' hshow, List.append_nil]
    · intro hshow
      rw [events, List.map_cons, String.join_cons, htext' hshow, List.map_append,
        String.join_append, ← htext hshow]
      rfl

/-- The tokens that are reported are those of the input. -/
theorem token_mem_events (hlast : e.machine.input.last.text = "") (n : Nat) :
    ∀ ev ∈ e.events t n, ∀ tok ∈ ev.token?, tok ∈ e.machine.input.tokens := by
  induction n generalizing e with
  | zero => simp [events]
  | succ n ih =>
    obtain ⟨ts, hpass, -⟩ := Machine.passes_step (t := t) (m := e.machine) e.showHidden hlast
    intro ev hev tok htok
    rw [events, List.mem_cons] at hev
    rcases hev with rfl | hev
    · rw [event_read] at htok
      cases hmachine : e.machine with
      | predictive table m =>
        rw [hmachine] at htok
        exact Predictive.token_mem_step htok
      | shiftReduce table m =>
        rw [hmachine] at htok
        exact ShiftReduce.token_mem_step htok
    · refine hpass.tokens_subset (ih (e := e.read t) ?_ ev hev tok htok)
      rw [← hlast, ← hpass.2]
      rfl

/-- The last token stays. -/
theorem last_reads (hlast : e.machine.input.last.text = "") (n : Nat) :
    (e.reads t n).machine.input.last = e.machine.input.last := by
  obtain ⟨ts, hpass, -⟩ := passes_reads (t := t) hlast n
  exact hpass.2

/-- The machine of an engine at its start. -/
theorem machine_of_start {strategy : Strategy} {showHidden : Bool} {source : String}
    (h : Engine.start t strategy showHidden source = .ok e) :
    Machine.start t strategy (.ofSource t source) = .ok e.machine := by
  rw [Engine.start] at h
  cases hm : Machine.start t strategy (.ofSource t source) with
  | error err => rw [hm] at h; cases h
  | ok machine => rw [hm] at h; cases h; rfl

/-- An engine at its start is before the tokens of its source. -/
theorem start_eq {strategy : Strategy} {showHidden : Bool} {source : String}
    (h : Engine.start t strategy showHidden source = .ok e) :
    e.machine.input = .ofSource t source ∧ e.showHidden = showHidden ∧ e.machine.Settled := by
  rw [Engine.start] at h
  cases hm : Machine.start t strategy (.ofSource t source) with
  | error err => rw [hm] at h; cases h
  | ok machine =>
    rw [hm] at h
    cases h
    exact ⟨Machine.input_start hm, rfl, Machine.settled_start hm⟩

/-- Whatever is done with an engine, its input ends with an empty end-of-stream token. -/
theorem Reachable.last (ends : TokenStream.EndsLast t) (h : Reachable t e) :
    e.machine.input.last.symbol = t.endOfStream ∧ e.machine.input.last.text = "" := by
  have hsource : ∀ source, (TokenStream.ofSource t source).last.symbol = t.endOfStream ∧
      (TokenStream.ofSource t source).last.text = "" := fun source =>
    ⟨(TokenStream.symbol_ofScanner _).1, (ends.join_ofSource source).1⟩
  induction h with
  | start h =>
    rw [(start_eq h).1]
    exact hsource _
  | @read e _ ih =>
    have hlast := last_reads (t := t) ih.2 1
    rw [show (e.read t).machine.input.last = e.machine.input.last from hlast]
    exact ih
  | @restart e source _ ih =>
    rw [Engine.restart]
    cases hm : e.machine <;> exact hsource source
  | withHidden _ _ ih => exact ih

/-! ### The end -/

/-- Reads that give no document up leave no input behind. -/
theorem settled_reads (h : e.machine.Settled) {n : Nat}
    (hg : ∀ k < n, ¬ (e.reads t k).machine.GivesUp t (e.reads t k).showHidden) :
    (e.reads t n).machine.Settled := by
  induction n with
  | zero => exact h
  | succ n ih =>
    rw [reads_succ]
    exact Machine.settled_step (ih fun k hk => hg k (by omega)) (hg n (by omega))

/-- At the end of a document that was not given up no input is left. -/
theorem ahead_of_ended (h : e.machine.Settled) {n : Nat}
    (hg : ∀ k < n, ¬ (e.reads t k).machine.GivesUp t (e.reads t k).showHidden)
    (hend : (e.reads t (n + 1)).ended = true) : (e.reads t (n + 1)).machine.input.ahead = [] := by
  rw [reads_succ] at hend ⊢
  rw [ended, decide_eq_true_eq] at hend
  exact Machine.ahead_of_endDocument (settled_reads h hg) hend

theorem ahead_of_endsAfter {strategy : Strategy} {showHidden : Bool} {source : String}
    (h : Engine.start t strategy showHidden source = .ok e) {n : Nat} (hn : EndsAfter t n e)
    (hgives : ∀ k < n, ¬ (e.reads t k).machine.GivesUp t showHidden) :
    (e.reads t (n + 1)).machine.input.ahead = [] := by
  obtain ⟨-, hshow, hsettled⟩ := start_eq h
  refine ahead_of_ended hsettled (fun k hk => ?_) hn.1
  rw [showHidden_reads, hshow]
  exact hgives k hk

/-- After the end, reading changes nothing. -/
theorem reads_of_ended {n : Nat} (h : (e.reads t (n + 1)).ended = true) (k : Nat) :
    e.reads t (n + 1 + k) = e.reads t (n + 1) := by
  induction k with
  | zero => rfl
  | succ k ih =>
    rw [← Nat.add_assoc, reads_succ, ih, reads_succ]
    have hend : ((e.reads t n).machine.step t (e.reads t n).showHidden).1 = .endDocument := by
      rw [reads_succ, ended, decide_eq_true_eq] at h
      exact h
    have hstep := Machine.step_endDocument hend
    rw [Engine.read, Engine.read]
    dsimp only
    rw [hstep, hend]

end Engine

end TableParser
