import TableParser.Proofs.Engine.CommonBeginning
import TableParser.Proofs.Grammar.Loading
import TableParser.Proofs.Script.Termination
import TableParser.Proofs.Token.Coverage
/-!
What an error passes over.

An engine that cannot go on with the token at hand passes it, and after it every token that is
hidden or that what is on top of the stack does not want:

    tokens    =  ·  #…  ·  a  =  1
    error     =  ·  #…  ·             at hand   a

So each error but one is followed by a token that is wanted, or by the end. At the end there is
nothing to pass. The predictive engine drops what is on top of its stack then, and the shift-reduce
engine ends the document. The one error that passes nothing elsewhere is that of a shift-reduce
engine without a way on after a reduction.

Main statement: `Engine.error_progress`.
-/

namespace TableParser

open TokenStream (Passes Sealed)

variable {t : Tables} {showHidden : Bool}

/-! ### Steps -/

namespace Machine

/-- What is on top of the stack can go on with a symbol. -/
def Wants (t : Tables) : Machine → SymbolId → Prop
  | .predictive table m, a =>
    match m.stack with
    | .symbol s :: _ => if t.isNonTerminal s then (table.get? s a).isSome = true else a = s
    | _ => False
  | .shiftReduce table m, a => (table.action? (m.top table) a).isSome = true

/-- How a machine goes on from an error before a stream: the tokens that it passes, and where it
comes to. -/
inductive Recovers (t : Tables) (showHidden : Bool) :
    Machine → Machine → TokenStream → List Token → Prop where
  /-- The token at hand is passed, and no wanted token after it, up to a wanted one or the end. -/
  | moves {m m' : Machine} {s : TokenStream} {later : List Token}
      (more : s.current.symbol ≠ t.endOfStream) (shown : t.isHidden s.current.symbol = false)
      (full : s.current.text ≠ "")
      (passed : ∀ tok ∈ later, t.isHidden tok.symbol = true ∨ ¬ m.Wants t tok.symbol)
      (stops : m'.input.current.symbol = t.endOfStream ∨
        t.isHidden m'.input.current.symbol = false ∧ m.Wants t m'.input.current.symbol) :
      Recovers t showHidden m m' s (s.current :: later)
  /-- At the end a predictive machine drops the symbol on top. -/
  | drops {table : PredictionTable} {m m' : Predictive} {s : TokenStream} {x : SymbolId}
      (atLast : s.current.symbol = t.endOfStream) (stack : m.stack = .symbol x :: m'.stack) :
      Recovers t showHidden (.predictive table m) (.predictive table m') s []
  /-- At the end a shift-reduce machine ends the document. -/
  | ends {table : ShiftReduceTable} {m m' : ShiftReduce} {s : TokenStream}
      (atLast : s.current.symbol = t.endOfStream)
      (ended : ∀ shown, (m'.step t table shown).1 = .endDocument) :
      Recovers t showHidden (.shiftReduce table m) (.shiftReduce table m') s []
  /-- A shift-reduce machine without a way on after a reduction ends the document wherever it is. -/
  | givesUp {table : ShiftReduceTable} {m m' : ShiftReduce} {s : TokenStream}
      (hole : m.GivesUp t table showHidden)
      (ended : ∀ shown, (m'.step t table shown).1 = .endDocument) :
      Recovers t showHidden (.shiftReduce table m) (.shiftReduce table m') s []

/-- What an error says, and what it stands for: hidden tokens that are not shown are passed first,
the tokens of the error after them. -/
structure Skips (t : Tables) (showHidden : Bool) (m m' : Machine) (err : SyntaxError)
    (s : TokenStream) (skipped : List Token) : Prop where
  before : ∃ hs, Passes hs m.input s ∧ (∀ tok ∈ hs, t.isHidden tok.symbol = true) ∧
    (showHidden = true → hs = [])
  passed : Passes skipped s m'.input
  text : err.text = String.join (skipped.map Token.text)
  position : err.position = s.current.position
  recovers : Recovers t showHidden m m' s skipped

end Machine

open Machine (Skips Recovers)

/-- Recovery stays at the end, or it passes the token at hand and unwanted ones up to a wanted one
or the end. -/
theorem TokenStream.recovers_of_sync (showHidden : Bool) {m : Machine} {s : TokenStream}
    {sync : SymbolId → Bool} (hs : s.Sealed t) (hfull : ∀ tok ∈ s.ahead, tok.text ≠ "")
    (hvisible : ∀ tok later, s.ahead = tok :: later → t.isHidden tok.symbol = false)
    (hsync : ∀ a, sync a = true ↔ m.Wants t a) :
    (s.current.symbol = t.endOfStream ∧ s.ahead = [] ∧ s.recover t sync = ([], s)) ∨
      ∀ m' : Machine, m'.input = (s.recover t sync).2 →
      Recovers t showHidden m m' s (s.recover t sync).1 := by
  cases hahead : s.ahead with
  | nil => exact .inl ⟨by rw [current_of_nil hahead, hs.last], rfl, recover_at_end sync hahead⟩
  | cons first rest =>
    have hcurrent := current_of_cons hahead
    have hmem : first ∈ s.ahead := by rw [hahead]; exact List.mem_cons_self
    have hskipped : (s.recover t sync).1 = s.current :: rest.takeWhile (isSkipped t sync) := by
      rw [hcurrent, recover, hahead]
    have hshown := hvisible _ _ hahead
    have hmore := hs.ahead _ hmem
    have htext := hfull _ hmem
    rw [← hcurrent] at hshown hmore htext
    rw [hskipped]
    refine .inr fun m' hinput => .moves hmore hshown htext ?_ ?_
    · intro tok htok
      have hpassed := List.all_eq_true.1 List.all_takeWhile tok htok
      rw [isSkipped, Bool.or_eq_true, Bool.not_eq_true', Bool.eq_false_iff] at hpassed
      exact hpassed.imp_right fun hnot hwants => hnot ((hsync _).2 hwants)
    · rw [hinput]
      rcases s.recover_current (t := t) sync with hover | ⟨hseen, hwanted⟩
      · exact .inl (by rw [hover, hs.last])
      · exact .inr ⟨hseen, (hsync _).1 hwanted⟩

section Steps

variable {err : SyntaxError}

/-- A machine that recovers skips what recovery passes; what it does at the end, where nothing is
passed, is its own. -/
theorem Machine.exists_skips_of_sync {m m' : Machine} {input : TokenStream} {sync : SymbolId → Bool}
    (hm : m.input.Sealed t) (hfull : ∀ tok ∈ m.input.ahead, tok.text ≠ "")
    (next : m.input.nextHidden t showHidden = (none, input))
    (hinput : m'.input = (input.recover t sync).2) (hsync : ∀ a, sync a = true ↔ m.Wants t a)
    (hend : input.current.symbol = t.endOfStream → input.ahead = [] →
      input.recover t sync = ([], input) →
      Recovers t showHidden m m' input []) (expected : List SymbolId) :
    ∃ s skipped, Skips t showHidden m m' (input.recoverError t expected sync).1 s skipped := by
  obtain ⟨hs, hpass, hhidden, hshown, hvisible⟩ := TokenStream.nextHidden_none next
  have hpassed : Passes (input.recover t sync).1 input m'.input := by
    rw [hinput]
    exact input.recover_passes sync
  refine ⟨input, (input.recover t sync).1, ⟨hs, hpass, hhidden, hshown⟩, hpassed, rfl, rfl, ?_⟩
  rcases TokenStream.recovers_of_sync showHidden (hm.passes hpass)
    (fun tok htok => hfull tok (by rw [hpass.1]; exact List.mem_append_right hs htok))
      hvisible hsync with
    ⟨hlast, hahead, hrecover⟩ | hrecovers
  · rw [hrecover]
    exact hend hlast hahead hrecover
  · exact hrecovers m' hinput

theorem Predictive.exists_skips {table : PredictionTable} {m m' : Predictive}
    (hm : m.input.Sealed t) (hfull : ∀ tok ∈ m.input.ahead, tok.text ≠ "")
    (h : m.step t table showHidden = (.error err, m')) :
    ∃ s skipped, Skips t showHidden (.predictive table m) (.predictive table m') err s skipped := by
  obtain ⟨ev, m'', hstep, hmoves⟩ := exists_moves t table showHidden m
  rw [h] at hstep
  obtain ⟨rfl, rfl⟩ := Prod.mk.inj hstep
  generalize hev : Event.error err = ev at hmoves
  cases hmoves with
  | rest | close | hidden | expand | take | finish => cases hev
  | @skip x below input expected sync running top next syncs stuck =>
    obtain rfl := Event.error.inj hev
    refine Machine.exists_skips_of_sync (m := .predictive table m) hm hfull next rfl (fun a => ?_)
      (fun hlast _ hrecover => ?_) expected
    · rw [syncs, Machine.Wants, top]
    · simp only [hrecover, stuck, Bool.false_eq_true, if_false]
      exact .drops hlast top
  | @leftOver input running top next more =>
    obtain rfl := Event.error.inj hev
    refine Machine.exists_skips_of_sync (m := .predictive table m) hm hfull next rfl (fun a => ?_)
      (fun _ hahead _ => ?_) _
    · rw [Machine.Wants, top]
      simp
    · rw [TokenStream.atEnd_iff.2 hahead] at more
      cases more

theorem ShiftReduce.step_done {table : ShiftReduceTable} {m : ShiftReduce} (h : m.phase = .done)
    (shown : Bool) :
    (m.step t table shown).1 = .endDocument := by
  rw [step, h]

theorem ShiftReduce.exists_skips {table : ShiftReduceTable} {m m' : ShiftReduce}
    (hm : m.input.Sealed t) (hfull : ∀ tok ∈ m.input.ahead, tok.text ≠ "")
    (h : m.step t table showHidden = (.error err, m')) :
    ∃ s skipped, Skips t showHidden (.shiftReduce table m) (.shiftReduce table m') err s
      skipped := by
  obtain ⟨ev, m'', hstep, hmoves⟩ := exists_moves t table showHidden m
  rw [h] at hstep
  obtain ⟨rfl, rfl⟩ := Prod.mk.inj hstep
  generalize hev : Event.error err = ev at hmoves
  cases hmoves with
  | rest | hidden | shift | reduce | accept => cases hev
  | @giveUp input rule running next action hole =>
    obtain rfl := Event.error.inj hev
    obtain ⟨hs, hpass, hhidden, hshown, -⟩ := TokenStream.nextHidden_none next
    refine ⟨input, [], ⟨hs, hpass, hhidden, hshown⟩, .refl input, rfl, rfl, ?_⟩
    exact .givesUp (givesUp_of_hole running next action hole) (step_done rfl)
  | @skip input expected sync running next stuck syncs =>
    obtain rfl := Event.error.inj hev
    refine Machine.exists_skips_of_sync (m := .shiftReduce table m) hm hfull next rfl (fun a => ?_)
      (fun hlast hahead hrecover => ?_) expected
    · rw [syncs, Machine.Wants]
    · have hatEnd := TokenStream.atEnd_iff.2 hahead
      -- at the end the state on top does nothing, not even accept
      have hnone : table.action? (m.top table) t.endOfStream = none := by
        rcases stuck with hnone | ⟨-, hmore⟩
        · rwa [hlast] at hnone
        · rw [hatEnd] at hmore
          cases hmore
      rw [hrecover, hatEnd, hnone]
      exact .ends hlast (step_done rfl)

/-- An error passes the tokens that it stands for. -/
theorem Machine.exists_skips {m : Machine} (hm : m.input.Sealed t)
    (hfull : ∀ tok ∈ m.input.ahead, tok.text ≠ "") (h : (m.step t showHidden).1 = .error err) :
    ∃ s skipped, Skips t showHidden m (m.step t showHidden).2 err s skipped := by
  cases m with
  | predictive table m => exact Predictive.exists_skips hm hfull (Prod.ext h rfl)
  | shiftReduce table m => exact ShiftReduce.exists_skips hm hfull (Prod.ext h rfl)

end Steps

/-! ### Reads -/

namespace Engine

variable {e : Engine} {source : String}

/-- The engines that are reading a source: those that were last started or restarted with it. -/
inductive Within (t : Tables) (source : String) : Engine → Prop where
  | start {strategy : Strategy} {showHidden : Bool} {e : Engine}
      (h : Engine.start t strategy showHidden source = .ok e) : Within t source e
  | restart {e : Engine} (h : Reachable t e) : Within t source (e.restart t source)
  | read {e : Engine} (h : Within t source e) : Within t source (e.read t)
  | withHidden {e : Engine} (on : Bool) (h : Within t source e) : Within t source (e.withHidden on)

/-- Every engine that can be made of the tables is reading a source. -/
theorem Reachable.exists_within (h : Reachable t e) : ∃ source, Within t source e := by
  induction h with
  | start h => exact ⟨_, .start h⟩
  | read _ ih =>
    obtain ⟨source, hwithin⟩ := ih
    exact ⟨source, hwithin.read⟩
  | restart source h => exact ⟨source, .restart h⟩
  | withHidden on _ ih =>
    obtain ⟨source, hwithin⟩ := ih
    exact ⟨source, hwithin.withHidden on⟩

/-- An engine is before a rest of the tokens of its source. -/
theorem Within.exists_passes (ends : TokenStream.EndsLast t) (h : Within t source e) :
    ∃ passed, Passes passed (.ofSource t source) e.machine.input := by
  induction h with
  | start h => exact ⟨[], by rw [(start_eq h).1]; exact .refl _⟩
  | @restart e h =>
    refine ⟨[], ?_⟩
    rw [Engine.restart]
    cases e.machine <;> exact .refl _
  | @read e h ih =>
    obtain ⟨passed, hpass⟩ := ih
    have hlast : e.machine.input.last.text = "" := by rw [hpass.2, (ends.join_ofSource source).1]
    obtain ⟨ts, hts, -⟩ := Machine.passes_step (t := t) e.showHidden hlast
    exact ⟨passed ++ ts, hpass.trans hts⟩
  | withHidden _ _ ih => exact ih

/-- A read that reports an error passes some tokens of the source, and the error says which: its
text is theirs, it stands where they start, and the token at hand after the read starts where they
end. They are the token at hand and what is unwanted after it; there are none only at the end, where
the predictive engine drops a symbol instead and the shift-reduce engine ends the document, and
where the shift-reduce engine gives up. -/
theorem error_progress {a : Asset} (hload : a.load = .ok t)
    (hends : ∀ st ∈ t.automaton.states, st.accept ≠ some t.endOfStream) (h : Reachable t e)
    {err : SyntaxError} (herror : (e.read t).event = .error err) :
    ∃ source, Within t source e ∧ ∃ passed s skipped, Passes passed (.ofSource t source) s ∧
      Skips t e.showHidden e.machine (e.read t).machine err s skipped ∧
      (∃ later, String.join (passed.map Token.text) ++ err.text ++ later = source) ∧
      err.position = .counted (String.join (passed.map Token.text)) ∧
      (e.read t).position = .counted (String.join (passed.map Token.text) ++ err.text) := by
  have ends : TokenStream.EndsLast t :=
    ⟨Tables.error_ne_endOfStream (Asset.check_of_load hload), hends⟩
  obtain ⟨source, hwithin⟩ := h.exists_within
  obtain ⟨ts, hts⟩ := hwithin.exists_passes ends
  have hfull : ∀ tok ∈ (TokenStream.ofSource t source).ahead, tok.text ≠ "" :=
    TokenStream.forall_ofScanner (fun _ hs => Scanner.text_next_ne hs) (.ofSource source)
  rw [event_read] at herror
  obtain ⟨s, skipped, hskips⟩ := Machine.exists_skips ((ends.sealed_ofSource source).passes hts)
    (fun tok htok => hfull tok (hts.1 ▸ List.mem_append_right ts htok)) herror
  obtain ⟨hs, hbefore, -⟩ := hskips.before
  have hpassed := hts.trans hbefore
  have hnext := hpassed.trans hskips.passed
  -- the tokens that are passed, those of the error and the others are one after the other
  have hchain := TokenStream.ofSource_chain t source
  rw [hpassed.1, ← hpassed.2] at hchain
  obtain ⟨p, hp, hahead⟩ := hchain.split
  have hchain' := TokenStream.ofSource_chain t source
  rw [hnext.1, ← hnext.2] at hchain'
  obtain ⟨q, hq, hahead'⟩ := hchain'.split
  refine ⟨source, hwithin, ts ++ hs, s, skipped, hpassed, by rw [machine_read]; exact hskips,
    ?_, ?_, ?_⟩
  · refine ⟨String.join ((e.machine.step t e.showHidden).2.input.ahead.map Token.text), ?_⟩
    rw [hskips.text, ← String.join_append, ← List.map_append, ← String.join_append,
      ← List.map_append, ← hnext.1, (ends.join_ofSource source).2]
  · rw [hskips.position, TokenStream.position_current hahead, hp.eq_after, Position.after_start]
  · rw [position, machine_read, TokenStream.position_current hahead', hq.eq_after,
      Position.after_start, hskips.text, List.map_append, String.join_append]

/-- A document cannot start with an operator, and the comment after it is passed with it. -/
theorem error_progress_operator : ∃ e err, Reachable Script.tables e ∧
    (e.read Script.tables).event = .error err ∧ err.text = "= #\n" ∧
      ∃ s skipped, Skips Script.tables false e.machine (e.read Script.tables).machine err s
        skipped := by
  have htokens : TokenStream.ofSource Script.tables "= #\na" =
      ⟨[⟨Script.specifier, "=", .start⟩, ⟨Script.whitespace, " ", ⟨1, 2, 1⟩⟩,
        ⟨Script.comment, "#", ⟨1, 3, 2⟩⟩, ⟨Script.whitespace, "\n", ⟨1, 4, 3⟩⟩,
        ⟨Script.symbol, "a", ⟨2, 1, 4⟩⟩], ⟨Script.eof, "", ⟨2, 2, 5⟩⟩⟩ := by
    rw [TokenStream.ofSource]
    iterate 5 rw [TokenStream.ofScanner_more (by decide)]
    rw [TokenStream.ofScanner_last (by decide)]
    rfl
  obtain ⟨e, he, hread⟩ : ∃ e, Engine.start Script.tables .predictive false "= #\na" = .ok e ∧
      (e.read Script.tables).event.error?.map SyntaxError.text = some "= #\n" := by
    refine ⟨⟨.predictive Script.prediction
      (.start Script.tables (.ofSource Script.tables "= #\na")), .initial, false⟩, rfl, ?_⟩
    rw [htokens]
    decide +kernel
  obtain ⟨err, herror, htext⟩ := Option.map_eq_some_iff.1 hread
  have hevent := Event.error?_eq_some.1 herror
  obtain ⟨-, -, -, s, skipped, -, hskips, -⟩ :=
    error_progress Script.load_asset Script.endsLast.2 (.start he) hevent
  rw [(start_eq he).2.1] at hskips
  exact ⟨e, err, .start he, hevent, htext, s, skipped, hskips⟩

end Engine

end TableParser
