import TableParser.Proofs.Engine.Moves
import TableParser.Proofs.Engine.StackPath
/-!
Why reading ends.

Many steps take no input: the predictive engine expands and closes non-terminals, the shift-reduce
engine reduces, and at the end of the input both go on for a while. Each engine has an effort, a
number that every step before the end of the document makes smaller.

* For the predictive engine a token is worth more than the expansions before it is matched. Before
  the token at hand the symbols on the stack are erased one by one, until one is expanded to
  something that starts with the token; from there on the rank of the symbol on top falls with every
  expansion.
* For the shift-reduce engine every automaton state has a weight when it is on top of the stack;
  below the top all states count alike. A reduction makes the weight of the stack smaller, and a
  shift costs less than a token is worth.

Main statements: `Predictive.effort_step` and `ShiftReduce.effort_step`.
-/

namespace TableParser

open TokenStream (Passes)

namespace Predictive

/-! ### The predictive engine -/

/-- The weight of what is to come. -/
def weight : List Pending → Nat
  | [] => 0
  | .symbol _ :: below => weight below + 2
  | .close _ :: below => weight below + 1

theorem weight_append (a b : List Pending) : weight (a ++ b) = weight a + weight b := by
  induction a with
  | nil => simp [weight]
  | cons p a ih => cases p <;> simp only [List.cons_append, weight, ih] <;> omega

theorem weight_le (a : List Pending) : weight a ≤ 2 * a.length := by
  induction a with
  | nil => simp [weight]
  | cons p a ih => cases p <;> simp only [weight, List.length_cons] <;> omega

/-- The rank of the first symbol that is not erased before a terminal. -/
def lead (t : Tables) (table : PredictionTable) (rank : SymbolId → Nat) (a : SymbolId) :
    List Pending → Nat
  | [] => 0
  | .close _ :: below => lead t table rank a below
  | .symbol s :: below =>
    match table.get? s a with
    | some rule => if body t rule = [] then lead t table rank a below else rank s
    | none => 0

/-- A table whose predictions come nearer to a terminal: the rank falls from a non-terminal to the
symbol that its right side starts with, which is not erased before the same terminal. -/
structure Ranked (t : Tables) (table : PredictionTable) (rank : SymbolId → Nat)
    (width height : Nat) : Prop where
  rank_le : ∀ s, rank s ≤ height
  length_le : ∀ {s a rule}, table.get? s a = some rule → (body t rule).length ≤ width
  symbols : ∀ {s a rule}, table.get? s a = some rule → body t rule ≠ [] → ∃ y rest,
    body t rule = .symbol y :: rest ∧ 0 < rank s ∧
      ∀ rule', table.get? y a = some rule' → body t rule' ≠ [] ∧ rank y < rank s
  at_end : ∀ {s rule}, table.get? s t.endOfStream = some rule → body t rule = []

variable {t : Tables} {table : PredictionTable} {rank : SymbolId → Nat} {width height : Nat}

theorem lead_le (ranked : Ranked t table rank width height) (a : SymbolId) (stack : List Pending) :
    lead t table rank a stack ≤ height := by
  induction stack with
  | nil => exact Nat.zero_le _
  | cons p below ih =>
    cases p with
    | close => exact ih
    | symbol s =>
      rw [lead]
      split
      · split
        · exact ih
        · exact ranked.rank_le s
      · exact Nat.zero_le _

/-- At the end of the input everything is erased. -/
theorem lead_at_end (ranked : Ranked t table rank width height) (stack : List Pending) :
    lead t table rank t.endOfStream stack = 0 := by
  induction stack with
  | nil => rfl
  | cons p below ih =>
    cases p with
    | close => exact ih
    | symbol s =>
      rw [lead]
      split
      · next h => rw [if_pos (ranked.at_end h)]; exact ih
      · rfl

/-- The effort still to be made on an input with a stack. -/
def effort (t : Tables) (table : PredictionTable) (rank : SymbolId → Nat) (width height : Nat)
    (input : TokenStream) (stack : List Pending) : Nat :=
  (2 * width * height + 2 * width + 1) * input.ahead.length + weight stack +
    2 * width * lead t table rank input.current.symbol stack

/-- A token that is passed is worth more than what the next one may cost. -/
theorem effort_passed (ranked : Ranked t table rank width height) {ts : List Token}
    {s s' : TokenStream} {stack stack' : List Pending} (h : Passes ts s s') (hne : ts ≠ [])
    (hw : weight stack' < weight stack + 2 * width + 1) :
    effort t table rank width height s' stack' < effort t table rank width height s stack := by
  have hlen := h.length_eq
  have hpos := List.length_pos_iff.2 hne
  have hmul : (2 * width * height + 2 * width + 1) * (s'.ahead.length + 1) ≤
      (2 * width * height + 2 * width + 1) * s.ahead.length :=
    Nat.mul_le_mul_left _ (by omega)
  have hlead : 2 * width * lead t table rank s'.current.symbol stack' ≤ 2 * width * height :=
    Nat.mul_le_mul_left _ (lead_le ranked _ _)
  rw [Nat.mul_succ] at hmul
  unfold effort
  omega

theorem effort_hidden (ranked : Ranked t table rank width height) {visible : Bool}
    {s s' : TokenStream} (stack : List Pending) (h : s.nextHidden t visible = (none, s')) :
    effort t table rank width height s' stack ≤ effort t table rank width height s stack := by
  obtain ⟨hs, hpass, -⟩ := TokenStream.nextHidden_none h
  by_cases hne : hs = []
  · subst hne
    exact Nat.le_of_eq (by rw [hpass.eq_of_nil])
  · exact Nat.le_of_lt (effort_passed ranked hpass hne (by omega))

/-- An expansion comes nearer to the token at hand. -/
theorem effort_expand (ranked : Ranked t table rank width height) {input : TokenStream}
    {s : SymbolId} {rule : RuleId} {below : List Pending}
    (h : table.get? s input.current.symbol = some rule) :
    effort t table rank width height input (body t rule ++ .close rule :: below) <
      effort t table rank width height input (.symbol s :: below) := by
  have hlen := ranked.length_le h
  have hweight := weight_le (body t rule)
  by_cases hbody : body t rule = []
  · rw [effort, effort, lead, h]
    simp only [hbody, List.nil_append, lead, weight, if_true]
    omega
  · obtain ⟨y, rest, hy, hpos, hrank⟩ := ranked.symbols h hbody
    have hold : lead t table rank input.current.symbol (.symbol s :: below) = rank s := by
      rw [lead, h]
      exact if_neg hbody
    have hnew : lead t table rank input.current.symbol (body t rule ++ .close rule :: below) <
        rank s := by
      rw [hy, List.cons_append, lead]
      split
      · next rule' h' =>
        rw [if_neg (hrank rule' h').1]
        exact (hrank rule' h').2
      · exact hpos
    have hmul := Nat.mul_le_mul_left (2 * width) (Nat.succ_le_of_lt hnew)
    rw [Nat.mul_succ] at hmul
    rw [effort, effort, hold, weight_append]
    simp only [weight]
    omega

/-- Where only the end is at hand, what is on top can be dropped. -/
theorem effort_drop (ranked : Ranked t table rank width height) {input : TokenStream}
    (hend : input.ahead = []) (hlast : input.last.symbol = t.endOfStream) (s : SymbolId)
    (below : List Pending) :
    effort t table rank width height input below <
      effort t table rank width height input (.symbol s :: below) := by
  rw [effort, effort, TokenStream.current_of_nil hend, hlast, lead_at_end ranked,
    lead_at_end ranked, weight]
  omega

/-- Every step before the end of the document makes the effort smaller. -/
theorem effort_step (ranked : Ranked t table rank width height) {showHidden : Bool}
    {m : Predictive} (hlast : m.input.last.symbol = t.endOfStream)
    (h : (m.step t table showHidden).1 ≠ .endDocument) :
    effort t table rank width height (m.step t table showHidden).2.input
        (m.step t table showHidden).2.stack <
      effort t table rank width height m.input m.stack := by
  obtain ⟨e, m', hstep, hmoves⟩ := exists_moves t table showHidden m
  rw [hstep] at h ⊢
  cases hmoves with
  | rest | finish => exact absurd rfl h
  | close _ top =>
    rw [top]
    simp only [effort, weight, lead]
    omega
  | hidden _ _ next =>
    obtain ⟨-, -, hpass⟩ := TokenStream.nextHidden_some next
    exact effort_passed ranked hpass (by simp) (show weight m.stack < _ by omega)
  | expand _ top next _ predicted =>
    rw [top]
    exact Nat.lt_of_lt_of_le (effort_expand ranked predicted) (effort_hidden ranked _ next)
  | @take s below input _ top next _ _ =>
    rw [top]
    refine Nat.lt_of_lt_of_le ?_ (effort_hidden ranked _ next)
    have hlast' : input.last.symbol = t.endOfStream := by
      rw [TokenStream.last_of_nextHidden next, hlast]
    cases hends : input.ahead with
    | nil =>
      have hsame : input.advance = input := by
        rw [TokenStream.advance, hends, List.tail_nil, ← hends]
      rw [hsame]
      exact effort_drop ranked hends hlast' s below
    | cons tok later =>
      exact effort_passed ranked input.passes_advance (by simp [hends])
        (by simp only [weight]; omega)
  | @skip s below input expected sync _ top next _ stuck =>
    rw [top]
    refine Nat.lt_of_lt_of_le ?_ (effort_hidden ranked _ next)
    have hlast' : input.last.symbol = t.endOfStream := by
      rw [TokenStream.last_of_nextHidden next, hlast]
    by_cases hends : input.ahead = []
    · -- at the end nothing is passed, so what is on top still cannot go on
      rw [TokenStream.recover_at_end sync hends]
      simp only [stuck, Bool.false_eq_true, if_false]
      exact effort_drop ranked hends hlast' s below
    · refine effort_passed ranked (input.recover_passes sync)
        (TokenStream.recover_ne_nil sync hends) ?_
      split <;> simp only [weight] <;> omega
  | @leftOver input _ top next more =>
    refine Nat.lt_of_lt_of_le ?_ (effort_hidden ranked _ next)
    obtain ⟨tok, later, hahead⟩ := TokenStream.not_atEnd_iff.1 more
    exact effort_passed ranked (input.recover_passes _)
      (TokenStream.recover_ne_nil _ (by simp [hahead])) (show weight m.stack < _ by omega)

end Predictive

namespace ShiftReduce

open ShiftReduceTable

/-! ### The shift-reduce engine -/

/-- The weight of a stack: that of its top, and one for each state below. -/
def weight (high : StateId → Nat) : List StateId → Nat
  | [] => 0
  | s :: below => high s + below.length

/-- The worth of a phase. -/
def phaseWeight : Phase → Nat
  | .running => 2
  | .accepted => 1
  | .done => 0

/-- A table whose reductions make the stack lighter, and whose shifts make it heavier by less than
`worth`. The end of the input is never shifted. -/
structure Weighed (t : Tables) (table : ShiftReduceTable) (es : List Arc)
    (high : StateId → Nat) (worth : Nat) : Prop where
  closed : Closed t table es
  shift : ∀ {s a target}, table.action? s a = some (.shift target) →
    high target + 1 < high s + worth ∧ a ≠ t.endOfStream
  reduce : ∀ {s a rule r p target}, table.action? s a = some (.reduce rule) →
    t.rule? rule = some r → p ∈ backward es r.rhs.length s →
    table.goto? (exposed s p) r.lhs = some target →
    high target + 1 < high s + p.length

/-- The effort still to be made. -/
def effort (high : StateId → Nat) (worth : Nat) (m : ShiftReduce) : Nat :=
  worth * m.input.ahead.length + weight high m.states + phaseWeight m.phase

variable {t : Tables} {table : ShiftReduceTable} {es : List Arc} {high : StateId → Nat}
  {worth : Nat}

/-- Each token that is passed takes its worth away. -/
theorem worth_passed (worth : Nat) {ts : List Token} {s s' : TokenStream} (h : Passes ts s s')
    (hne : ts ≠ []) : worth * s'.ahead.length + worth ≤ worth * s.ahead.length := by
  have hlen := h.length_eq
  have hpos := List.length_pos_iff.2 hne
  rw [← Nat.mul_succ]
  exact Nat.mul_le_mul_left _ (by omega)

theorem worth_hidden (worth : Nat) {showHidden : Bool} {s s' : TokenStream}
    (h : s.nextHidden t showHidden = (none, s')) :
    worth * s'.ahead.length ≤ worth * s.ahead.length := by
  obtain ⟨hs, hpass, -⟩ := TokenStream.nextHidden_none h
  have hlen := hpass.length_eq
  exact Nat.mul_le_mul_left _ (by omega)

/-- A reduction makes the stack lighter. -/
theorem weight_reduce (weighed : Weighed t table es high worth) {m : ShiftReduce}
    (path : table.IsPath m.states) {a : SymbolId} {rule : RuleId} {r : Rule} {s target : StateId}
    {below : List StateId} (action : table.action? (m.top table) a = some (.reduce rule))
    (known : t.rule? rule = some r) (exposed : m.states.drop r.rhs.length = s :: below)
    (goes : table.goto? s r.lhs = some target) :
    weight high (target :: s :: below) < weight high m.states := by
  obtain ⟨xs, path⟩ := path
  obtain ⟨rest, hm⟩ := exists_below path
  rw [hm] at path exposed ⊢
  obtain ⟨r', hr', safe⟩ := weighed.closed.safe action
  rw [known, Option.some.injEq] at hr'
  subst hr'
  have hn := safe.length_le weighed.closed.arcs path
  obtain ⟨p, hp, -, hstates⟩ := mem_backward weighed.closed.arcs path hn
  obtain ⟨rest', hrest'⟩ := exposed_of_take (s := m.top table) hstates hn
  rw [exposed, List.cons.injEq] at hrest'
  obtain ⟨rfl, rfl⟩ := hrest'
  have hlt := weighed.reduce action known hp goes
  -- the states on the way back and those under them make up the stack
  have hlength : p.length = r.rhs.length := by
    rw [← List.length_map Prod.snd, hstates, List.length_take_of_le hn]
  have hbelow := congrArg List.length exposed
  simp only [List.length_drop, List.length_cons] at hbelow
  simp only [weight, List.length_cons]
  omega

/-- Every step before the end of the document makes the effort smaller. -/
theorem effort_step (weighed : Weighed t table es high worth) (hworth : 0 < worth)
    {showHidden : Bool} {m : ShiftReduce} (hlast : m.input.last.symbol = t.endOfStream)
    (path : table.IsPath m.states) (h : (m.step t table showHidden).1 ≠ .endDocument) :
    effort high worth (m.step t table showHidden).2 < effort high worth m := by
  obtain ⟨e, m', hstep, hmoves⟩ := exists_moves t table showHidden m
  rw [hstep] at h ⊢
  cases hmoves with
  | rest => exact absurd rfl h
  | hidden _ next =>
    obtain ⟨-, -, hpass⟩ := TokenStream.nextHidden_some next
    have := worth_passed worth hpass (by simp)
    simp only [effort]
    omega
  | @shift input target running next action =>
    have hle := worth_hidden worth next
    obtain ⟨hheavy, hnot⟩ := weighed.shift action
    have hahead : input.ahead ≠ [] := fun hnil => hnot (by
      rw [TokenStream.current_of_nextHidden next hnil, hlast])
    have := worth_passed worth input.passes_advance (by simpa using hahead)
    obtain ⟨xs, path⟩ := path
    obtain ⟨rest, hm⟩ := exists_below path
    have hold : weight high m.states = high (m.top table) + rest.length := by rw [hm, weight]
    have hnew : weight high (target :: m.states) = high target + (rest.length + 1) := by
      rw [weight, hm, List.length_cons]
    simp only [effort, hold, hnew]
    omega
  | reduce running next action known exposed goes =>
    have hle := worth_hidden worth next
    have := weight_reduce weighed path action known exposed goes
    simp only [effort]
    omega
  | giveUp _ next action hole =>
    obtain ⟨r, s, below, target, hr, -, hdrop, hgoto⟩ :=
      reduction_of_isPath weighed.closed path action
    have := hole r hr
    simp [hdrop, hgoto] at this
  | accept running next =>
    have hle := worth_hidden worth next
    simp only [effort, running, phaseWeight]
    omega
  | @skip input expected sync running next stuck syncs =>
    have hle := worth_hidden worth next
    by_cases hends : input.ahead = []
    · -- at the end the state on top has no action, so the document is over
      have hnone : table.action? (m.top table) t.endOfStream = none := by
        rcases stuck with hstuck | ⟨-, hmore⟩
        · rwa [TokenStream.current_of_nextHidden next hends, hlast] at hstuck
        · rw [TokenStream.atEnd_iff.2 hends] at hmore
          cases hmore
      rw [TokenStream.recover_at_end sync hends]
      simp only [effort, running, hnone, TokenStream.atEnd_iff.2 hends, Option.isNone_none,
        Bool.and_self, if_true, phaseWeight]
      omega
    · have := worth_passed worth (input.recover_passes sync)
        (TokenStream.recover_ne_nil (t := t) sync hends)
      simp only [effort, running]
      split <;> simp only [phaseWeight] <;> omega

end ShiftReduce

end TableParser
