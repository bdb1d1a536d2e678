import TableParser.Proofs.Grammar.Consistency
import TableParser.Proofs.Script.Structure
/-!
The height of the state stack and the structural nodes of the row.

A reduction tells the builder a rule, not which states the engine drops. The builder counts
structural nodes back from the end of its row instead, as if each of them had brought a state along
and no other node had one. In any grammar that loads, and for trees of any shape, one step keeps the
two counts level unless it shifts a token that has the error symbol: such a token brings a state,
but its leaf does not count. Nothing that is checked on loading forbids it (`strayPairs`):

    input     a ?                 a ?
    states    0 1 2               one structural node for two states
    reduce    Item → Word Stray   drops both states, wraps one node

Main statements: `ShiftReduce.level_step` and `Engine.level_iff_unshifted`.
-/

namespace TableParser

namespace ShiftReduce

variable {t : Tables} {table : ShiftReduceTable} {shape : Shape} {showHidden : Bool}
  {m m' : ShiftReduce} {b b' : Builder}

/-- The symbols that end the stream and mark errors are not hidden. -/
structure Shown (t : Tables) : Prop where
  endOfStream : t.isHidden t.endOfStream = false
  error : t.isHidden t.error = false

/-- The row has one structural node for each state of a stack above the initial one. -/
def Level (height : Nat) (b : Builder) : Prop :=
  b.nodes.toList.countP Node.isStructural + 1 = height

/-- No token that has the error symbol is shifted by this event. -/
def Unshifted (t : Tables) (e : Event) : Prop :=
  ∀ tok, e = .shift tok → tok.symbol ≠ t.error

/-- A reduction puts one node over the nodes of the states that it drops: the nodes before it have
the states that stay, and none of those after it has a state. -/
def Wraps (t : Tables) (shape : Shape) (rule : RuleId) (m m' : ShiftReduce) (b b' : Builder) :
    Prop :=
  ∃ r before core after, t.rule? rule = some r ∧ m'.states.tail = m.states.drop r.rhs.length ∧
    b.nodes.toList = before ++ core ++ after ∧
    b'.nodes.toList = before ++ [Builder.ruleNode t shape rule b.last core] ++ after ∧
    before.countP Node.isStructural + 1 = m'.states.tail.length ∧
    core.countP Node.isStructural = r.rhs.length ∧ ∀ n ∈ after, n.isStructural = false

/-! ### One step -/

/-- A reduction from level stacks wraps the nodes of the states that it drops. -/
theorem Level.wraps (h : Level m.states.length b) {rule : RuleId} {r : Rule} {s target : StateId}
    {below : List StateId} (known : t.rule? rule = some r)
    (exposed : m.states.drop r.rhs.length = s :: below) (hm' : m'.states = target :: s :: below) :
    Wraps t shape rule m m' b (Builder.feed t shape b (.reduce rule)) := by
  have hlength : m.states.length - r.rhs.length = below.length + 1 := by
    rw [← List.length_drop, exposed, List.length_cons]
  rw [Level] at h
  have hroom : r.rhs.length ≤ b.nodes.toList.countP Node.isStructural := by omega
  obtain ⟨before, core, after, hnodes, hreduce, hcount, hafter⟩ :=
    Builder.exists_reduce shape known b.last hroom
  refine ⟨r, before, core, after, known, ?_, hnodes, hreduce, ?_, hcount, hafter⟩
  · rw [hm', exposed, List.tail_cons]
  · rw [hnodes, List.countP_append, List.countP_append, hcount, Node.countP_others hafter] at h
    rw [hm', List.tail_cons, List.length_cons]
    omega

/-- After a reduction that wraps the nodes of the states that it drops the stacks are level
again. -/
theorem Wraps.level {rule : RuleId} {s target : StateId} {below : List StateId}
    (h : Wraps t shape rule m m' b b') (hm' : m'.states = target :: s :: below) :
    Level m'.states.length b' := by
  obtain ⟨r, before, core, after, known, -, -, hnodes, hbefore, hcore, hafter⟩ := h
  have hnode := Builder.isStructural_ruleNode shape known b.last hcore
  rw [hm', List.tail_cons] at hbefore
  rw [Level, hnodes, List.countP_append, List.countP_append, Node.countP_others hafter,
    List.countP_singleton, if_pos hnode, hbefore, hm', List.length_cons]
  rfl

/-- A leaf that does not count leaves the row as high as it was. -/
theorem countP_push_other {n : Node} (hn : n.isStructural = false) (nodes : Array Node) :
    (nodes.push n).toList.countP Node.isStructural = nodes.toList.countP Node.isStructural := by
  rw [Array.toList_push, List.countP_append, List.countP_singleton, hn]
  rfl

/-- The leaf of a token that is not hidden counts unless the token has the error symbol. -/
theorem isStructural_leaf_iff (shape : Shape) {tok : Token} (htok : t.isHidden tok.symbol = false) :
    (Builder.leaf t shape tok).isStructural = true ↔ tok.symbol ≠ t.error := by
  rw [Node.isStructural, Builder.hidden_leaf, Builder.error_leaf, htok]
  simp

/-- A step that does not give the document up keeps level stacks level, and it does so exactly when
it shifts no token that has the error symbol. -/
theorem level_step (shown : Shown t) (hlast : m.input.last.symbol = t.endOfStream)
    (hgives : ¬ m.GivesUp t table showHidden) (h : Level m.states.length b) :
    Level (m.step t table showHidden).2.states.length
        (Builder.feed t shape b (m.step t table showHidden).1) ↔
      Unshifted t (m.step t table showHidden).1 := by
  obtain ⟨e, m', hstep, hmoves⟩ := exists_moves t table showHidden m
  rw [hstep]
  cases hmoves with
  | rest | accept => exact iff_of_true h (by rintro _ ⟨⟩)
  | hidden _ next =>
    obtain ⟨-, hhidden, -⟩ := TokenStream.nextHidden_some next
    refine iff_of_true ?_ ?_
    · rw [Level, Builder.feed, countP_push_other]
      · exact h
      · exact Builder.isStructural_hidden hhidden
    · rintro _ ⟨⟩ herror
      rw [herror, shown.error] at hhidden
      cases hhidden
  | skip =>
    refine iff_of_true ?_ (by rintro _ ⟨⟩)
    rw [Level, Builder.feed, countP_push_other rfl]
    exact h
  | @shift input target _ next =>
    have hvisible := TokenStream.isHidden_current (hlast ▸ shown.endOfStream) next
    have hleaf := isStructural_leaf_iff shape hvisible
    rw [Level] at h
    rw [Level, Builder.feed, Array.toList_push, List.countP_append, List.countP_singleton,
      List.length_cons, ← h]
    constructor
    · rintro hlevel _ ⟨⟩
      refine hleaf.1 (Decidable.byContradiction fun hn => ?_)
      rw [if_neg hn] at hlevel
      omega
    · intro hun
      rw [if_pos (hleaf.2 (hun _ rfl))]
  | @reduce input rule r s target below _ _ _ known exposed =>
    exact iff_of_true ((h.wraps known exposed rfl).level rfl) (by rintro _ ⟨⟩)
  | giveUp running next action hole =>
    exact absurd (givesUp_of_hole running next action hole) hgives

/-- A step from level stacks that reports a reduction wraps the nodes of the states that it
drops. -/
theorem Level.wraps_step (h : Level m.states.length b) {rule : RuleId}
    (hreduce : (m.step t table showHidden).1 = .reduce rule) :
    Wraps t shape rule m (m.step t table showHidden).2 b
      (Builder.feed t shape b (.reduce rule)) := by
  obtain ⟨e, m', hstep, hmoves⟩ := exists_moves t table showHidden m
  rw [hstep] at hreduce ⊢
  cases hmoves with
  | rest | hidden | shift | giveUp | accept | skip => cases hreduce
  | @reduce input rule' r s target below _ _ _ known exposed =>
    cases hreduce
    exact h.wraps known exposed rfl

/-- A table that never shifts the error symbol has no step that does. -/
theorem unshifted_step (shown : Shown t)
    (quiet : ∀ s target, table.action? s t.error ≠ some (.shift target)) :
    Unshifted t (m.step t table showHidden).1 := by
  obtain ⟨e, m', hstep, hmoves⟩ := exists_moves t table showHidden m
  rw [hstep]
  intro tok htok herror
  cases hmoves with
  | rest | reduce | giveUp | accept | skip => cases htok
  | hidden _ next =>
    cases htok
    obtain ⟨-, hhidden, -⟩ := TokenStream.nextHidden_some next
    rw [herror, shown.error] at hhidden
    cases hhidden
  | shift _ _ action =>
    cases htok
    exact quiet _ _ (herror ▸ action)

/-- A step that gives the document up reports an error. -/
theorem GivesUp.event (h : m.GivesUp t table showHidden) :
    ∃ err, (m.step t table showHidden).1 = .error err := by
  obtain ⟨running, input, rule, next, action, m', hm'⟩ := h
  obtain ⟨input₀, states, phase⟩ := m
  cases running
  refine ⟨⟨"", m'.input.current.position, []⟩, ?_⟩
  rw [step]
  simp only [next]
  rw [show table.action? (top table ⟨input, states, .running⟩) input.current.symbol =
    some (.reduce rule) from action]
  exact congrArg Prod.fst hm'

end ShiftReduce

/-- The symbols of a loaded grammar that end the stream and mark errors are not hidden. -/
theorem Asset.shown_of_load {a : Asset} {t : Tables} (hload : a.load = .ok t) :
    ShiftReduce.Shown t := by
  obtain ⟨⟨sym, hsym, hkind⟩, ⟨sym', hsym', hkind'⟩⟩ := Tables.kinds_of_check (check_of_load hload)
  constructor
  · rw [Tables.isHidden, hsym, Option.any_some, GrammarSymbol.isHidden, hkind]
    rfl
  · rw [Tables.isHidden, hsym', Option.any_some, GrammarSymbol.isHidden, hkind']
    rfl

namespace Engine

open ShiftReduce (Level Unshifted Wraps)

variable {a : Asset} {t : Tables} {shape : Shape} {showHidden : Bool} {source : String} {e : Engine}

/-! ### A whole run -/

/-- A shift-reduce engine has the shift-reduce table of its grammar. -/
theorem exists_shiftReduce (h : Engine.start t .shiftReduce showHidden source = .ok e) :
    ∃ table, t.shiftReduce = some table ∧
      e.machine = .shiftReduce table (.start table (.ofSource t source)) := by
  rw [Engine.start, Machine.start, Tables.getShiftReduce] at h
  cases htable : t.shiftReduce with
  | none => rw [htable] at h; cases h
  | some table => rw [htable] at h; cases h; exact ⟨table, rfl, rfl⟩

/-- After any number of reads the machine has its table and the end of its stream. -/
theorem exists_reads (h : Engine.start t .shiftReduce showHidden source = .ok e) :
    ∃ table, t.shiftReduce = some table ∧ ∀ n, ∃ m, (e.reads t n).machine = .shiftReduce table m ∧
      m.input.last.symbol = t.endOfStream := by
  obtain ⟨table, htable, hmachine⟩ := exists_shiftReduce h
  refine ⟨table, htable, fun n => ?_⟩
  induction n with
  | zero => exact ⟨_, hmachine, (TokenStream.symbol_ofScanner _).1⟩
  | succ n ih =>
    obtain ⟨m, hm, hlast⟩ := ih
    exact ⟨_, (reads_shiftReduce hm).2, by rw [ShiftReduce.last_step, hlast]⟩

/-- The stacks stay level up to a read as long as no read before it shifts a token that has the
error symbol, and no longer. -/
theorem level_reads (hload : a.load = .ok t)
    (h : Engine.start t .shiftReduce showHidden source = .ok e) (shape : Shape) {n : Nat}
    (hgives : ∀ k < n, ¬ (e.reads t k).machine.GivesUp t showHidden) :
    (∀ k ≤ n, Level (e.reads t k).machine.depth (e.builder t shape k)) ↔
      ∀ ev ∈ e.events t n, Unshifted t ev := by
  obtain ⟨table, -, hreads⟩ := exists_reads h
  obtain ⟨-, hshow, -⟩ := start_eq h
  induction n with
  | zero =>
    refine iff_of_true (fun k hk => ?_) (by simp [events])
    obtain rfl : k = 0 := Nat.le_zero.1 hk
    obtain ⟨_, -, hmachine⟩ := exists_shiftReduce h
    rw [reads, hmachine]
    rfl
  | succ n ih =>
    obtain ⟨m, hm, hlast⟩ := hreads n
    obtain ⟨hevent, hnext⟩ := reads_shiftReduce hm
    have hgives' := hgives n (by omega)
    rw [hm, ← hshow] at hgives'
    have hdepth : (e.reads t n).machine.depth = m.states.length := by rw [hm]; rfl
    have hstep : Level (e.reads t n).machine.depth (e.builder t shape n) →
        (Level (e.reads t (n + 1)).machine.depth (e.builder t shape (n + 1)) ↔
          Unshifted t (e.reads t (n + 1)).event) := by
      rw [hdepth, hnext, builder_succ, hevent]
      exact ShiftReduce.level_step (Asset.shown_of_load hload) hlast hgives'
    rw [events_succ, List.forall_mem_append, ← ih fun k hk => hgives k (by omega),
      List.forall_mem_singleton]
    constructor
    · intro hlevel
      exact ⟨fun k hk => hlevel k (by omega),
        (hstep (hlevel n (by omega))).1 (hlevel (n + 1) (Nat.le_refl _))⟩
    · rintro ⟨hbefore, hun⟩ k hk
      rcases Nat.lt_or_eq_of_le hk with hlt | rfl
      · exact hbefore k (by omega)
      · exact (hstep (hbefore n (Nat.le_refl n))).2 hun

/-- While no document is given up, the row has one structural node for each state above the initial
one exactly until a token is shifted that has the error symbol. Up to there each reduction wraps the
nodes of the states that it drops. A table that never shifts the error symbol never gets there. -/
theorem level_iff_unshifted (hload : a.load = .ok t)
    (h : Engine.start t .shiftReduce showHidden source = .ok e) (shape : Shape) {n : Nat}
    (hgives : ∀ k < n, ¬ (e.reads t k).machine.GivesUp t showHidden) :
    ((∀ k ≤ n, (e.builder t shape k).nodes.toList.countP Node.isStructural + 1 =
        (e.reads t k).machine.depth) ↔ ∀ ev ∈ e.events t n, Unshifted t ev) ∧
    ((∀ ev ∈ e.events t n, Unshifted t ev) →
      ∀ k < n, ∀ rule, (e.reads t (k + 1)).event = .reduce rule →
        ∃ table m m', (e.reads t k).machine = .shiftReduce table m ∧
          (e.reads t (k + 1)).machine = .shiftReduce table m' ∧
          Wraps t shape rule m m' (e.builder t shape k) (e.builder t shape (k + 1))) ∧
    ((∀ table, t.shiftReduce = some table →
        ∀ s target, table.action? s t.error ≠ some (.shift target)) →
      ∀ ev ∈ e.events t n, Unshifted t ev) := by
  obtain ⟨table, htable, hreads⟩ := exists_reads h
  have hlevels := level_reads hload h shape hgives
  refine ⟨hlevels, fun hun k hk rule hevent => ?_, fun hquiet ev hev => ?_⟩
  · obtain ⟨m, hm, -⟩ := hreads k
    obtain ⟨hstep, hnext⟩ := reads_shiftReduce hm
    have hlevel := hlevels.2 hun k (by omega)
    rw [hm] at hlevel
    refine ⟨table, m, _, hm, hnext, ?_⟩
    rw [builder_succ, hevent]
    exact ShiftReduce.Level.wraps_step hlevel (hstep ▸ hevent)
  · obtain ⟨k, -, rfl⟩ := mem_events.1 hev
    obtain ⟨m, hm, -⟩ := hreads k
    rw [(reads_shiftReduce hm).1]
    exact ShiftReduce.unshifted_step (Asset.shown_of_load hload) (hquiet table htable)

/-- A read that reports no error gives no document up. -/
theorem not_givesUp_of_event {k : Nat} (h : (e.reads t (k + 1)).event.error? = none) :
    ¬ (e.reads t k).machine.GivesUp t e.showHidden := by
  intro hgives
  cases hm : (e.reads t k).machine with
  | predictive table m => rw [hm] at hgives; exact hgives
  | shiftReduce table m =>
    rw [hm] at hgives
    obtain ⟨err, herr⟩ := ShiftReduce.GivesUp.event hgives
    rw [(reads_shiftReduce hm).1, herr] at h
    cases h

end Engine

/-- Whatever is wrong with a document of the settings language, the stacks stay level. -/
theorem Script.level_broken : ∃ e, Engine.start tables .shiftReduce true broken = .ok e ∧
    ∀ n, (e.builder tables Builder.plain n).nodes.toList.countP Node.isStructural + 1 =
      (e.reads tables n).machine.depth := by
  obtain ⟨e, he⟩ := exists_start .shiftReduce true broken
  refine ⟨e, he, fun n => ?_⟩
  have hgives : ∀ k < n, ¬ (e.reads tables k).machine.GivesUp tables true := fun k _ =>
    not_givesUp_of_reachable ((Engine.Reachable.start he).reads k) true
  obtain ⟨hlevel, -, hquiet⟩ := Engine.level_iff_unshifted load_asset he Builder.plain hgives
  refine hlevel.2 (hquiet ?_) n (Nat.le_refl n)
  rintro table htable s target
  cases htable
  exact quiet.error

/-! ### A table that shifts errors -/

/-- The automaton of `strayPairs`: state 1 shifts the error symbol. -/
def strayRows : List StateRow :=
  [{ actions := [(⟨4⟩, .shift 1)], gotos := [(⟨1⟩, 3), (⟨0⟩, 5)] },
   { actions := [(⟨3⟩, .shift 2)] },
   { actions := [(⟨4⟩, .reduce ⟨1⟩)] },
   { actions := [(⟨4⟩, .shift 4)] },
   { actions := [(⟨2⟩, .reduce ⟨0⟩)] },
   { actions := [(⟨2⟩, .accept)] }]

/-- Pairs of an item and a word, where an item is a word and a character that starts no token. -/
def strayPairs : Asset :=
  { format := Asset.formatName
    version := Asset.formatVersion
    name := "pairs"
    start := ⟨0⟩
    endOfStream := ⟨2⟩
    error := ⟨3⟩
    symbols :=
      [{ name := "Pair", kind := .nonTerminal },
       { name := "Item", kind := .nonTerminal },
       { name := "End", kind := .endOfStream },
       { name := "Stray", kind := .error },
       { name := "Word", kind := .terminal }]
    rules := [⟨⟨0⟩, [⟨1⟩, ⟨4⟩]⟩, ⟨⟨1⟩, [⟨4⟩, ⟨3⟩]⟩]
    automaton := ⟨0, #[{ edges := [⟨[('a', 'z')], 1⟩] }, { accept := some ⟨4⟩ }]⟩
    shiftReduce := some ⟨0, strayRows⟩ }

theorem load_strayPairs : strayPairs.load = .ok strayPairs.tables := by
  have hnames : (strayPairs.symbols.map GrammarSymbol.name).Nodup := by decide
  refine Asset.load_eq_ok.2 ⟨rfl, ?_, Script.eq_ok_of_isOk (by decide), rfl⟩
  rw [Asset.checkShape, bind_unit_eq_ok]
  exact ⟨Asset.checkSymbols_eq_ok.2 ⟨by decide, hnames⟩, Script.eq_ok_of_isOk (by decide)⟩

/-- The tokens of `a?b`. -/
def strayTokens : TokenStream :=
  ⟨[⟨⟨4⟩, "a", .start⟩, ⟨⟨3⟩, "?", ⟨1, 2, 1⟩⟩, ⟨⟨4⟩, "b", ⟨1, 3, 2⟩⟩], ⟨⟨2⟩, "", ⟨1, 4, 3⟩⟩⟩

theorem ofSource_strayPairs : TokenStream.ofSource strayPairs.tables "a?b" = strayTokens := by
  have hword : Scanner.next strayPairs.tables (.ofSource "a?b") =
      (⟨⟨4⟩, "a", .start⟩, ⟨"a?b", ['?', 'b'], ⟨1, 2, 1⟩⟩) := rfl
  have hstray : Scanner.next strayPairs.tables ⟨"a?b", ['?', 'b'], ⟨1, 2, 1⟩⟩ =
      (⟨⟨3⟩, "?", ⟨1, 2, 1⟩⟩, ⟨"a?b", ['b'], ⟨1, 3, 2⟩⟩) := rfl
  have hlast : Scanner.next strayPairs.tables ⟨"a?b", ['b'], ⟨1, 3, 2⟩⟩ =
      (⟨⟨4⟩, "b", ⟨1, 3, 2⟩⟩, ⟨"a?b", [], ⟨1, 4, 3⟩⟩) := rfl
  rw [TokenStream.ofSource, TokenStream.ofScanner_more (by rw [hword]; decide), hword,
    TokenStream.ofScanner_more (by rw [hstray]; decide), hstray,
    TokenStream.ofScanner_more (by rw [hlast]; decide), hlast, TokenStream.ofScanner_last rfl]
  rfl

/-- The engine before `a?b`. -/
def strayEngine : Engine :=
  { machine :=
      .shiftReduce (.ofRows 2 3 0 strayRows) (.start (.ofRows 2 3 0 strayRows) strayTokens) }

theorem start_strayPairs :
    Engine.start strayPairs.tables .shiftReduce false "a?b" = .ok strayEngine := by
  rw [Engine.start, ofSource_strayPairs]
  rfl

/-- The pairs load, and two reads into `a?b` there are two states above the initial one but only one
structural node. The item that is reduced next has two symbols, and its node has one child. -/
theorem strayPairs_not_level : strayPairs.load = .ok strayPairs.tables ∧
    Engine.start strayPairs.tables .shiftReduce false "a?b" = .ok strayEngine ∧
    (∀ k < 3, ¬ (strayEngine.reads strayPairs.tables k).machine.GivesUp strayPairs.tables false) ∧
    (strayEngine.builder strayPairs.tables Builder.plain 2).nodes.toList.countP
        Node.isStructural + 1 ≠
      (strayEngine.reads strayPairs.tables 2).machine.depth ∧
    (strayEngine.reads strayPairs.tables 3).event = .reduce ⟨1⟩ ∧
    strayPairs.tables.rule? ⟨1⟩ = some ⟨⟨1⟩, [⟨4⟩, ⟨3⟩]⟩ ∧
    (strayEngine.builder strayPairs.tables Builder.plain 3).nodes.toList.map
      (fun n => (n.label.id, n.children.length)) = [(⟨1⟩, 1), (⟨3⟩, 0)] := by
  have hclean : ∀ k < 3, (strayEngine.reads strayPairs.tables (k + 1)).event.error? = none := by
    decide +kernel
  refine ⟨load_strayPairs, start_strayPairs, fun k hk => Engine.not_givesUp_of_event (hclean k hk),
    ?_, ?_, rfl, ?_⟩ <;> decide +kernel

end TableParser
