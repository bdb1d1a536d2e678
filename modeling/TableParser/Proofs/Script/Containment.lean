import TableParser.Proofs.Script.Extension
import TableParser.Proofs.Script.Stacked
/-!
Errors are contained.

A source that is read without an error is a row of statements, and both engines are done with a
statement when they come to the first token of the next one. So where the source goes on in a new
line, they read all statements but the last as they do without what is added. From there on nothing
takes the nodes of these statements apart: in the predictive engine they lie under the open rules of
the list (`Builder.Settled`), in the shift-reduce engine at the bottom of the stack (`Stacked`).

    source    a = 1
              b { }
              c            a last statement, which may go on
              = { d } } "  whatever comes
    tree      Config( Statement  Statement  Block  … )

Main statement: `errors_contained`.
-/

namespace TableParser.Script

open Builder (dissolves feed)
open TokenStream (Ready)

/-! ### The statements of a source -/

section Statements

variable {f a : Forest} {fs : List Forest} {α : List SymbolId} {ns : List Node} {n : Node}
  {doc : Document}

/-- A tree of a statement, and the node that is built for it. -/
structure Makes (a : Forest) (n : Node) : Prop where
  derived : a.Derived tables [statement]
  opens : ∃ c later, a.cells = c :: later ∧ c.symbol ∈ lbrace :: scalars
  sound : ∀ c ∈ a.cells, c.symbol ≠ tables.error
  row : ∀ g p, (a.row tables {} false g p).1 = [n]

/-- The trees of a list are trees of statements. -/
theorem exists_statements (h : f.Derived tables α)
    (hα : α = [] ∨ (∃ x ∈ [config, statements], α = [x]) ∨ α = [statement, statements]) :
    ∃ fs : List Forest, f.cells = fs.flatMap Forest.cells ∧
      ∀ a ∈ fs, a.Derived tables [statement] := by
  have hrules : ∀ r ∈ rules, r.lhs ∈ [config, statements] →
      r.rhs = [] ∨ r.rhs = [statement, statements] := by
    decide
  have hkind : ∀ x ∈ [config, statements, statement], tables.isNonTerminal x = true := by decide
  induction h with
  | nil => exact ⟨[], rfl, List.forall_mem_nil _⟩
  | @leaf cell rest α proper _ _ =>
    have hcell : cell.symbol ∈ [config, statements, statement] := by
      rcases hα with h | ⟨x, hx, h⟩ | h
      · cases h
      · rw [(List.cons.inj h).1]
        exact List.mem_append_left [statement] hx
      · rw [(List.cons.inj h).1]
        decide
    exact absurd (proper.terminal.symm.trans (hkind _ hcell)) Bool.false_ne_true
  | @node rule r children rest α known dbelow dlater below later =>
    rcases hα with h | ⟨x, hx, h⟩ | h
    · cases h
    · obtain ⟨hlhs, rfl⟩ := List.cons.inj h
      cases dlater
      rw [← hlhs] at hx
      obtain ⟨fs, hcells, hfs⟩ := below ((hrules r (mem_rules known) hx).imp_right .inr)
      exact ⟨fs, by rw [Forest.cells, hcells, Forest.cells, List.append_nil], hfs⟩
    · obtain ⟨hlhs, rfl⟩ := List.cons.inj h
      obtain ⟨fs, hcells, hfs⟩ := later (.inr (.inl ⟨statements, by decide, rfl⟩))
      refine ⟨.node rule children .nil :: fs, ?_, List.forall_mem_cons.2 ⟨?_, hfs⟩⟩
      · rw [Forest.cells, hcells, List.flatMap_cons, Forest.cells, Forest.cells, List.append_nil]
      · rw [← hlhs]
        exact .node known dbelow .nil

/-- The tree of a non-terminal is a node of one of its rules. -/
theorem exists_node {x : SymbolId} (h : a.Derived tables [x]) (hx : tables.isNonTerminal x = true) :
    ∃ rule r children, a = .node rule children .nil ∧ tables.rule? rule = some r ∧ r.lhs = x ∧
      children.Derived tables r.rhs := by
  generalize hα : [x] = α at h
  cases h with
  | nil => cases hα
  | leaf proper =>
    obtain ⟨rfl, -⟩ := List.cons.inj hα
    exact absurd (proper.terminal.symm.trans hx) Bool.false_ne_true
  | node known below later =>
    obtain ⟨rfl, rfl⟩ := List.cons.inj hα
    cases later
    exact ⟨_, _, _, rfl, known, rfl, below⟩

/-- The row of a statement is one tree, which does not give way. -/
theorem row_statement (h : a.Derived tables [statement]) (g : List Token) (p : Position) :
    ∃ n, (a.row tables {} false g p).1 = [n] ∧ dissolves n = false := by
  have hstatement : ∀ r ∈ rules, r.lhs = statement → r.rhs.length ≠ 1 ∨ r.rhs = [block] := by decide
  have hblock : ∀ r ∈ rules, r.lhs = block → r.rhs.length ≠ 1 := by decide
  obtain ⟨rule, r, children, rfl, known, hlhs, hchildren⟩ := exists_node h rfl
  refine ⟨_, rfl, ?_⟩
  rcases hstatement r (mem_rules known) hlhs with hlength | hrhs
  · rw [Builder.ruleNode_eq_wrap known hlength, Builder.dissolves_wrap, hlhs]
    decide
  · rw [hrhs] at hchildren
    obtain ⟨rule', r', children', rfl, known', hlhs', -⟩ := exists_node hchildren rfl
    obtain ⟨q, cs, hrow⟩ : ∃ q cs, ((Forest.node rule' children' .nil).row tables {} false [] p).1 =
        [Builder.ruleNode tables {} rule' q cs] := ⟨_, _, rfl⟩
    rw [show shownStop false g p = p from rfl, hrow,
      Builder.ruleNode_promoted known (by rw [hrhs]; rfl) (Builder.isPromoted_ruleNode ..),
      Builder.ruleNode_eq_wrap known' (hblock r' (mem_rules known') hlhs'),
      Builder.dissolves_wrap, hlhs']
    decide

/-- A tree of a statement makes one node, the same wherever it stands. -/
theorem exists_makes (h : a.Derived tables [statement])
    (hok : ∀ c ∈ a.cells, c.symbol ≠ tables.error) :
    ∃ (n : Node) (doc : Document), Makes a n ∧ doc.Proper ∧ doc.tokens = a.cells.map Cell.token ∧
      doc.nodes = [n] := by
  -- what is read does not depend on where the tree stands
  have hreads : ∀ g p, ∃ doc : Document, doc.Proper ∧ a.cells.map Cell.token = doc.tokens ∧
      (a.row tables {} false g p).1 = doc.nodes := by
    intro g p
    obtain ⟨n, hrow, hstays⟩ := row_statement h g p
    obtain ⟨-, hreads⟩ := readsAll_row h g p
    obtain ⟨⟨doc, hdoc, htokens, hnodes⟩, -⟩ := readsAll_singleton hreads
    refine ⟨doc, hdoc, htokens, ?_⟩
    rw [← hnodes, hrow, Builder.splice_singleton, if_neg (by simp [hstays])]
  obtain ⟨doc, hdoc, htokens, hnodes⟩ := hreads [] .start
  obtain ⟨n, hrow, -⟩ := row_statement h [] .start
  rw [hrow] at hnodes
  refine ⟨n, doc, ⟨h, ?_, hok, fun g p => ?_⟩, hdoc, htokens.symm, hnodes.symm⟩
  · obtain ⟨tok, later, hfirst, hopens⟩ :=
      hdoc.opens fun hnil => by rw [hnil] at hnodes; cases hnodes
    obtain ⟨c, later, hcells, rfl, -⟩ := List.map_eq_cons_iff.1 (htokens.trans hfirst)
    exact ⟨c, later, hcells, hopens⟩
  · obtain ⟨doc', hdoc', htokens', hnodes'⟩ := hreads g p
    have hcloses : Document.Closes [] := by rintro _ ⟨⟩
    obtain ⟨rfl, -⟩ := Document.unique hdoc' hdoc hcloses hcloses (by rw [← htokens', htokens])
    rw [hnodes', hnodes]

/-- Trees of statements make the nodes of a document. -/
theorem exists_nodes (h : ∀ a ∈ fs, a.Derived tables [statement])
    (hok : ∀ c ∈ fs.flatMap Forest.cells, c.symbol ≠ tables.error) : ∃ doc : Document, doc.Proper ∧
      doc.tokens = (fs.flatMap Forest.cells).map Cell.token ∧ List.Forall₂ Makes fs doc.nodes := by
  induction fs with
  | nil => exact ⟨.nil, trivial, rfl, .nil⟩
  | cons a fs ih =>
    rw [List.forall_mem_cons] at h
    rw [List.flatMap_cons, List.forall_mem_append] at hok
    obtain ⟨n, first, hmakes, hfirst, htokens, hnodes⟩ := exists_makes h.1 hok.1
    obtain ⟨rest, hrest, htokens', hmakes'⟩ := ih h.2 hok.2
    refine ⟨first.append rest, hfirst.append hrest, ?_, ?_⟩
    · rw [Document.tokens_append, htokens, htokens', List.flatMap_cons, List.map_append]
    · rw [Document.nodes_append, hnodes]
      exact .cons hmakes hmakes'

theorem Document.areEntries_nodes (doc : Document) : AreEntries doc.nodes := by
  have hbranch : ∀ {symbol : String} {id : SymbolId} {p : Position} {cs : List Node}, id ≠ config →
      (Node.branch symbol id false none p cs).isStructural = true ∧
        dissolves (Node.branch symbol id false none p cs) = false ∧
        (Node.branch symbol id false none p cs).label.id ≠ config := by
    intro symbol id p cs hid
    refine ⟨?_, ?_, by rwa [Node.id_branch]⟩
    · rw [Node.isStructural, Node.hidden_branch, Node.error_branch]
      rfl
    · rw [dissolves, Node.collapsed_branch, Bool.false_and]
  induction doc with
  | nil => exact List.forall_mem_nil _
  | plain | setting | group | braces =>
    rw [nodes]
    exact List.forall_mem_cons.2 ⟨hbranch (by decide), by assumption⟩

/-- A source that is read without an error is a row of trees of statements, and the children of its
tree are their nodes. -/
theorem statements_of_readsClean {strategy : Strategy} {source : String}
    (h : ReadsClean strategy false source) :
    ∃ (g : List Token) (fs : List Forest) (ns : List Node) (p : Position),
      (TokenStream.ofSource tables source).ahead = g ++ fs.flatMap Forest.tokens ∧
      (∀ tok ∈ g, tables.isHidden tok.symbol = true) ∧ List.Forall₂ Makes fs ns ∧ AreEntries ns ∧
      parse tables strategy {} source =
        .ok (if ns.isEmpty then none else some (.branch "Config" config false none p ns)) := by
  obtain ⟨g, f, hahead, hg, hf, hok⟩ := exists_forest (sentence_of_readsClean h)
  obtain ⟨fs, hcells, hfs⟩ := exists_statements hf (.inr (.inl ⟨config, by decide, rfl⟩))
  obtain ⟨doc, hdoc, htokens, hmakes⟩ := exists_nodes hfs (hcells ▸ hok)
  obtain ⟨doc', q, hdoc', htokens', hparse⟩ := exists_document h
  have hcloses : Document.Closes [] := by rintro _ ⟨⟩
  obtain ⟨rfl, -⟩ := Document.unique hdoc' hdoc hcloses hcloses
    (by rw [htokens', visible_eq hahead hg hf, htokens, hcells])
  refine ⟨g, fs, doc'.nodes, q, ?_, hg, hmakes, ?_, hparse⟩
  · rw [hahead, Forest.tokens, hcells, List.flatMap_assoc]
    rfl
  · exact doc'.areEntries_nodes

end Statements

/-! ### Reading statements -/

/-- What comes next opens a statement. -/
def Opens (ahead : List Token) : Prop :=
  ∃ tok later, ahead = tok :: later ∧ tok.symbol ∈ lbrace :: scalars

section Engines

variable {a : Forest} {n : Node} {fs : List Forest} {ns nodes : List Node} {g later : List Token}
  {last : Token} {frames : List OpenRule} {p : Position}

theorem Opens.ready (h : Opens later) : Ready tables later := by
  have hshown : ∀ s ∈ lbrace :: scalars, tables.isHidden s = false := by decide
  obtain ⟨tok, later, rfl, hopens⟩ := h
  rintro tok later ⟨⟩
  exact hshown _ hopens

theorem Opens.current (h : Opens later) (last : Token) :
    (TokenStream.current ⟨later, last⟩).symbol ∈ lbrace :: scalars := by
  obtain ⟨tok, later, rfl, hopens⟩ := h
  exact hopens

theorem Makes.opens_append (h : Makes a n) (later : List Token) : Opens (a.tokens ++ later) := by
  obtain ⟨c, cells, hcells, hopens⟩ := h.opens
  rw [Forest.tokens, hcells]
  exact ⟨c.token, _, rfl, hopens⟩

theorem Makes.tokens_sound (h : Makes a n) : ∀ tok ∈ a.tokens, tok.symbol ≠ error := by
  intro tok htok
  obtain ⟨c, hc, htok⟩ := List.mem_flatMap.1 htok
  rcases List.mem_cons.1 htok with rfl | htrivia
  · exact h.sound c hc
  · rintro heq
    have hhidden := (h.derived.proper c hc).hidden tok htrivia
    rw [heq] at hhidden
    cases hhidden

theorem opens_append (h : List.Forall₂ Makes fs ns) (hnext : Opens later) :
    Opens (fs.flatMap Forest.tokens ++ later) := by
  cases h with
  | nil => exact hnext
  | cons first =>
    rw [List.flatMap_cons, List.append_assoc]
    exact first.opens_append _

/-- A symbol and the rule for it before a statement: one statement and the ones after it. -/
structure ListRule (x : SymbolId) (rule : RuleId) : Prop where
  known : ∃ r, tables.rule? rule = some r ∧ r.lhs = x ∧ r.rhs = [statement, statements]
  kind : tables.isNonTerminal x = true
  predicted : ∀ s ∈ lbrace :: scalars, PredictionTable.written 7 12 predictions x s = some rule

theorem listRule_config : ListRule config ⟨0⟩ := ⟨⟨_, rfl, rfl, rfl⟩, rfl, by decide⟩

theorem listRule_statements : ListRule statements ⟨2⟩ := ⟨⟨_, rfl, rfl, rfl⟩, rfl, by decide⟩

variable (last) in
/-- The predictive engine opens a rule for a statement and leaves it open. -/
theorem emits_opened {x : SymbolId} {rule : RuleId} (hrule : ListRule x rule) (h : Makes a n)
    (hg : ∀ tok ∈ g, tables.isHidden tok.symbol = true) (hnext : Opens later) (below : List Pending)
    (nodes : List Node) (frames : List OpenRule) (p : Position) :
    ∃ es p', Emits (Predictive.step tables prediction false)
        ⟨⟨g ++ (a.tokens ++ later), last⟩, .symbol x :: below, false⟩ es
        ⟨⟨a.left [] ++ later, last⟩, .symbol statements :: .close rule :: below, false⟩ ∧
      .endDocument ∉ es ∧ es.foldl (feed tables {}) ⟨nodes.toArray, frames, p⟩ =
        ⟨(nodes ++ [n]).toArray, ⟨rule, nodes.length, p⟩ :: frames, p'⟩ := by
  obtain ⟨r, known, -, hrhs⟩ := hrule.known
  have hopens := h.opens_append later
  have hexpand : Predictive.step tables prediction false
      ⟨⟨a.tokens ++ later, last⟩, .symbol x :: below, false⟩ = (.nonTerminal rule,
        ⟨⟨a.tokens ++ later, last⟩,
          [statement].map .symbol ++ .symbol statements :: .close rule :: below, false⟩) := by
    rw [Predictive.step_expand hrule.kind (TokenStream.nextHidden_ready hopens.ready false)
      (by rw [get?_eq]; exact hrule.predicted _ (hopens.current last)),
      Predictive.body_of_rule known, hrhs]
    rfl
  have hfits : ∀ s ∈ lbrace :: scalars, Predictive.Fits tables sets following [statement] s := by
    decide
  have hrun := (Predictive.emits_trivia (by simp) hg hopens.ready hexpand).append
    (Predictive.emits_forest predictive_adequate h.derived (List.forall_mem_nil _) hnext.ready rfl
      (hfits _ (hnext.current last)))
  have hplain := Forest.plain_opened (p := fun _ => True) false a (by simp) (List.forall_mem_nil _)
  refine ⟨_, (a.row tables {} false [] p).2, hrun, ?_, ?_⟩
  · rw [shownAs, if_neg Bool.false_ne_true, List.nil_append, List.singleton_append,
      List.mem_cons, not_or]
    exact ⟨by rintro ⟨⟩, fun hmem => (hplain _ hmem).more rfl⟩
  · rw [List.foldl_append, shownAs, if_neg Bool.false_ne_true, List.nil_append, List.foldl_cons,
      List.foldl_nil, feed, List.size_toArray, Builder.foldl_opened, h.row]

variable (last) in
/-- The predictive engine goes through statements and leaves a rule of the list open for each. -/
theorem emits_all_opened (h : List.Forall₂ Makes fs ns) (hnext : Opens later) :
    ∀ {g : List Token} (below : List Pending) (nodes : List Node) (frames : List OpenRule)
      (p : Position), (∀ tok ∈ g, tables.isHidden tok.symbol = true) → ∃ es m lists p',
        Emits (Predictive.step tables prediction false)
          ⟨⟨g ++ (fs.flatMap Forest.tokens ++ later), last⟩, .symbol statements :: below, false⟩
          es m ∧
        .endDocument ∉ es ∧ es.foldl (feed tables {}) ⟨nodes.toArray, frames, p⟩ =
          ⟨(nodes ++ ns).toArray, lists ++ frames, p'⟩ ∧ ∀ f ∈ lists, f.rule = ⟨2⟩ := by
  induction h with
  | nil =>
    intro g below nodes frames p _
    exact ⟨[], _, [], p, .nil _, List.not_mem_nil, by simp, List.forall_mem_nil _⟩
  | @cons a n fs ns first rest ih =>
    intro g below nodes frames p hg
    obtain ⟨es, q, hrun, hmore, hfold⟩ :=
      emits_opened last listRule_statements first hg (opens_append rest hnext) below nodes frames p
    obtain ⟨es', m, lists, p', hrun', hmore', hfold', hlists⟩ :=
      ih (.close ⟨2⟩ :: below) (nodes ++ [n]) (⟨⟨2⟩, nodes.length, p⟩ :: frames) q
        (first.derived.left_hidden (List.forall_mem_nil _))
    refine ⟨es ++ es', m, lists ++ [⟨⟨2⟩, nodes.length, p⟩], p', ?_, ?_, ?_, ?_⟩
    · rw [List.flatMap_cons, List.append_assoc]
      exact hrun.append hrun'
    · rw [List.mem_append, not_or]
      exact ⟨hmore, hmore'⟩
    · rw [List.foldl_append, hfold, hfold']
      simp
    · rw [List.forall_mem_append, List.forall_mem_singleton]
      exact ⟨hlists, rfl⟩

variable (last) in
/-- After some statements the predictive engine has their nodes under open rules of the list. -/
theorem settled_start (h : List.Forall₂ Makes fs ns) (hentries : AreEntries ns) (hne : ns ≠ [])
    (hg : ∀ tok ∈ g, tables.isHidden tok.symbol = true) (hnext : Opens later) : ∃ es m,
      Emits (Predictive.step tables prediction false)
        (.start tables ⟨g ++ (fs.flatMap Forest.tokens ++ later), last⟩) es m ∧ .endDocument ∉ es ∧
      Builder.Settled tables ns (es.foldl (feed tables {}) {}).frames
        (es.foldl (feed tables {}) {}).nodes.toList := by
  cases h with
  | nil => exact absurd rfl hne
  | @cons a n fs ns first rest =>
    obtain ⟨es, q, hrun, hmore, hfold⟩ :=
      emits_opened last listRule_config first hg (opens_append rest hnext) [] [] [] .start
    obtain ⟨es', m, lists, p', hrun', hmore', hfold', hlists⟩ :=
      emits_all_opened last rest hnext [.close ⟨0⟩] [n] [⟨⟨0⟩, 0, .start⟩] q
        (first.derived.left_hidden (List.forall_mem_nil _))
    refine ⟨es ++ es', m, ?_, ?_, ?_⟩
    · rw [List.flatMap_cons, List.append_assoc]
      exact hrun.append hrun'
    · rw [List.mem_append, not_or]
      exact ⟨hmore, hmore'⟩
    · rw [List.foldl_append, show ({} : Builder) = ⟨([] : List Node).toArray, [], .start⟩ from rfl,
        hfold, List.nil_append, List.length_nil, hfold']
      refine .listed (fun f hf => ⟨_, by rw [hlists f hf]; rfl, by decide⟩) (rule?_eq ⟨0⟩) rfl
        (by decide) ?_
      have hself := Builder.splice_eq_self fun n hn => (hentries n hn).2.1
      exact ⟨[], (List.append_nil _).trans hself.symm⟩

/-- Before a statement the states of a list go on to one of them. -/
theorem walk_list : ∀ s ∈ ([0, 2, 12] : List StateId), ∃ s' ∈ ([0, 2, 12] : List StateId),
    ∀ a ∈ lbrace :: scalars, ShiftReduce.walk tables (ShiftReduceTable.writtenAction 7 12 stateRows)
      (ShiftReduceTable.writtenGoto 7 stateRows) sets s [statement] a = some s' := by
  intro s hs
  obtain rfl | rfl | rfl : s = 0 ∨ s = 2 ∨ s = 12 := by
    simpa only [List.mem_cons, List.not_mem_nil, or_false] using hs
  · exact ⟨2, by decide, by decide⟩
  · exact ⟨12, by decide, by decide⟩
  · exact ⟨12, by decide, by decide⟩

variable (last) in
/-- The shift-reduce engine puts a statement on the stack. -/
theorem emits_reduced (h : Makes a n) (hg : ∀ tok ∈ g, tables.isHidden tok.symbol = true)
    (hnext : Opens later) {s : StateId} {below : List StateId} {xs : List SymbolId}
    (hs : s ∈ ([0, 2, 12] : List StateId)) (hspells : shiftReduce.Spells xs (s :: below))
    (nodes : List Node) (p : Position) :
    ∃ s' ∈ ([0, 2, 12] : List StateId), shiftReduce.Spells (statement :: xs) (s' :: s :: below) ∧
      Emits (ShiftReduce.step tables shiftReduce false)
        ⟨⟨g ++ (a.tokens ++ later), last⟩, s :: below, .running⟩
        (a.reduced false g) ⟨⟨a.kept g ++ later, last⟩, s' :: s :: below, .running⟩ ∧
      .endDocument ∉ a.reduced false g ∧
      ∃ p', (a.reduced false g).foldl (feed tables {}) ⟨nodes.toArray, [], p⟩ =
        ⟨(nodes ++ [n]).toArray, [], p'⟩ := by
  obtain ⟨s', hs', hwalk⟩ := walk_list s hs
  have hwalk := hwalk _ (hnext.current last)
  rw [← action?_eq, ← goto?_eq] at hwalk
  obtain ⟨pushed, rest, hlength, htop, hrun⟩ :=
    @ShiftReduce.emits_forest tables shiftReduce sets false shiftReduce_adequate a _ h.derived g
      later last _ s s' below hg hnext.ready rfl hwalk
  obtain ⟨top, rfl⟩ := List.length_eq_one_iff.1 hlength
  obtain ⟨rfl, -⟩ := List.cons.inj htop
  obtain ⟨s', hgoto, -, hwalk'⟩ := ShiftReduce.walk_cons hwalk
  obtain rfl : s' = top := Option.some.inj hwalk'
  have hgoto : shiftReduce.goto? s statement = some s' := hgoto
  have hplain := Forest.plain_reduced (p := fun _ => True) false a (by simp) (g := g) (by simp)
  refine ⟨s', hs', hspells.move (.inr hgoto), hrun, fun hmem => (hplain _ hmem).more rfl, ?_⟩
  obtain ⟨early, -, hfold⟩ :=
    @Builder.foldl_reduced tables {} false a _ h.derived h.sound [] g nodes [] p
  simp only [shownLeaves_nil, shownStop_nil, List.append_nil, List.nil_append, h.row,
    show shownLeaves tables {} false early = [] from rfl] at hfold
  exact ⟨_, hfold⟩

variable (last) in
/-- The shift-reduce engine puts statements on the stack one after the other. -/
theorem emits_all_reduced (h : List.Forall₂ Makes fs ns) (hnext : Opens later) :
    ∀ {g : List Token} {s : StateId} {below : List StateId} {xs : List SymbolId}
      (nodes : List Node) (p : Position),
      (∀ tok ∈ g, tables.isHidden tok.symbol = true) → s ∈ ([0, 2, 12] : List StateId) →
      shiftReduce.Spells xs (s :: below) → ∃ es m p',
        Emits (ShiftReduce.step tables shiftReduce false)
          ⟨⟨g ++ (fs.flatMap Forest.tokens ++ later), last⟩, s :: below, .running⟩ es m ∧
        .endDocument ∉ es ∧
        es.foldl (feed tables {}) ⟨nodes.toArray, [], p⟩ = ⟨(nodes ++ ns).toArray, [], p'⟩ ∧
        shiftReduce.Spells (List.replicate ns.length statement ++ xs) m.states := by
  induction h with
  | nil =>
    intro g s below xs nodes p _ _ hspells
    exact ⟨[], _, p, .nil _, List.not_mem_nil, by simp, hspells⟩
  | @cons a n fs ns first rest ih =>
    intro g s below xs nodes p hg hs hspells
    obtain ⟨s', hs', hspells', hrun, hmore, q, hfold⟩ :=
      emits_reduced last first hg (opens_append rest hnext) hs hspells nodes p
    obtain ⟨es, m, p', hrun', hmore', hfold', hall⟩ :=
      ih (nodes ++ [n]) q (first.derived.kept_hidden hg) hs' hspells'
    refine ⟨a.reduced false g ++ es, m, p', ?_, ?_, ?_, ?_⟩
    · rw [List.flatMap_cons, List.append_assoc]
      exact hrun.append hrun'
    · rw [List.mem_append, not_or]
      exact ⟨hmore, hmore'⟩
    · rw [List.foldl_append, hfold, hfold', List.append_assoc]
      rfl
    · rwa [List.length_cons, List.replicate_succ', List.append_assoc]

variable (last) in
/-- After some statements the shift-reduce engine has them at the bottom of its stack. -/
theorem stacked_start (h : List.Forall₂ Makes fs ns)
    (hg : ∀ tok ∈ g, tables.isHidden tok.symbol = true) (hnext : Opens later) :
    ∃ es m, Emits (ShiftReduce.step tables shiftReduce false)
        (.start shiftReduce ⟨g ++ (fs.flatMap Forest.tokens ++ later), last⟩) es m ∧
      .endDocument ∉ es ∧ ∃ xs, shiftReduce.Spells xs m.states ∧
        Stacked ns xs (es.foldl (feed tables {}) {}).nodes.toList := by
  obtain ⟨es, m, p', hrun, hmore, hfold, hspells⟩ :=
    emits_all_reduced last h hnext [] .start hg (by decide) .start
  refine ⟨es, m, hrun, hmore, _, hspells, ?_⟩
  rw [show ({} : Builder) = ⟨([] : List Node).toArray, [], .start⟩ from rfl, hfold, List.append_nil]
  have hstanding : Stacked ns ([] ++ List.replicate ns.length statement) (ns ++ []) := .standing rfl
  rwa [List.nil_append, List.append_nil] at hstanding

end Engines

/-! ### Whole runs -/

section Runs

variable {strategy : Strategy} {fs : List Forest} {done : List Node} {g later : List Token}
  {source : String} {e : Engine} {tree : Node} {es : List Event} {machine : Machine} {n : Nat}

/-- What holds when some events are read and is kept by every read holds at the end. -/
theorem at_end_of_emits {P : Engine → Builder → Prop}
    (hrun : Emits (Machine.step tables e.showHidden) e.machine es machine)
    (hmore : .endDocument ∉ es)
    (hstart : P (e.reads tables es.length) (es.foldl (feed tables {}) {}))
    (hread : ∀ n, P (e.reads tables n) (e.builder tables {} n) →
      P (e.reads tables (n + 1)) (e.builder tables {} (n + 1)))
    (hn : Engine.EndsAfter tables n e) : P (e.reads tables n) (e.builder tables {} n) := by
  obtain ⟨k, rfl⟩ := Nat.exists_eq_add_of_le (Engine.length_le_of_emits hrun hmore hn)
  clear hn
  induction k with
  | zero =>
    rw [Nat.add_zero, Engine.builder, (Engine.reads_of_emits hrun).1]
    exact hstart
  | succ k ih => exact hread _ ih

section Start

variable
  (hahead : (TokenStream.ofSource tables source).ahead = g ++ (fs.flatMap Forest.tokens ++ later))
  (hg : ∀ tok ∈ g, tables.isHidden tok.symbol = true) (hmakes : List.Forall₂ Makes fs done)
  (hentries : AreEntries done) (hne : done ≠ []) (hnext : Opens later)

include hahead hg hmakes hentries hne hnext

/-- Once statements are done, they stay at the front in the predictive engine. -/
theorem settled_reads (he : Engine.start tables .predictive false source = .ok e)
    (hn : Engine.EndsAfter tables n e) :
    Builder.Settled tables done (e.builder tables {} n).frames
      (e.builder tables {} n).nodes.toList := by
  obtain ⟨table, -, hreads⟩ := Engine.follows_reads load_asset he
  obtain ⟨es, m, hrun, hmore, hstart⟩ :=
    settled_start (TokenStream.ofSource tables source).last hmakes hentries hne hg hnext
  rw [← hahead] at hrun
  cases he
  refine at_end_of_emits (P := fun _ b => Builder.Settled tables done b.frames b.nodes.toList)
    (hrun.map (f := Machine.predictive prediction) fun _ => rfl) hmore hstart (fun k h => ?_) hn
  obtain ⟨m, hm, -⟩ := hreads k
  rw [Engine.builder_succ]
  refine h.feed fun rule => ?_
  rw [(Engine.reads_predictive hm).1]
  exact m.step_ne_reduce _ rule

/-- Once statements are done, they stay at the bottom of the stack in the shift-reduce engine. -/
theorem stacked_reads (he : Engine.start tables .shiftReduce false source = .ok e)
    (hn : Engine.EndsAfter tables n e) :
    ∃ xs, Stacked done xs (e.builder tables {} n).nodes.toList := by
  obtain ⟨es, m, hrun, hmore, hstart⟩ :=
    stacked_start (TokenStream.ofSource tables source).last hmakes hg hnext
  rw [← hahead] at hrun
  have hreach := Engine.Reachable.start he
  cases he
  have hrun : Emits (Machine.step tables false) (.shiftReduce shiftReduce _) es
      (.shiftReduce shiftReduce m) :=
    hrun.map fun _ => rfl
  have hall := at_end_of_emits (P := fun e b => ∃ m, e.machine = .shiftReduce shiftReduce m ∧
    ∃ xs, shiftReduce.Spells xs m.states ∧ Stacked done xs b.nodes.toList) hrun hmore
    ⟨m, (Engine.reads_of_emits hrun).2.1, hstart⟩ ?_ hn
  · obtain ⟨_, -, xs, -, hstacked⟩ := hall
    exact ⟨xs, hstacked⟩
  · rintro k ⟨m, hm, h⟩
    have hlast := ((hreach.reads k).last endsLast).1
    rw [hm] at hlast
    obtain ⟨hevent, hnext⟩ := Engine.reads_shiftReduce hm
    rw [Engine.builder_succ, hevent]
    exact ⟨_, hnext, stacked_step hentries hne hlast h⟩

/-- The statements that are done are the first children of the tree. -/
theorem prefix_of_build (he : Engine.start tables strategy false source = .ok e)
    (hn : Engine.EndsAfter tables n e)
    (htree : Builder.build tables {} (e.events tables n) = some tree) : done <+: tree.children := by
  -- no rule is left open, so the tree is that of the row
  have hfinish : (e.builder tables {} n).frames = [] →
      Builder.finish tables {} (e.builder tables {} n).last (e.builder tables {} n).nodes.toList =
        some tree := by
    intro hframes
    rw [← htree, Builder.build]
    change _ = Builder.finish tables {} (e.builder tables {} n).last
      ((e.builder tables {} n).frames.foldl _ (e.builder tables {} n).nodes).toList
    rw [hframes]
    rfl
  cases strategy with
  | predictive =>
    obtain ⟨hframes, core, hcore, -⟩ :=
      Engine.only_start_of_predictive load_asset (fun _ => certain_of_prediction) he hn {}
    have hsettled := settled_reads hahead hg hmakes hentries hne hnext he hn
    have hfinish := hfinish hframes
    rw [hframes] at hsettled
    obtain ⟨root, after, hnodes, inner, counts, hfront⟩ := hsettled.exists_root
    rw [hnodes] at hfinish hcore
    have hafter : ∀ n ∈ after, n.isStructural = false := by
      rw [List.filter_cons_of_pos counts] at hcore
      simpa using (List.cons.inj hcore).2
    rw [Builder.children_of_finish inner counts hafter hfinish]
    exact hfront.trans (List.prefix_append ..)
  | shiftReduce =>
    obtain ⟨xs, hstacked⟩ := stacked_reads hahead hg hmakes hentries hne hnext he hn
    obtain ⟨table, _, hmachine⟩ := Engine.exists_shiftReduce he
    exact hstacked.prefix_of_finish hentries hne (heads_of_build he hn htree).id
      (hfinish (Engine.frames_reads hmachine {} n))

end Start

/-- The tokens of statements, up to the first one of the next statement, stay when a new line and
more are added. -/
theorem exists_ahead_newline {d₁ : String} {tok : Token}
    (hahead : (TokenStream.ofSource tables d₁).ahead =
      g ++ (fs.flatMap Forest.tokens ++ tok :: later))
    (hg : ∀ tok ∈ g, tables.isHidden tok.symbol = true) (hmakes : List.Forall₂ Makes fs done)
    (hopens : tok.symbol ∈ lbrace :: scalars) (d₂ : String) : ∃ later',
      (TokenStream.ofSource tables (d₁ ++ "\n" ++ d₂)).ahead =
        g ++ (fs.flatMap Forest.tokens ++ tok :: later') := by
  have hkinds : ∀ s ∈ lbrace :: scalars, s ≠ whitespace ∧ s ≠ error := by decide
  have hok : ∀ x ∈ g ++ fs.flatMap Forest.tokens ++ [tok], x.symbol ≠ error := by
    simp only [List.forall_mem_append, List.forall_mem_singleton]
    refine ⟨⟨fun x hx heq => ?_, fun x hx => ?_⟩, (hkinds _ hopens).2⟩
    · have hhidden := hg x hx
      rw [heq] at hhidden
      cases hhidden
    · obtain ⟨a, ha, hx⟩ := List.mem_flatMap.1 hx
      obtain ⟨n, -, hmade⟩ := ShiftReduce.exists_of_forall₂ hmakes ha
      exact hmade.tokens_sound x hx
  rw [← List.append_assoc] at hahead
  obtain ⟨later', hlater⟩ := exists_ahead_append d₁ (d₁ ++ "\n" ++ d₂) ('\n' :: d₂.toList) rfl
    (hkinds _ hopens).1 hahead hok
  refine ⟨later', ?_⟩
  rw [← List.append_assoc, ← hlater, TokenStream.ofSource, Scanner.ofSource, String.append_assoc,
    String.toList_append, String.toList_append]
  rfl

/-- Whatever comes in a new line after a source that is read without an error, malformed or not, the
tree of both together starts with the statements of the source, all but the last one: the children
of the root are the same nodes, in every field. -/
theorem errors_contained {d₁ : String} (h : ReadsClean strategy false d₁) {r₁ : Node}
    (htree : parse tables strategy {} d₁ = .ok (some r₁)) (d₂ : String) :
    ∃ r₂, parse tables strategy {} (d₁ ++ "\n" ++ d₂) = .ok (some r₂) ∧
      r₂.children.take (r₁.children.length - 1) = r₁.children.take (r₁.children.length - 1) := by
  obtain ⟨g, fs, ns, p, hahead, hg, hmakes, hentries, hparse⟩ := statements_of_readsClean h
  rw [htree] at hparse
  rcases List.eq_nil_or_concat ns with rfl | ⟨done, last, rfl⟩
  · cases hparse
  rw [List.concat_eq_append] at hmakes hentries hparse
  have hchildren : r₁.children = done ++ [last] := by
    rw [if_neg (by simp)] at hparse
    rw [Option.some.inj (Except.ok.inj hparse), Node.children_branch]
  -- the first token of the last statement is read as before, and with it the statements before
  have hbefore := List.forall₂_take_append _ _ _ hmakes
  obtain ⟨a, rest, hlast, hrest, hdrop⟩ :=
    List.forall₂_cons_right_iff.1 (List.forall₂_drop_append _ _ _ hmakes)
  obtain rfl := List.forall₂_nil_right_iff.1 hrest
  obtain ⟨tok, later, htokens, hopens⟩ := hlast.opens_append []
  have hcells : fs.flatMap Forest.tokens =
      (fs.take done.length).flatMap Forest.tokens ++ tok :: later := by
    conv => lhs; rw [← List.take_append_drop done.length fs, hdrop]
    rw [List.flatMap_append, List.flatMap_singleton, ← htokens, List.append_nil]
  rw [hcells] at hahead
  obtain ⟨later', hlonger⟩ := exists_ahead_newline hahead hg hbefore hopens d₂
  obtain ⟨e, he⟩ := exists_start strategy false (d₁ ++ "\n" ++ d₂)
  obtain ⟨n, hn, hlimit⟩ := endsAfter_of_reachable (.start he)
  have hbuild : parse tables strategy {} (d₁ ++ "\n" ++ d₂) =
      .ok (Builder.build tables {} (e.events tables n)) := by
    rw [parse, he]
    exact congrArg Except.ok (by rw [Engine.parse, Engine.run_eq hn hlimit])
  cases hr : Builder.build tables {} (e.events tables n) with
  | none =>
    have hshown : ∀ s ∈ lbrace :: scalars, tables.isHidden s = false := by decide
    have hnone := shown_of_parse he hn hr
    rw [TokenStream.shown, hlonger, List.filter_eq_nil_iff] at hnone
    exact absurd (hnone tok (by simp)) (by simp [hshown _ hopens])
  | some r₂ =>
    refine ⟨r₂, hbuild.trans (congrArg Except.ok hr), ?_⟩
    rw [hchildren, List.length_append, List.length_singleton, Nat.add_sub_cancel, List.take_left]
    by_cases hne : done = []
    · rw [hne]
      rfl
    · obtain ⟨more, hmore⟩ := prefix_of_build hlonger hg hbefore
        (fun n hn => hentries n (List.mem_append_left _ hn)) hne ⟨tok, later', rfl, hopens⟩ he hn hr
      rw [← hmore, List.take_left]

theorem visible_pair : visible "a b" = [⟨symbol, "a", ⟨1, 1, 0⟩⟩, ⟨symbol, "b", ⟨1, 3, 2⟩⟩] := by
  rw [visible, TokenStream.ofSource]
  iterate 3 rw [TokenStream.ofScanner_more (by decide)]
  rw [TokenStream.ofScanner_last (by decide)]
  rfl

theorem errors_contained_broken : ReadsClean .shiftReduce false "a b" ∧
    ∃ r₁ r₂, parse tables .shiftReduce {} "a b" = .ok (some r₁) ∧ r₁.children.length = 2 ∧
      parse tables .shiftReduce {} ("a b" ++ "\n" ++ broken) = .ok (some r₂) ∧
      r₂.children.take 1 = r₁.children.take 1 := by
  have hdoc :
      Document.Proper (.plain ⟨symbol, "a", ⟨1, 1, 0⟩⟩ (.plain ⟨symbol, "b", ⟨1, 3, 2⟩⟩ .nil)) :=
    ⟨by decide, by decide, trivial⟩
  have hclean := readsClean_of_document hdoc visible_pair.symm .shiftReduce false
  obtain ⟨doc, q, hdoc', htokens, hparse⟩ := exists_document hclean
  have hcloses : Document.Closes [] := by rintro _ ⟨⟩
  obtain ⟨rfl, -⟩ := Document.unique hdoc' hdoc hcloses hcloses (by rw [htokens, visible_pair]; rfl)
  obtain ⟨r₂, hr₂, htake⟩ := errors_contained hclean hparse broken
  rw [Node.children_branch] at htake
  exact ⟨hclean, _, r₂, hparse, by rw [Node.children_branch]; rfl, hr₂,
    by rw [Node.children_branch]; exact htake⟩

end Runs

end TableParser.Script
