import TableParser.Proofs.Engine.Passage
import TableParser.Proofs.Grammar.Consistency
import TableParser.Proofs.Tree.Agreement
import TableParser.Proofs.Tree.Spelling
/-!
The frames of the builder beside the pending stack of the engine.

The stack of a predictive engine is cut into parts by the marks that close the non-terminals opened
so far, and the builder has a frame for each mark. Behind a frame stand the trees that came since it
was opened: they spell what its rule has been through, and the part of the stack before the mark is
what its rule has still to come (`Underway`). Recovery drops a symbol only where it leaves an error
behind the same frame. So a rule that is closed has spelled its right side, or has symbols missing
and an error in their place.

Main statements: `Predictive.follows_step` and `Engine.row_of_endsAfter`.
-/

namespace TableParser

open Node (spelled AllInner allInner_append allInner_singleton)

namespace Predictive

variable {t : Tables}

/-! ### The progress of a rule -/

/-- What the trees behind a frame spell, together with what is still to come, is the right side of
its rule; where some of it is missing, one of the trees is an error. -/
structure Progress (rhs : List SymbolId) (inside : List Node) (todo : List SymbolId) : Prop where
  sublist : (spelled inside ++ todo).Sublist rhs
  complete : (∀ n ∈ inside, n.label.error = false) → spelled inside ++ todo = rhs

namespace Progress

variable {rhs todo : List SymbolId} {inside : List Node} {n : Node} {s : SymbolId}

theorem start (rhs : List SymbolId) : Progress rhs [] rhs :=
  ⟨List.Sublist.refl _, fun _ => rfl⟩

/-- A tree that does not count leaves the rule where it is. -/
theorem keep (h : Progress rhs inside todo) (hn : n.isStructural = false) :
    Progress rhs (inside ++ [n]) todo := by
  have hspelled : spelled (inside ++ [n]) = spelled inside := by
    rw [Node.spelled_append, Node.spelled_other hn, List.append_nil]
  constructor
  · rw [hspelled]
    exact h.sublist
  · intro hok
    rw [hspelled]
    exact h.complete fun m hm => hok m (List.mem_append_left _ hm)

/-- A tree of the next symbol takes the rule on; so does an error in its place. -/
theorem next (h : Progress rhs inside (s :: todo))
    (hn : (n.isStructural = true ∧ n.label.id = s) ∨ n.label.error = true) :
    Progress rhs (inside ++ [n]) todo := by
  rcases hn with ⟨hn, rfl⟩ | hn
  · have hspelled : spelled (inside ++ [n]) ++ todo = spelled inside ++ n.label.id :: todo := by
      rw [Node.spelled_append, Node.spelled_structural hn, List.append_assoc]
      rfl
    constructor
    · rw [hspelled]
      exact h.sublist
    · intro hok
      rw [hspelled]
      exact h.complete fun m hm => hok m (List.mem_append_left _ hm)
  · have hnot : n.isStructural = false := by
      rw [Node.isStructural, hn, Bool.not_true, Bool.and_false]
    constructor
    · rw [Node.spelled_append, Node.spelled_other hnot, List.append_nil]
      exact ((List.sublist_cons_self s todo).append_left _).trans h.sublist
    · intro hok
      have := hok n (List.mem_append_right _ (List.mem_singleton_self n))
      rw [hn] at this
      cases this

end Progress

/-! ### Open rules -/

/-- The pending stack, the frames and the row fit each other: the part of the stack before the first
mark is what the innermost open rule has still to come, and outside of it the rest fits, where the
symbol of that rule is still to come. -/
inductive Underway (t : Tables) : List Pending → List OpenRule → List Node → Prop where
  /-- Only the start symbol is under way. -/
  | outermost {todo : List SymbolId} {nodes : List Node}
      (progress : Progress [t.start] nodes todo) :
      Underway t (todo.map .symbol) [] nodes
  /-- A rule is open. -/
  | inside {todo : List SymbolId} {rule : RuleId} {r : Rule} {below : List Pending}
      {outer : List OpenRule} {before inside : List Node} {p : Position}
      (known : t.rule? rule = some r) (outside : Underway t (.symbol r.lhs :: below) outer before)
      (progress : Progress r.rhs inside todo) :
      Underway t (todo.map .symbol ++ .close rule :: below) (⟨rule, before.length, p⟩ :: outer)
        (before ++ inside)

namespace Underway

variable {stack below : List Pending} {frames : List OpenRule} {nodes : List Node} {n : Node}
  {s : SymbolId}

theorem keep (h : Underway t stack frames nodes) (hn : n.isStructural = false) :
    Underway t stack frames (nodes ++ [n]) := by
  cases h with
  | outermost progress => exact .outermost (progress.keep hn)
  | inside known outside progress =>
    rw [List.append_assoc]
    exact .inside known outside (progress.keep hn)

theorem next (h : Underway t (.symbol s :: below) frames nodes)
    (hn : (n.isStructural = true ∧ n.label.id = s) ∨ n.label.error = true) :
    Underway t below frames (nodes ++ [n]) := by
  generalize hstack : (.symbol s :: below : List Pending) = stack at h
  cases h with
  | @outermost todo _ progress =>
    cases todo with
    | nil => cases hstack
    | cons s' todo =>
      cases hstack
      exact .outermost (progress.next hn)
  | @inside todo _ _ _ _ _ _ _ known outside progress =>
    cases todo with
    | nil => cases hstack
    | cons s' todo =>
      cases hstack
      rw [List.append_assoc]
      exact .inside known outside (progress.next hn)

/-- A rule is opened. -/
theorem enter {rule : RuleId} {r : Rule} (h : Underway t (.symbol r.lhs :: below) frames nodes)
    (known : t.rule? rule = some r) (p : Position) :
    Underway t (body t rule ++ .close rule :: below) (⟨rule, nodes.length, p⟩ :: frames) nodes := by
  have := Underway.inside (p := p) known h (Progress.start r.rhs)
  rwa [List.append_nil, ← body_of_rule known] at this

/-- A rule that is closed is the innermost one, and it has nothing still to come. -/
theorem leave {rule : RuleId} (h : Underway t (.close rule :: below) frames nodes) :
    ∃ r before inside p outer, t.rule? rule = some r ∧ nodes = before ++ inside ∧
      frames = ⟨rule, before.length, p⟩ :: outer ∧ Progress r.rhs inside [] ∧
      Underway t (.symbol r.lhs :: below) outer before := by
  generalize hstack : (.close rule :: below : List Pending) = stack at h
  cases h with
  | @outermost todo _ _ => cases todo <;> cases hstack
  | @inside todo _ r _ outer before inside p known outside progress =>
    cases todo with
    | cons => cases hstack
    | nil =>
      cases hstack
      exact ⟨r, before, inside, p, outer, known, rfl, rfl, progress, outside⟩

/-- When nothing is to come, no rule is open. -/
theorem frames_eq_nil (h : Underway t [] frames nodes) :
    frames = [] ∧ Progress [t.start] nodes [] := by
  generalize hstack : ([] : List Pending) = stack at h
  cases h with
  | @outermost todo _ progress =>
    cases todo with
    | nil => exact ⟨rfl, progress⟩
    | cons => cases hstack
  | @inside todo => cases todo <;> cases hstack

/-- A symbol on top stands in a rule, or it is the start symbol. -/
theorem names (h : Underway t (.symbol s :: below) frames nodes) :
    s = t.start ∨ ∃ rule r, t.rule? rule = some r ∧ s ∈ r.rhs := by
  generalize hstack : (.symbol s :: below : List Pending) = stack at h
  cases h with
  | @outermost todo _ progress =>
    cases todo with
    | nil => cases hstack
    | cons s' todo =>
      cases hstack
      have hmem := progress.sublist.subset (List.mem_append_right _ List.mem_cons_self)
      exact .inl (List.mem_singleton.1 hmem)
  | @inside todo rule r _ _ _ _ _ known _ progress =>
    cases todo with
    | nil => cases hstack
    | cons s' todo =>
      cases hstack
      exact .inr ⟨rule, r, known,
        progress.sublist.subset (List.mem_append_right _ List.mem_cons_self)⟩

end Underway

/-! ### Steps -/

/-- The children of an inner node spell part of the right side of a rule of its symbol, and all of
it if none of them is an error. -/
def Conforms (t : Tables) (n : Node) : Prop :=
  ∃ rule r, t.rule? rule = some r ∧ r.lhs = n.label.id ∧ (spelled n.children).Sublist r.rhs ∧
    ((∀ c ∈ n.children, c.label.error = false) → spelled n.children = r.rhs)

/-- A table that predicts rules of the non-terminal they are predicted for, in a grammar where the
end of the stream is not hidden. -/
structure Lawful (t : Tables) (table : PredictionTable) : Prop where
  rule : ∀ {s a rule}, table.get? s a = some rule → ∃ r, t.rule? rule = some r ∧ r.lhs = s
  endOfStream : t.isHidden t.endOfStream = false

/-- The builder follows the engine: its frames fit the pending stack, and every inner node in its
row counts and conforms to a rule. -/
structure Follows (t : Tables) (m : Predictive) (b : Builder) : Prop where
  underway : Underway t m.stack b.frames b.nodes.toList
  inner : AllInner (fun n => n.isStructural = true ∧ Conforms t n) b.nodes.toList
  last : m.input.last.symbol = t.endOfStream
  finished : m.finished = true → m.stack = []

variable {table : PredictionTable} {showHidden : Bool} {m : Predictive} {b : Builder}

theorem Follows.start (input : TokenStream) (hlast : input.last.symbol = t.endOfStream) :
    Follows t (.start t input) {} :=
  ⟨.outermost (Progress.start [t.start]), Node.allInner_nil, hlast, fun h => nomatch h⟩

/-- A leaf at the end of the row keeps the inner nodes conforming. -/
theorem Follows.inner_push (h : Follows t m b) {n : Node} (hleaf : n.isLeaf = true)
    (hchildren : n.children = []) :
    AllInner (fun n => n.isStructural = true ∧ Conforms t n) (b.nodes.push n).toList := by
  rw [Array.toList_push, allInner_append]
  exact ⟨h.inner, Node.allInner_leaf hleaf hchildren⟩

/-- Closing the innermost frame makes a node that conforms to its rule. -/
theorem Follows.close (h : Follows t m b) {rule : RuleId} {below : List Pending}
    (top : m.stack = .close rule :: below) : ∃ r before inside p outer,
      t.rule? rule = some r ∧ b.frames = ⟨rule, before.length, p⟩ :: outer ∧
      b.nodes.toList = before ++ inside ∧ Progress r.rhs inside [] ∧
      (Builder.close t Builder.plain b.nodes ⟨rule, before.length, p⟩).toList =
        before ++ [Builder.wrap t Builder.plain r.lhs p inside] ∧
      Underway t below outer (before ++ [Builder.wrap t Builder.plain r.lhs p inside]) ∧
      AllInner (fun n => n.isStructural = true ∧ Conforms t n)
        (before ++ [Builder.wrap t Builder.plain r.lhs p inside]) := by
  have hunder := h.underway
  have hinner := h.inner
  rw [top] at hunder
  obtain ⟨r, before, inside, p, outer, known, hnodes, hframes, progress, outside⟩ := hunder.leave
  rw [hnodes, allInner_append] at hinner
  have hstructural : (Builder.wrap t Builder.plain r.lhs p inside).isStructural = true :=
    Builder.isStructural_wrap ..
  refine ⟨r, before, inside, p, outer, known, hframes, hnodes, progress, ?_, ?_, ?_⟩
  · rw [Builder.toList_close, hnodes, List.take_left, List.drop_left, Builder.ruleNode_plain known]
  · exact outside.next (.inl ⟨hstructural, Builder.id_wrap ..⟩)
  · rw [allInner_append, allInner_singleton, Builder.children_plain]
    refine ⟨hinner.1, fun _ => ⟨hstructural, rule, r, known, (Builder.id_wrap ..).symm, ?_⟩,
      hinner.2⟩
    rw [Builder.children_plain, ← List.append_nil (spelled inside)]
    exact ⟨progress.sublist, progress.complete⟩

/-- The builder goes on following the engine with every step. -/
theorem follows_step (lawful : Lawful t table) (h : Follows t m b) :
    Follows t (m.step t table showHidden).2
      (Builder.feed t Builder.plain b (m.step t table showHidden).1) := by
  obtain ⟨e, m', hstep, hmoves⟩ := exists_moves t table showHidden m
  rw [hstep]
  have hunder := h.underway
  -- what is put into the row as a leaf for the symbol on top, or beside it
  have hnext : ∀ {s below} (n : Node), m.stack = .symbol s :: below →
      ((n.isStructural = true ∧ n.label.id = s) ∨ n.label.error = true) →
      Underway t below b.frames (b.nodes.push n).toList := by
    intro s below n top hn
    rw [top] at hunder
    rw [Array.toList_push]
    exact hunder.next hn
  have hkeep : ∀ n : Node, n.isStructural = false →
      Underway t m.stack b.frames (b.nodes.push n).toList := by
    intro n hn
    rw [Array.toList_push]
    exact hunder.keep hn
  have hrunning : ∀ stack : List Pending, m.finished = false → m.finished = true → stack = [] := by
    intro stack hno hyes
    rw [hno] at hyes
    cases hyes
  cases hmoves with
  | rest => exact h
  | @close rule below running top =>
    obtain ⟨r, before, inside, p, outer, -, hframes, -, -, hnodes, hrest, hinner⟩ := h.close top
    rw [Builder.feed, hframes]
    dsimp only
    refine ⟨?_, ?_, h.last, hrunning _ running⟩
    · rw [hnodes]
      exact hrest
    · rw [hnodes]
      exact hinner
  | hidden running _ next =>
    obtain ⟨-, hhidden, hpass⟩ := TokenStream.nextHidden_some next
    exact ⟨hkeep _ (Builder.isStructural_hidden hhidden), h.inner_push rfl rfl,
      hpass.2 ▸ h.last, h.finished⟩
  | @expand s below input rule running top next _ predicted =>
    have hinput := TokenStream.last_of_nextHidden next
    obtain ⟨r, known, rfl⟩ := lawful.rule predicted
    rw [top] at hunder
    have henter := hunder.enter known b.last
    rw [Array.length_toList] at henter
    exact ⟨henter, h.inner, hinput ▸ h.last, hrunning _ running⟩
  | @take s below input running top next _ same =>
    have hinput := TokenStream.last_of_nextHidden next
    refine ⟨hnext _ top ?_, h.inner_push rfl rfl, hinput ▸ h.last, hrunning _ running⟩
    have hhidden := TokenStream.isHidden_current (by rw [h.last, lawful.endOfStream]) next
    by_cases herror : input.current.symbol = t.error
    · exact .inr (by rw [Builder.error_leaf, decide_eq_true herror])
    · exact .inl ⟨Builder.isStructural_leaf hhidden herror, (Builder.id_leaf _).trans same⟩
  | @skip s below input _ sync running top next =>
    have hinput := TokenStream.last_of_nextHidden next
    have hlast := (input.recover_passes (t := t) sync).2
    refine ⟨?_, h.inner_push rfl rfl, by rw [← h.last, ← hinput, ← hlast], hrunning _ running⟩
    -- the symbol on top stays beside the error, or gives way to it
    dsimp only
    split
    · exact hkeep _ rfl
    · exact hnext _ top (.inr rfl)
  | @leftOver input running top next =>
    have hinput := TokenStream.last_of_nextHidden next
    have hlast := (input.recover_passes (t := t) fun _ => false).2
    exact ⟨hkeep _ rfl, h.inner_push rfl rfl, by rw [← h.last, ← hinput, ← hlast], fun _ => top⟩
  | finish _ top next =>
    have hinput := TokenStream.last_of_nextHidden next
    exact ⟨hunder, h.inner, hinput ▸ h.last, fun _ => top⟩

/-- At the end of the document nothing is to come. -/
theorem Follows.stack_eq_nil (h : Follows t m b)
    (hend : (m.step t table showHidden).1 = .endDocument) : m.stack = [] :=
  (Predictive.stack_eq_nil h.finished hend).1

end Predictive

/-! ### Loaded grammars -/

/-- The prediction table of a loaded grammar is lawful. -/
theorem Asset.lawful_of_load {a : Asset} {t : Tables} {table : PredictionTable}
    (hload : a.load = .ok t) (htable : t.prediction = some table) : Predictive.Lawful t table := by
  obtain ⟨-, -, hcheck, rfl⟩ := load_eq_ok.1 hload
  have checked := Tables.check_eq_ok.1 hcheck
  constructor
  · intro s terminal rule hget
    obtain ⟨ps, -, hps⟩ := Option.map_eq_some_iff.1 htable
    have hnamed : table.Named := hps ▸ PredictionTable.named_ofEntries _ _ _
    exact checked.predictions table htable ⟨s, terminal, rule⟩
      ((PredictionTable.mem_entries hnamed).2 hget)
  · obtain ⟨sym, hsym, hkind⟩ := checked.endOfStream
    rw [Tables.isHidden, hsym, Option.any_some, GrammarSymbol.isHidden, hkind]
    rfl

namespace Engine

variable {a : Asset} {t : Tables} {showHidden : Bool} {source : String} {e : Engine}

/-- A predictive engine has the prediction table of its grammar. -/
theorem exists_prediction (h : Engine.start t .predictive showHidden source = .ok e) :
    ∃ table, t.prediction = some table ∧
      e.machine = .predictive table (.start t (.ofSource t source)) := by
  rw [Engine.start, Machine.start, Tables.getPrediction] at h
  cases htable : t.prediction with
  | none => rw [htable] at h; cases h
  | some table => rw [htable] at h; cases h; exact ⟨table, rfl, rfl⟩

/-- After any number of reads the builder follows the engine. -/
theorem follows_reads (hload : a.load = .ok t)
    (h : Engine.start t .predictive showHidden source = .ok e) :
    ∃ table, Predictive.Lawful t table ∧ ∀ n, ∃ m, (e.reads t n).machine = .predictive table m ∧
      Predictive.Follows t m (e.builder t Builder.plain n) := by
  obtain ⟨table, htable, hmachine⟩ := exists_prediction h
  have lawful := Asset.lawful_of_load hload htable
  refine ⟨table, lawful, fun n => ?_⟩
  induction n with
  | zero => exact ⟨_, hmachine, .start _ (TokenStream.symbol_ofScanner _).1⟩
  | succ n ih =>
    obtain ⟨m, hm, follows⟩ := ih
    obtain ⟨hevent, hnext⟩ := reads_predictive hm
    rw [builder_succ, hevent, hnext]
    exact ⟨_, rfl, Predictive.follows_step lawful follows⟩

/-- At the end of the document no rule is open. -/
theorem row_of_endsAfter (hload : a.load = .ok t)
    (h : Engine.start t .predictive showHidden source = .ok e) {n : Nat} (hn : EndsAfter t n e) :
    Builder.row t Builder.plain (e.events t n) = (e.builder t Builder.plain n).nodes.toList ∧
      (e.builder t Builder.plain n).frames = [] ∧
      AllInner (fun n => n.isStructural = true ∧ Predictive.Conforms t n)
        (Builder.row t Builder.plain (e.events t n)) := by
  obtain ⟨table, -, hreads⟩ := follows_reads hload h
  obtain ⟨m, hm, follows⟩ := hreads n
  have hend : (m.step t table e.showHidden).1 = .endDocument := by
    rw [← (reads_predictive hm).1]
    exact of_decide_eq_true hn.1
  have hunder := follows.underway
  rw [follows.stack_eq_nil hend] at hunder
  have hframes := hunder.frames_eq_nil.1
  have hrow : Builder.row t Builder.plain (e.events t n) =
      (e.builder t Builder.plain n).nodes.toList := by
    rw [Builder.row, show ((e.events t n).foldl (Builder.feed t Builder.plain) {}).frames = [] from
      hframes]
    rfl
  exact ⟨hrow, hframes, hrow ▸ follows.inner⟩

end Engine

end TableParser
