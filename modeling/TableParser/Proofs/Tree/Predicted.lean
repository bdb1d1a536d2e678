import TableParser.Proofs.Script.Agreement
import TableParser.Proofs.Tree.OpenRules
/-!
The tree of an input that a predictive engine reads without an error.

While no error is reported, each token that is not hidden is reported when it is passed, and the
last one only where a rule names the end of the stream (`Predictive.Reported`). The rule that the
start symbol was expanded by stays the outermost open one until nothing is to come, and then its
node is the whole row (`Predictive.Expanded`). No node of the row is hidden or an error, so each
inner node has the children that its rule asks for: the row is a derivation tree over the tokens.

Main statement: `Engine.predicted_conforms`.
-/

namespace TableParser

open Node (spelled AllInner allInner_append allInner_singleton leavesOf)

/-! ### Derivation trees -/

/-- A derivation tree: its leaves are terminals, and an inner node with its children is an
application of a rule. -/
structure Node.IsDerivation (t : Tables) (n : Node) : Prop where
  leaf : ∀ m ∈ n.preorder, m.isLeaf = true → m.children = [] ∧ t.isNonTerminal m.label.id = false
  inner : ∀ m ∈ n.preorder, m.isLeaf = false → ∃ rule r, t.rule? rule = some r ∧
    r.lhs = m.label.id ∧ m.children.map (fun c => c.label.id) = r.rhs

namespace Predictive

variable {t : Tables} {table : PredictionTable} {m : Predictive} {b : Builder}

/-- A token that counts in a derivation: a terminal, neither hidden nor an error. -/
structure Counts (t : Tables) (tok : Token) : Prop where
  visible : t.isHidden tok.symbol = false
  terminal : t.isNonTerminal tok.symbol = false
  error : tok.symbol ≠ t.error

/-! ### What is reported -/

/-- The tokens reported so far, with those still to come that are not hidden, are those of the input
that are not hidden. After them the last token may be reported, where a rule names the end of the
stream. -/
structure Reported (t : Tables) (input : TokenStream) (tokens : List Token) (s : TokenStream) :
    Prop where
  split : ∃ k, tokens ++ s.shown t false = input.shown t false ++ List.replicate k input.last ∧
    (0 < k → s.shown t false = [] ∧ ∃ rule r, t.rule? rule = some r ∧ t.endOfStream ∈ r.rhs)
  last : s.last = input.last
  counts : ∀ tok ∈ tokens, Counts t tok

namespace Reported

variable {input s s' : TokenStream} {tokens : List Token}

theorem start (input : TokenStream) : Reported t input [] input :=
  ⟨⟨0, by simp, by simp⟩, rfl, by simp⟩

/-- Hidden tokens are passed without a report. -/
theorem pass (h : Reported t input tokens s) {hs : List Token} (hpass : TokenStream.Passes hs s s')
    (hhidden : ∀ tok ∈ hs, t.isHidden tok.symbol = true) : Reported t input tokens s' := by
  have hshown := hpass.shown_eq hhidden
  obtain ⟨k, hsplit, hend⟩ := h.split
  exact ⟨⟨k, by rw [hshown, hsplit], by rwa [hshown]⟩, hpass.2.trans h.last, h.counts⟩

/-- A token that is taken is reported. -/
theorem take (h : Reported t input tokens s) (hcounts : Counts t s.current)
    (hend : s.ahead = [] → ∃ rule r, t.rule? rule = some r ∧ t.endOfStream ∈ r.rhs) :
    Reported t input (tokens ++ [s.current]) s.advance := by
  obtain ⟨k, hsplit, hk⟩ := h.split
  refine ⟨?_, h.last, ?_⟩
  · cases hahead : s.ahead with
    | nil =>
      have hshown : s.shown t false = [] := by rw [TokenStream.shown, hahead, List.filter_nil]
      have hadvance : s.advance.shown t false = [] := by
        rw [TokenStream.shown, TokenStream.advance, hahead, List.tail_nil, List.filter_nil]
      rw [hshown, List.append_nil] at hsplit
      refine ⟨k + 1, ?_, fun _ => ⟨hadvance, hend hahead⟩⟩
      rw [hadvance, List.append_nil, hsplit, TokenStream.current_of_nil hahead, h.last,
        List.replicate_succ', List.append_assoc]
    | cons tok later =>
      have hvisible := hcounts.visible
      rw [TokenStream.current_of_cons hahead] at hvisible ⊢
      have hshown := TokenStream.shown_of_cons hahead hvisible
      rw [hshown] at hsplit hk
      refine ⟨k, by simpa using hsplit, fun hpos => ?_⟩
      have hnil := (hk hpos).1
      cases hnil
  · intro tok htok
    rcases List.mem_append.1 htok with htok | htok
    · exact h.counts tok htok
    · rw [List.mem_singleton.1 htok]
      exact hcounts

end Reported

/-- A grammar whose rules never name the error symbol, with a start symbol that is not a
terminal. -/
structure Faultless (t : Tables) (table : PredictionTable) : Prop extends Lawful t table where
  start : t.isNonTerminal t.start = true
  error : ∀ {rule r}, t.rule? rule = some r → t.error ∉ r.rhs

/-- A step without an error reports the token it passes, unless that is hidden. -/
theorem reported_step (faultless : Faultless t table) (follows : Follows t m b)
    {input : TokenStream} {tokens : List Token} (h : Reported t input tokens m.input)
    (hok : (m.step t table false).1.error? = none) :
    Reported t input (tokens ++ (m.step t table false).1.token?.toList)
      (m.step t table false).2.input := by
  obtain ⟨e, m', hstep, hmoves⟩ := exists_moves t table false m
  rw [hstep] at hok ⊢
  cases hmoves with
  | rest | close => simpa [Event.token?] using h
  | hidden _ _ next =>
    obtain ⟨hshow, -⟩ := TokenStream.nextHidden_some next
    cases hshow
  | expand _ _ next | finish _ _ next =>
    obtain ⟨hs, hpass, hhidden, -⟩ := TokenStream.nextHidden_none next
    have hpassed := h.pass hpass hhidden
    simpa [Event.token?] using hpassed
  | @take s below s' _ top next kind same =>
    obtain ⟨hs, hpass, hhidden, -⟩ := TokenStream.nextHidden_none next
    -- what is on top stands in a rule, since the start symbol is no terminal
    obtain ⟨rule, r, known, hmem⟩ : ∃ rule r, t.rule? rule = some r ∧ s ∈ r.rhs := by
      rcases (top ▸ follows.underway).names with rfl | hnamed
      · rw [faultless.start] at kind
        cases kind
      · exact hnamed
    have hvisible := TokenStream.isHidden_current (by rw [follows.last, faultless.endOfStream]) next
    refine (h.pass hpass hhidden).take ⟨hvisible, same ▸ kind, ?_⟩ fun hahead => ?_
    · rw [same]
      exact fun heq => faultless.error known (heq ▸ hmem)
    · refine ⟨rule, r, known, ?_⟩
      rwa [← follows.last, ← hpass.2, ← TokenStream.current_of_nil hahead, same]
  | skip | leftOver => cases hok

/-! ### The first rule -/

/-- A rule is the outermost open one, or nothing is to come and its node is the whole row. -/
inductive Expanded (t : Tables) (rule : RuleId) (r : Rule) (stack : List Pending) (b : Builder) :
    Prop where
  | outer {p : Position} (last : b.frames.getLast? = some ⟨rule, 0, p⟩)
  | whole {p : Position} {cs : List Node} (stack : stack = []) (frames : b.frames = [])
      (row : b.nodes.toList = [Builder.wrap t Builder.plain r.lhs p cs])
      (spells : spelled cs = r.rhs)

/-- The first step without an error expands the start symbol. -/
theorem expanded_start (faultless : Faultless t table) (input : TokenStream)
    (hok : ((start t input).step t table false).1.error? = none) : ∃ rule r,
      ((start t input).step t table false).1 = .nonTerminal rule ∧ t.rule? rule = some r ∧
        r.lhs = t.start ∧ Expanded t rule r ((start t input).step t table false).2.stack
          (Builder.feed t Builder.plain {} (.nonTerminal rule)) := by
  obtain ⟨e, m', hstep, hmoves⟩ := exists_moves t table false (start t input)
  rw [hstep] at hok ⊢
  cases hmoves with
  | rest done => cases done
  | close _ top | leftOver _ top | finish _ top => cases top
  | hidden _ _ next =>
    obtain ⟨hshow, -⟩ := TokenStream.nextHidden_some next
    cases hshow
  | @expand s below _ rule _ top _ _ predicted =>
    cases top
    obtain ⟨r, known, hlhs⟩ := faultless.rule predicted
    exact ⟨rule, r, rfl, known, hlhs, .outer rfl⟩
  | take _ top _ kind =>
    cases top
    rw [faultless.start] at kind
    cases kind
  | skip => cases hok

/-- When the last open rule is closed, nothing is to come but what its symbol stood for. -/
theorem Underway.eq_nil {below : List Pending} {n : Node} (h : Underway t below [] [n])
    (hn : n.isStructural = true) : below = [] := by
  cases h with
  | @outermost todo _ progress =>
    have hlength := progress.sublist.length_le
    rw [Node.spelled_structural hn, List.singleton_append, List.length_cons,
      List.length_singleton] at hlength
    rw [List.eq_nil_of_length_eq_zero (by omega : todo.length = 0), List.map_nil]

/-- A step without an error keeps the first rule outermost, or makes its node the whole row. -/
theorem expanded_step (follows : Follows t m b) {rule : RuleId} {r : Rule}
    (known : t.rule? rule = some r) (h : Expanded t rule r m.stack b)
    (hrow : ∀ n ∈ b.nodes.toList, n.label.error = false)
    (hok : (m.step t table false).1.error? = none) :
    Expanded t rule r (m.step t table false).2.stack
      (Builder.feed t Builder.plain b (m.step t table false).1) := by
  obtain ⟨e, m', hstep, hmoves⟩ := exists_moves t table false m
  rw [hstep] at hok ⊢
  cases h with
  | whole hstack frames row spells =>
    cases hmoves with
    | rest | finish => exact .whole hstack frames row spells
    | close _ top | expand _ top | take _ top | skip _ top => rw [hstack] at top; cases top
    | hidden _ _ next =>
      obtain ⟨hshow, -⟩ := TokenStream.nextHidden_some next
      cases hshow
    | leftOver => cases hok
  | @outer p last =>
    cases hmoves with
    | rest | finish | take => exact .outer last
    | hidden _ _ next =>
      obtain ⟨hshow, -⟩ := TokenStream.nextHidden_some next
      cases hshow
    | expand =>
      refine .outer (p := p) ?_
      rw [Builder.feed, List.getLast?_cons, last, Option.getD_some]
    | skip | leftOver => cases hok
    | close _ top =>
      obtain ⟨r', before, inside, p', outer, known', hframes, hnodes, progress, hnew, hrest, -⟩ :=
        follows.close top
      rw [hframes] at last
      rw [Builder.feed, hframes]
      dsimp only
      cases outer with
      | cons frame outer =>
        rw [List.getLast?_cons_cons] at last
        exact .outer last
      | nil =>
        -- the frame is the first one, so nothing stands before its node
        rw [List.getLast?_singleton, Option.some.injEq, OpenRule.mk.injEq] at last
        obtain ⟨rfl, hbefore, rfl⟩ := last
        obtain rfl : r' = r := Option.some.inj (known'.symm.trans known)
        obtain rfl := List.eq_nil_of_length_eq_zero hbefore
        have hinside : spelled inside = r'.rhs := by
          have hcomplete := progress.complete fun n hn => hrow n (hnodes ▸ hn)
          rwa [List.append_nil] at hcomplete
        exact .whole (hrest.eq_nil (Builder.isStructural_wrap ..)) rfl hnew hinside

/-! ### The row -/

/-- Over tokens that count every node does, if the inner ones do. -/
theorem structural_of_leaves {ns : List Node} {tokens : List Token}
    (hinner : AllInner (fun n => n.isStructural = true ∧ Conforms t n) ns)
    (hleaves : leavesOf ns = tokens.map (Builder.leaf t Builder.plain))
    (hcounts : ∀ tok ∈ tokens, Counts t tok) :
    ∀ m ∈ Node.preorderAll ns, m.isStructural = true := by
  intro m hm
  cases hleaf : m.isLeaf with
  | false => exact (hinner m hm hleaf).1
  | true =>
    have hmem : m ∈ leavesOf ns := List.mem_filter.2 ⟨hm, hleaf⟩
    rw [hleaves] at hmem
    obtain ⟨tok, htok, rfl⟩ := List.mem_map.1 hmem
    exact Builder.isStructural_leaf (hcounts tok htok).visible (hcounts tok htok).error

/-- A tree over tokens that count is a derivation tree if its inner nodes conform to rules. -/
theorem isDerivation_of_leaves {n : Node} {tokens : List Token}
    (hinner : AllInner (fun n => n.isStructural = true ∧ Conforms t n) [n])
    (hleaves : leavesOf [n] = tokens.map (Builder.leaf t Builder.plain))
    (hcounts : ∀ tok ∈ tokens, Counts t tok) : n.IsDerivation t := by
  have hall := structural_of_leaves hinner hleaves hcounts
  constructor
  · intro m hm hleaf
    have hmem : m ∈ leavesOf [n] := List.mem_filter.2 ⟨Node.preorderAll_singleton n ▸ hm, hleaf⟩
    rw [hleaves] at hmem
    obtain ⟨tok, htok, rfl⟩ := List.mem_map.1 hmem
    rw [Builder.id_leaf]
    exact ⟨rfl, (hcounts tok htok).terminal⟩
  · intro m hm hleaf
    rw [← Node.preorderAll_singleton] at hm
    obtain ⟨-, rule, r, known, hlhs, -, hcomplete⟩ := hinner m hm hleaf
    have hchildren : ∀ c ∈ m.children, c.isStructural = true := fun c hc =>
      hall c (Node.child_mem_preorderAll hc [n] hm)
    refine ⟨rule, r, known, hlhs, ?_⟩
    rw [← Node.spelled_eq_map hchildren]
    exact hcomplete fun c hc => Node.error_of_structural (hchildren c hc)

end Predictive

/-! ### Whole runs -/

/-- A loaded grammar whose rules never name the error symbol has a faultless prediction table. -/
theorem Asset.faultless_of_load {a : Asset} {t : Tables} {table : PredictionTable}
    (hload : a.load = .ok t) (lawful : Predictive.Lawful t table)
    (herror : ∀ rule r, t.rule? rule = some r → t.error ∉ r.rhs) :
    Predictive.Faultless t table := by
  have checked := Tables.check_eq_ok.1 (check_of_load hload)
  obtain ⟨sym, hsym, hkind⟩ := checked.start
  refine ⟨lawful, decide_eq_true ?_, herror _ _⟩
  refine Nat.lt_of_not_le fun hle => ?_
  exact checked.layout _ sym hsym hle hkind

namespace Engine

variable {a : Asset} {t : Tables} {showHidden : Bool} {source : String} {e : Engine}

/-- As long as no error is reported, the leaves of the row are those of the tokens reported. -/
theorem leavesOf_reads {n : Nat} (hok : ∀ ev ∈ e.events t n, ev.error? = none) :
    leavesOf (e.builder t Builder.plain n).nodes.toList =
      ((e.events t n).filterMap Event.token?).map (Builder.leaf t Builder.plain) := by
  rw [builder, Builder.leavesOf_foldl_feed, Builder.flatMap_leafOf hok]
  exact List.nil_append _

section Clean

variable (hload : a.load = .ok t) (h : Engine.start t .predictive false source = .ok e)
  (herror : ∀ rule r, t.rule? rule = some r → t.error ∉ r.rhs)
include hload h herror

/-- As long as no error is reported, the tokens that are not hidden are reported one after the
other. -/
theorem reported_reads {n : Nat} (hok : ∀ ev ∈ e.events t n, ev.error? = none) :
    Predictive.Reported t (.ofSource t source) ((e.events t n).filterMap Event.token?)
      (e.reads t n).machine.input := by
  obtain ⟨hinput, hshow, -⟩ := start_eq h
  obtain ⟨table, lawful, hreads⟩ := follows_reads hload h
  have faultless := Asset.faultless_of_load hload lawful herror
  induction n with
  | zero => exact hinput ▸ Predictive.Reported.start _
  | succ n ih =>
    rw [events_succ, List.forall_mem_append, List.forall_mem_singleton] at hok
    have reported := ih hok.1
    have hlast := hok.2
    obtain ⟨m, hm, follows⟩ := hreads n
    obtain ⟨hevent, hmachine⟩ := reads_predictive hm
    rw [hshow] at hevent hmachine
    rw [hm] at reported
    rw [hevent] at hlast
    have hnew : [(e.reads t (n + 1)).event].filterMap Event.token? =
        (m.step t table false).1.token?.toList := by
      rw [hevent]
      cases (m.step t table false).1 <;> rfl
    rw [hmachine, events_succ, List.filterMap_append, hnew]
    exact Predictive.reported_step faultless follows reported hlast

/-- As long as no error is reported, every node in the row counts. -/
theorem structural_reads {n : Nat} (hok : ∀ ev ∈ e.events t n, ev.error? = none) :
    ∀ m ∈ Node.preorderAll (e.builder t Builder.plain n).nodes.toList, m.isStructural = true := by
  obtain ⟨table, -, hreads⟩ := follows_reads hload h
  obtain ⟨m, -, follows⟩ := hreads n
  exact Predictive.structural_of_leaves follows.inner (leavesOf_reads hok)
    (reported_reads hload h herror hok).counts

/-- As long as no error is reported, the rule that the start symbol was expanded by is the outermost
open one, or its node is the whole row. -/
theorem expanded_reads {n : Nat} (hok : ∀ ev ∈ e.events t (n + 1), ev.error? = none) :
    ∃ rule r, (e.events t (n + 1)).head? = some (.nonTerminal rule) ∧ t.rule? rule = some r ∧
      r.lhs = t.start ∧ ∀ table m, (e.reads t (n + 1)).machine = .predictive table m →
        Predictive.Expanded t rule r m.stack (e.builder t Builder.plain (n + 1)) := by
  obtain ⟨-, hshow, -⟩ := start_eq h
  obtain ⟨table, htable, hmachine⟩ := exists_prediction h
  have lawful := Asset.lawful_of_load hload htable
  have faultless := Asset.faultless_of_load hload lawful herror
  induction n with
  | zero =>
    obtain ⟨hevent, hnext⟩ := reads_predictive (n := 0) hmachine
    rw [hshow] at hevent hnext
    have hfirst : (e.reads t 1).event.error? = none :=
      hok _ (by rw [events_succ]; exact List.mem_append_right _ (List.mem_singleton_self _))
    rw [hevent] at hfirst
    obtain ⟨rule, r, hstep, known, hlhs, expanded⟩ := Predictive.expanded_start faultless _ hfirst
    refine ⟨rule, r, ?_, known, hlhs, fun table' m hm => ?_⟩
    · rw [events_succ, hevent, hstep]
      rfl
    · rw [hnext] at hm
      cases hm
      rw [builder_succ, hevent, hstep]
      exact expanded
  | succ n ih =>
    rw [events_succ, List.forall_mem_append, List.forall_mem_singleton] at hok
    obtain ⟨rule, r, hhead, known, hlhs, hexpanded⟩ := ih hok.1
    obtain ⟨table', -, hreads⟩ := follows_reads hload h
    obtain ⟨m, hm, follows⟩ := hreads (n + 1)
    obtain ⟨hevent, hnext⟩ := reads_predictive hm
    rw [hshow] at hevent hnext
    refine ⟨rule, r, ?_, known, hlhs, fun table'' m' hm' => ?_⟩
    · rw [events_succ, List.head?_append, hhead]
      rfl
    · rw [hnext] at hm'
      cases hm'
      rw [builder_succ, hevent]
      refine Predictive.expanded_step follows known (hexpanded _ _ hm) (fun node hnode => ?_)
        (hevent ▸ hok.2)
      exact Node.error_of_structural
        (structural_reads hload h herror hok.1 node (Node.mem_preorderAll hnode))

/-- A run without an error has a leaf for each token that is not hidden, in order, and after them
only leaves of the last token. -/
theorem leaves_of_clean {n : Nat} (hn : EndsAfter t n e)
    (hok : ∀ ev ∈ e.events t n, ev.error? = none) :
    ∃ k, (0 < k → ∃ rule r, t.rule? rule = some r ∧ t.endOfStream ∈ r.rhs) ∧
      (e.events t n).flatMap (Builder.leafOf t Builder.plain) =
        ((TokenStream.ofSource t source).shown t false ++
          List.replicate k (TokenStream.ofSource t source).last).map
            (Builder.leaf t Builder.plain) := by
  have hevents := events_of_endsAfter hn
  have reported := reported_reads hload h herror (n := n + 1) (by
    rw [hevents, List.forall_mem_append, List.forall_mem_singleton]
    exact ⟨hok, rfl⟩)
  -- nothing is left when the document is over
  have hshown : (e.reads t (n + 1)).machine.input.shown t false = [] := by
    obtain ⟨-, -, hsettled⟩ := start_eq h
    obtain ⟨table, -, hreads⟩ := follows_reads hload h
    rw [TokenStream.shown, ahead_of_ended hsettled (fun k _ => ?_) hn.1, List.filter_nil]
    obtain ⟨m, hm, -⟩ := hreads k
    rw [hm]
    exact id
  obtain ⟨k, hsplit, hk⟩ := reported.split
  rw [hshown, List.append_nil, hevents, List.filterMap_append] at hsplit
  refine ⟨k, fun hpos => (hk hpos).2, ?_⟩
  rw [Builder.flatMap_leafOf hok, ← hsplit]
  exact congrArg _ (List.append_nil _).symm

/-- The row of a run without an error is one node: that of the rule that the start symbol was
expanded by, over trees that its right side asks for. -/
theorem row_of_clean {n : Nat} (hn : EndsAfter t n e)
    (hok : ∀ ev ∈ e.events t n, ev.error? = none) :
    ∃ rule r p cs, (e.events t n).head? = some (.nonTerminal rule) ∧ t.rule? rule = some r ∧
      r.lhs = t.start ∧
      Builder.row t Builder.plain (e.events t n) = [Builder.wrap t Builder.plain r.lhs p cs] ∧
      (Builder.wrap t Builder.plain r.lhs p cs).IsDerivation t ∧
      cs.map (fun c => c.label.id) = r.rhs := by
  have hevents := events_of_endsAfter hn
  have hbuilder : e.builder t Builder.plain (n + 1) = e.builder t Builder.plain n := by
    rw [builder, hevents, List.foldl_append]
    rfl
  obtain ⟨rule, r, hhead, known, hlhs, hexpanded⟩ := expanded_reads hload h herror (n := n) (by
    rw [hevents, List.forall_mem_append, List.forall_mem_singleton]
    exact ⟨hok, rfl⟩)
  have hfirst : (e.events t n).head? = some (.nonTerminal rule) := by
    rw [hevents, List.head?_append] at hhead
    cases hev : (e.events t n).head? with
    | none => rw [hev] at hhead; cases hhead
    | some ev => rw [hev] at hhead; exact hhead
  obtain ⟨hrow, hframes, hinner⟩ := row_of_endsAfter hload h hn
  obtain ⟨table, -, hreads⟩ := follows_reads hload h
  obtain ⟨m, hm, -⟩ := hreads (n + 1)
  cases hexpanded _ _ hm with
  | outer last =>
    rw [hbuilder, hframes] at last
    cases last
  | @whole p cs _ _ hnodes spells =>
    rw [hbuilder] at hnodes
    have hleaves := leavesOf_reads hok
    have hstructural := structural_reads hload h herror hok
    have reported := reported_reads hload h herror hok
    rw [hrow, hnodes] at hinner
    rw [hnodes] at hleaves hstructural
    refine ⟨rule, r, p, cs, hfirst, known, hlhs, hrow.trans hnodes,
      Predictive.isDerivation_of_leaves hinner hleaves reported.counts, ?_⟩
    rw [← spells, Node.spelled_eq_map]
    intro c hc
    refine hstructural c (Node.child_mem_preorderAll ?_ _ (Node.mem_preorderAll List.mem_cons_self))
    rwa [Builder.children_plain]

end Clean

/-- In the tree of a predictive engine every inner node conforms to a rule, the root left out where
it was put over a whole row. So where rules never name the error symbol and the automaton accepts
the end of the stream nowhere, an input that is read without an error has a derivation tree, from
the start symbol, over its tokens that are not hidden, with an empty leaf wherever a rule names the
end of the stream; there is no tree if the start symbol was expanded by an empty rule. -/
theorem predicted_conforms (hload : a.load = .ok t)
    (h : Engine.start t .predictive showHidden source = .ok e) {n : Nat} (hn : EndsAfter t n e) :
    ((e.parse t Builder.plain).2.ended = true →
      (e.parse t Builder.plain).1 = Builder.build t Builder.plain (e.events t n)) ∧
    (∀ root, Builder.build t Builder.plain (e.events t n) = some root →
      (∀ m ∈ Node.preorderAll root.children, m.isLeaf = false → Predictive.Conforms t m) ∧
      (Builder.Rooted (Builder.row t Builder.plain (e.events t n)) → Predictive.Conforms t root) ∧
      (¬ Builder.Rooted (Builder.row t Builder.plain (e.events t n)) →
        ∃ p, root = Builder.wrap t Builder.plain t.start p
          (Builder.row t Builder.plain (e.events t n)))) ∧
    (showHidden = false → (∀ rule r, t.rule? rule = some r → t.error ∉ r.rhs) →
      (∀ st ∈ t.automaton.states, st.accept ≠ some t.endOfStream) →
      (∀ ev ∈ e.events t n, ev.error? = none) →
      ∃ rule r k last, (e.events t n).head? = some (.nonTerminal rule) ∧ t.rule? rule = some r ∧
        r.lhs = t.start ∧ last.symbol = t.endOfStream ∧ last.text = "" ∧
        (0 < k → ∃ rule r, t.rule? rule = some r ∧ t.endOfStream ∈ r.rhs) ∧
        (Builder.build t Builder.plain (e.events t n)).elim [] Node.leaves =
          ((TokenStream.ofSource t source).shown t false ++ List.replicate k last).map
            (Builder.leaf t Builder.plain) ∧
        (r.rhs = [] → Builder.build t Builder.plain (e.events t n) = none) ∧
        (r.rhs ≠ [] → ∃ root, Builder.build t Builder.plain (e.events t n) = some root ∧
          root.IsDerivation t ∧ root.label.id = t.start ∧
          root.children.map (fun c => c.label.id) = r.rhs)) := by
  refine ⟨fun hended => ?_, fun root hroot => ?_, ?_⟩
  · obtain ⟨n', hn', -, htree⟩ := parse_ended hended
    rw [htree, hn'.unique hn]
  · obtain ⟨-, -, hinner⟩ := row_of_endsAfter hload h hn
    refine Builder.allInner_build ?_ (fun m hm hleaf => (hinner m hm hleaf).2) hroot
    rintro m m' hid hspelled hchildren ⟨rule, r, known, hlhs, hsublist, hcomplete⟩
    refine ⟨rule, r, known, hlhs.trans hid, hspelled ▸ hsublist, fun hok => ?_⟩
    rw [← hspelled]
    exact hcomplete fun c hc => hok c (hchildren c hc)
  · rintro rfl herror haccept hok
    obtain ⟨k, hk, hleaves⟩ := leaves_of_clean hload h herror hn hok
    obtain ⟨rule, r, p, cs, hhead, known, hlhs, hrow, hderivation, hcs⟩ :=
      row_of_clean hload h herror hn hok
    have ends : TokenStream.EndsLast t :=
      ⟨Tables.error_ne_endOfStream (Asset.check_of_load hload), haccept⟩
    have hbuild := Builder.build_of_row hrow (Builder.isStructural_wrap ..) (Builder.isLeaf_wrap ..)
    rw [Builder.children_plain] at hbuild
    refine ⟨rule, r, k, (TokenStream.ofSource t source).last, hhead, known, hlhs,
      (TokenStream.symbol_ofScanner _).1, (ends.join_ofSource source).1, hk, ?_, fun hnil => ?_,
      fun hne => ?_⟩
    · rw [← hleaves, ← Builder.leavesOf_build]
      cases Builder.build t Builder.plain (e.events t n) with
      | none => exact Node.leavesOf_nil.symm
      | some root => exact root.leaves_eq
    · rw [hnil, List.map_eq_nil_iff] at hcs
      rw [hbuild, hcs]
      rfl
    · have hcs' : cs.isEmpty = false := by
        rw [List.isEmpty_eq_false_iff]
        rintro rfl
        exact hne hcs.symm
      rw [hcs', if_neg Bool.false_ne_true] at hbuild
      refine ⟨_, hbuild, hderivation, (Builder.id_wrap ..).trans hlhs, ?_⟩
      rw [Builder.children_plain, hcs]

end Engine

namespace Script

/-- The tokens of a document that is one name. -/
theorem ofSource_name : TokenStream.ofSource tables "a" =
    ⟨[⟨symbol, "a", .start⟩], ⟨eof, "", ⟨1, 2, 1⟩⟩⟩ := by
  have hnext : Scanner.next tables (.ofSource "a") =
      (⟨symbol, "a", .start⟩, ⟨"a", [], ⟨1, 2, 1⟩⟩) := rfl
  have hmore : (Scanner.next tables (.ofSource "a")).1.symbol ≠ tables.endOfStream := by
    rw [hnext]
    decide
  rw [TokenStream.ofSource, TokenStream.ofScanner_more hmore, hnext, TokenStream.ofScanner_last rfl]
  rfl

/-- A name is a document. -/
theorem isSentence_name : tables.IsSentence [symbol] := by
  have hconfig : tables.rule? ⟨0⟩ = some ⟨config, [statement, statements]⟩ := rfl
  have hstatements : tables.rule? ⟨3⟩ = some ⟨statements, []⟩ := rfl
  have hstatement : tables.rule? ⟨4⟩ = some ⟨statement, [scalar, statementTail]⟩ := rfl
  have htail : tables.rule? ⟨7⟩ = some ⟨statementTail, []⟩ := rfl
  have hscalar : tables.rule? ⟨10⟩ = some ⟨scalar, [symbol]⟩ := rfl
  refine ⟨?_, by decide⟩
  have h₁ : tables.Derives [config] ([] ++ [statement, statements] ++ []) :=
    Tables.Derives.extend hconfig .refl
  have h₂ : tables.Derives [config] ([] ++ [scalar, statementTail] ++ [statements]) :=
    h₁.extend hstatement
  have h₃ : tables.Derives [config] ([] ++ [symbol] ++ [statementTail, statements]) :=
    h₂.extend hscalar
  have h₄ : tables.Derives [config] ([symbol] ++ [] ++ [statements]) := h₃.extend htail
  have h₅ : tables.Derives [config] ([symbol] ++ [] ++ []) := h₄.extend hstatements
  exact h₅

/-- The tree of a name. -/
theorem predicted_conforms_name : ∃ e n root,
    Engine.start tables .predictive false "a" = .ok e ∧ Engine.EndsAfter tables n e ∧
      Builder.build tables Builder.plain (e.events tables n) = some root ∧
      root.IsDerivation tables ∧ root.label.id = config ∧
      root.leaves = [Builder.leaf tables Builder.plain ⟨symbol, "a", .start⟩] := by
  have hword : (TokenStream.ofSource tables "a").word tables = [symbol] := by
    rw [ofSource_name]
    rfl
  obtain ⟨e, he, hclean⟩ :=
    readsClean_of_sentence (hword ▸ isSentence_name) .predictive false
  obtain ⟨n, hn, hlimit⟩ := endsAfter_of_reachable (.start he)
  rw [Engine.run_eq hn hlimit] at hclean
  have herror : ∀ rule r, tables.rule? rule = some r → tables.error ∉ r.rhs := by
    intro rule r known
    exact (first_numbered _ (mem_numbered known)).2.2.2.2
  obtain ⟨-, -, hderivation⟩ := Engine.predicted_conforms load_asset he hn
  obtain ⟨_, r, k, _, -, -, -, -, -, hk, hleaves, hnone, hsome⟩ :=
    hderivation rfl herror endsLast.2 hclean
  -- no rule names the end of the stream, so the name is the only leaf
  obtain rfl : k = 0 := by
    refine Nat.eq_zero_of_not_pos fun hpos => ?_
    obtain ⟨_, _, known, hmem⟩ := hk hpos
    exact predictive_consistent.rhs known hmem
  rw [ofSource_name, List.replicate_zero, List.append_nil] at hleaves
  have hne : r.rhs ≠ [] := by
    intro hnil
    rw [hnone hnil] at hleaves
    cases hleaves
  obtain ⟨root, hbuild, htree, hid, -⟩ := hsome hne
  rw [hbuild] at hleaves
  exact ⟨e, n, root, he, hn, hbuild, htree, hid, hleaves⟩

end Script

end TableParser
