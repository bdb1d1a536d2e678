import Mathlib.Data.List.Forall2
import TableParser.Proofs.Grammar.Lookahead
import TableParser.Proofs.Tree.Layout
import TableParser.Proofs.Tree.OpenRules
/-!
The root is a node of the start symbol.

Where a single inner node of a row counts, this node becomes the root, and over any other row the
builder puts a node of the start symbol. So what has to be shown is that an inner node that counts
alone is one of the start symbol.

A predictive engine never drops the start symbol, for it has a rule for it at the end of the stream.
The node of this rule comes into the row when nothing else is to come (`Predictive.Stage`). A
shift-reduce engine stops only in a state that can do nothing at the end of the stream or accepts.
The nodes that count stand for the symbols along its stack (`ShiftReduce.Carries`), and over one
non-terminal alone the stack is such that the engine goes on, unless it is the start symbol. These
nodes also have leaves, if their symbols are never empty, so a reduction puts its node over leaves.

Main statements: `Engine.heads_of_predictive`, `Engine.heads_of_shiftReduce` and
`Engine.replaces_reads`.
-/

namespace TableParser

open Node (leavesOf)

variable {t : Tables} {shape : Shape} {n : Node} {nodes : List Node}

/-! ### Nodes of the start symbol -/

@[simp] theorem Node.symbol_updateSpan (n : Node) : n.updateSpan.label.symbol = n.label.symbol := by
  cases n with
  | mk l cs => rw [updateSpan]; split <;> rfl

@[simp] theorem Node.symbol_branch (symbol : String) (id : SymbolId) (collapsed : Bool)
    (substituteFor : Option String) (position : Position) (cs : List Node) :
    (branch symbol id collapsed substituteFor position cs).label.symbol = symbol := by
  rw [branch, symbol_updateSpan]
  rfl

namespace Builder

/-- A node of the start symbol. -/
def IsStart (t : Tables) (shape : Shape) (n : Node) : Prop := ∃ p cs, n = wrap t shape t.start p cs

theorem IsStart.isStructural (h : IsStart t shape n) : n.isStructural = true := by
  obtain ⟨p, cs, rfl⟩ := h
  exact isStructural_wrap ..

/-- The node of a rule of the start symbol, where it is not left out. -/
theorem isStart_ruleNode {rule : RuleId} {r : Rule} (known : t.rule? rule = some r)
    (hstart : r.lhs = t.start) (hlength : r.rhs.length ≠ 1) (p : Position) (cs : List Node) :
    IsStart t shape (ruleNode t shape rule p cs) := by
  rw [ruleNode, known]
  dsimp only
  rw [hstart]
  split
  · rw [if_neg (by simp [hlength])]
    exact ⟨p, _, rfl⟩
  · exact ⟨p, _, rfl⟩

/-- What the root of a tree says of itself. -/
structure Heads (t : Tables) (shape : Shape) (root : Node) : Prop where
  inner : root.isLeaf = false
  id : root.label.id = (substitute t shape t.start).1
  symbol : root.label.symbol = t.nameOf (substitute t shape t.start).1

theorem IsStart.heads (h : IsStart t shape n) : Heads t shape n := by
  obtain ⟨p, cs, rfl⟩ := h
  exact ⟨isLeaf_wrap .., Node.id_branch .., Node.symbol_branch ..⟩

/-- If a single inner node that counts is one of the start symbol, so is the root. -/
theorem heads_of_finish {p : Position} {root : Node}
    (h : ∀ core, nodes.filter Node.isStructural = [core] → core.isLeaf = false →
      IsStart t shape core)
    (hroot : finish t shape p nodes = some root) : Heads t shape root := by
  rw [root_of_finish hroot]
  rcases @root_cases t shape p nodes with
    ⟨⟨core', hfilter, hinner⟩, before, core, after, hnodes, -, hbefore, hafter, hcases⟩ | ⟨-, heq⟩
  · have hcore := h core' hfilter hinner
    rw [hnodes] at hfilter
    obtain rfl := Node.eq_of_between hbefore hafter hfilter
    obtain ⟨hleaf, hid, hsymbol⟩ := hcore.heads
    rcases hcases with ⟨-, -, heq⟩ | heq
    · rw [heq]
      exact ⟨hleaf, hid, hsymbol⟩
    · rw [heq, absorb]
      exact ⟨by rw [Node.isLeaf_updateSpan]; exact hleaf, by rw [Node.id_updateSpan]; exact hid,
        by rw [Node.symbol_updateSpan]; exact hsymbol⟩
  · rw [heq]
    exact IsStart.heads ⟨p, nodes, rfl⟩

/-- A reduction of nothing puts its node at the end of the row. -/
theorem toList_reduce_nil (shape : Shape) {rule : RuleId} {r : Rule} (known : t.rule? rule = some r)
    (hempty : r.rhs = []) (p : Position) (nodes : Array Node) :
    (reduce t shape rule p nodes).toList = nodes.toList ++ [ruleNode t shape rule p []] := by
  rw [reduce, known, Option.elim_some, hempty]
  exact Array.toList_push

end Builder

open Builder (IsStart Replaces Heads)

/-! ### The predictive engine -/

namespace Predictive

/-- Where the start symbol is still to come no node counts, and where nothing is to come the one
that counts is its node. In between the rules that are open lie over the row without it. -/
inductive Stage (t : Tables) (shape : Shape) : List Pending → List OpenRule → List Node → Prop where
  | before {nodes : List Node} (none : nodes.filter Node.isStructural = []) :
      Stage t shape [.symbol t.start] [] nodes
  | after {nodes : List Node} {root : Node} (only : nodes.filter Node.isStructural = [root])
      (isStart : IsStart t shape root) : Stage t shape [] [] nodes
  | inside {todo : List SymbolId} {rule : RuleId} {r : Rule} {below : List Pending}
      {outer : List OpenRule} {before inside : List Node} {p : Position}
      (known : t.rule? rule = some r)
      (outside : Stage t shape (.symbol r.lhs :: below) outer before) :
      Stage t shape (todo.map .symbol ++ .close rule :: below) (⟨rule, before.length, p⟩ :: outer)
        (before ++ inside)

namespace Stage

variable {stack below : List Pending} {frames : List OpenRule} {s : SymbolId}
  {rule : RuleId} {r : Rule}

/-- A node that does not count. -/
theorem keep (h : Stage t shape stack frames nodes) (hn : n.isStructural = false) :
    Stage t shape stack frames (nodes ++ [n]) := by
  cases h with
  | before none => exact .before ((Node.filter_append_other hn).trans none)
  | after only isStart => exact .after ((Node.filter_append_other hn).trans only) isStart
  | inside known outside =>
    rw [List.append_assoc]
    exact .inside known outside

/-- A node for the symbol on top, which is one of the start symbol if this is on top. -/
theorem next (h : Stage t shape (.symbol s :: below) frames nodes)
    (hn : s = t.start → IsStart t shape n) :
    Stage t shape below frames (nodes ++ [n]) := by
  generalize hstack : (.symbol s :: below : List Pending) = stack at h
  cases h with
  | after => cases hstack
  | before none =>
    cases hstack
    have hstart := hn rfl
    have honly : (nodes ++ [n]).filter Node.isStructural = [n] := by
      rw [Node.filter_append_structural hstart.isStructural, none, List.nil_append]
    exact .after honly hstart
  | @inside todo _ _ _ _ _ _ _ known outside =>
    cases todo with
    | nil => cases hstack
    | cons s' todo =>
      cases hstack
      rw [List.append_assoc]
      exact .inside known outside

/-- A rule is opened. -/
theorem enter (h : Stage t shape (.symbol r.lhs :: below) frames nodes)
    (known : t.rule? rule = some r) (p : Position) :
    Stage t shape (body t rule ++ .close rule :: below)
      (⟨rule, nodes.length, p⟩ :: frames) nodes := by
  have hinside : Stage t shape (r.rhs.map .symbol ++ .close rule :: below)
      (⟨rule, nodes.length, p⟩ :: frames) (nodes ++ []) := .inside known h
  rwa [List.append_nil, ← body_of_rule known] at hinside

/-- The innermost rule is closed. -/
theorem leave (h : Stage t shape (.close rule :: below) frames nodes) :
    ∃ r before inside p outer, t.rule? rule = some r ∧ nodes = before ++ inside ∧
      frames = ⟨rule, before.length, p⟩ :: outer ∧
      Stage t shape (.symbol r.lhs :: below) outer before := by
  generalize hstack : (.close rule :: below : List Pending) = stack at h
  cases h with
  | before | after => cases hstack
  | @inside todo _ r _ outer before inside p known outside =>
    cases todo with
    | cons => cases hstack
    | nil =>
      cases hstack
      exact ⟨r, before, inside, p, outer, known, rfl, rfl, outside⟩

/-- When nothing is to come, no rule is open and the one node that counts is of the start symbol. -/
theorem exists_root (h : Stage t shape [] frames nodes) :
    frames = [] ∧ ∃ root, nodes.filter Node.isStructural = [root] ∧ IsStart t shape root := by
  generalize hstack : ([] : List Pending) = stack at h
  cases h with
  | before => cases hstack
  | after only isStart => exact ⟨rfl, _, only, isStart⟩
  | @inside todo => cases todo <;> cases hstack

end Stage

/-- A table with a rule for the start symbol at the end of the stream, none of them of a single
symbol. -/
structure Certain (t : Tables) (table : PredictionTable) : Prop where
  start : t.isNonTerminal t.start = true
  final : (table.get? t.start t.endOfStream).isSome = true
  length : ∀ {rule r}, t.rule? rule = some r → r.lhs = t.start → r.rhs.length ≠ 1

variable {table : PredictionTable} {showHidden : Bool} {m : Predictive} {b : Builder}

/-- A step never loses the start symbol. -/
theorem stage_step (lawful : Lawful t table) (certain : Certain t table)
    (hlast : m.input.last.symbol = t.endOfStream)
    (h : Stage t shape m.stack b.frames b.nodes.toList) :
    Stage t shape (m.step t table showHidden).2.stack
      (Builder.feed t shape b (m.step t table showHidden).1).frames
      (Builder.feed t shape b (m.step t table showHidden).1).nodes.toList := by
  obtain ⟨e, m', hstep, hmoves⟩ := exists_moves t table showHidden m
  rw [hstep]
  cases hmoves with
  | rest | finish => exact h
  | close _ top =>
    rw [top] at h
    obtain ⟨r, before, inside, p, outer, known, hnodes, hframes, outside⟩ := h.leave
    rw [Builder.feed, hframes]
    dsimp only
    rw [Builder.toList_close, hnodes, List.take_left, List.drop_left]
    exact outside.next fun hstart => Builder.isStart_ruleNode known hstart
      (certain.length known hstart) _ _
  | hidden _ _ next =>
    obtain ⟨-, hhidden, -⟩ := TokenStream.nextHidden_some next
    rw [Builder.feed, Array.toList_push]
    exact h.keep (Builder.isStructural_hidden hhidden)
  | expand _ top _ _ predicted =>
    obtain ⟨r, known, rfl⟩ := lawful.rule predicted
    rw [top] at h
    have henter := h.enter known b.last
    rw [Array.length_toList] at henter
    exact henter
  | take _ top _ kind =>
    rw [top] at h
    rw [Builder.feed, Array.toList_push]
    refine h.next ?_
    rintro rfl
    rw [certain.start] at kind
    cases kind
  | @skip s below input _ sync _ top next syncs stuck =>
    rw [Builder.feed, Array.toList_push]
    dsimp only
    split
    · exact h.keep rfl
    · next hdropped =>
      rw [top] at h
      refine h.next ?_
      rintro rfl
      -- recovery goes on to a token that is wanted, and at the end the start symbol has a rule
      refine absurd ?_ hdropped
      rcases input.recover_current (t := t) sync with hover | ⟨-, hwanted⟩
      · rw [hover, TokenStream.last_of_nextHidden next, hlast, syncs, if_pos certain.start]
        exact certain.final
      · exact hwanted
  | leftOver =>
    rw [Builder.feed, Array.toList_push]
    exact h.keep rfl

end Predictive

/-! ### The shift-reduce engine -/

namespace ShiftReduce

open ShiftReduceTable

/-- What is known of the node for a symbol along the stack. -/
structure NodeFor (t : Tables) (shape : Shape) (sets : FirstSets) (x : SymbolId) (n : Node) :
    Prop where
  leaves : sets.nullable x = false → leavesOf [n] ≠ []
  terminal : t.isNonTerminal x = false → n.isLeaf = true
  start : x = t.start → IsStart t shape n

/-- A closed table for rules that are empty or have a symbol that never is. Over a single
non-terminal it goes on at the end of the stream, unless this is the start symbol. -/
structure Certain (t : Tables) (table : ShiftReduceTable) (sets : FirstSets) (es : List Arc) :
    Prop where
  closed : Closed t table es
  quiet : Quiet t table
  correct : sets.Correct t
  kind : ∀ {rule r}, t.rule? rule = some r → t.isNonTerminal r.lhs = true
  solid : ∀ {rule r}, t.rule? rule = some r → r.rhs ≠ [] → ∃ x ∈ r.rhs, sets.nullable x = false
  length : ∀ {rule r}, t.rule? rule = some r → r.lhs = t.start → r.rhs.length ≠ 1
  shift : ∀ {s target}, table.action? s t.start ≠ some (.shift target)
  final : ∀ {x s}, table.Leads table.initial x s → t.isNonTerminal x = true →
    (table.action? s t.endOfStream = none ∨ table.action? s t.endOfStream = some .accept) →
    x = t.start

/-- The nodes that count stand for the symbols along the stack, and the engine has stopped only
where it can do nothing at the end of the stream or accepts. -/
structure Carries (t : Tables) (shape : Shape) (table : ShiftReduceTable) (sets : FirstSets)
    (m : ShiftReduce) (b : Builder) : Prop where
  row : ∃ xs, table.Spells xs m.states ∧
    List.Forall₂ (NodeFor t shape sets) xs (b.nodes.toList.filter Node.isStructural).reverse
  halted : m.phase ≠ .running →
    table.action? (m.top table) t.endOfStream = none ∨
      table.action? (m.top table) t.endOfStream = some .accept

theorem exists_of_forall₂ {α β : Type} {R : α → β → Prop} {xs : List α} {ys : List β} {x : α}
    (h : List.Forall₂ R xs ys) (hx : x ∈ xs) : ∃ y ∈ ys, R x y := by
  induction h with
  | nil => cases hx
  | @cons x' y _ _ hxy _ ih =>
    rcases List.mem_cons.1 hx with rfl | hx
    · exact ⟨y, List.mem_cons_self, hxy⟩
    · obtain ⟨z, hz, hxz⟩ := ih hx
      exact ⟨z, List.mem_cons_of_mem _ hz, hxz⟩

theorem leavesOf_ne_nil (hn : n ∈ nodes) (h : leavesOf [n] ≠ []) : leavesOf nodes ≠ [] := by
  obtain ⟨before, after, rfl⟩ := List.append_of_mem hn
  rw [Node.leavesOf_append, Node.leavesOf_cons]
  simp [h]

variable {table : ShiftReduceTable} {sets : FirstSets} {es : List Arc} {showHidden : Bool}
  {m : ShiftReduce} {b : Builder}

/-- The node of a reduction is one for its left side, and it stands over leaves unless the right
side is empty. -/
theorem Certain.reduce (certain : Certain t table sets es) (shape : Shape) {xs : List SymbolId}
    {a : SymbolId} {rule : RuleId} {r : Rule} {s : StateId} {below : List StateId}
    (hspells : table.Spells xs m.states)
    (hrow :
      List.Forall₂ (NodeFor t shape sets) xs (b.nodes.toList.filter Node.isStructural).reverse)
    (action : table.action? (m.top table) a = some (.reduce rule)) (known : t.rule? rule = some r)
    (exposed : m.states.drop r.rhs.length = s :: below) :
    ∃ before core after, b.nodes.toList = before ++ core ++ after ∧
      (Builder.reduce t shape rule b.last b.nodes).toList =
        before ++ [Builder.ruleNode t shape rule b.last core] ++ after ∧
      (r.rhs ≠ [] → leavesOf core ≠ []) ∧
      List.Forall₂ (NodeFor t shape sets) (r.lhs :: xs.drop r.rhs.length)
        ((before ++ [Builder.ruleNode t shape rule b.last core] ++ after).filter
          Node.isStructural).reverse := by
  obtain ⟨hroom, -⟩ := hspells.exposed exposed
  rw [hrow.length_eq, List.length_reverse, ← List.countP_eq_length_filter] at hroom
  obtain ⟨before, core, after, hnodes, hreduce, hcount, hafter⟩ :=
    Builder.exists_reduce shape known b.last hroom
  have hnone := Node.filter_others hafter
  -- the nodes that are taken are those of the right side
  rw [hnodes, List.filter_append, List.filter_append, hnone, List.append_nil,
    List.reverse_append] at hrow
  have htaken := List.forall₂_take_append _ _ _ hrow
  have hleft := List.forall₂_drop_append _ _ _ hrow
  rw [List.length_reverse, ← List.countP_eq_length_filter, hcount] at htaken hleft
  obtain ⟨rest, htop⟩ := exists_below hspells
  rw [htop] at hspells
  rw [certain.closed.take_eq_rhs hspells action known] at htaken
  have hleaves : r.rhs ≠ [] → leavesOf core ≠ [] := by
    intro hne
    obtain ⟨x, hx, hsolid⟩ := certain.solid known hne
    obtain ⟨n, hn, hnode⟩ := exists_of_forall₂ htaken (List.mem_reverse.2 hx)
    exact leavesOf_ne_nil (List.mem_of_mem_filter (List.mem_reverse.1 hn)) (hnode.leaves hsolid)
  refine ⟨before, core, after, hnodes, hreduce, hleaves, ?_⟩
  rw [List.filter_append, hnone, List.append_nil,
    Node.filter_append_structural (Builder.isStructural_ruleNode shape known b.last hcount),
    List.reverse_append, List.reverse_singleton, List.singleton_append, List.forall₂_cons]
  refine ⟨⟨fun hsolid => ?_, fun hterminal => ?_, fun hstart => ?_⟩, hleft⟩
  · rw [Builder.leavesOf_ruleNode]
    refine hleaves fun hempty => ?_
    rw [certain.correct.nullable known (by rw [hempty]; rfl)] at hsolid
    cases hsolid
  · rw [certain.kind known] at hterminal
    cases hterminal
  · exact Builder.isStart_ruleNode known hstart (certain.length known hstart) _ _

/-- A step keeps the nodes that count beside the stack. -/
theorem carries_step (certain : Certain t table sets es)
    (hlast : m.input.last.symbol = t.endOfStream) (h : Carries t shape table sets m b) :
    Carries t shape table sets (m.step t table showHidden).2
      (Builder.feed t shape b (m.step t table showHidden).1) := by
  obtain ⟨⟨xs, hspells, hrow⟩, hhalted⟩ := h
  obtain ⟨e, m', hstep, hmoves⟩ := exists_moves t table showHidden m
  rw [hstep]
  cases hmoves with
  | rest halted => exact ⟨⟨xs, hspells, hrow⟩, fun _ => hhalted halted⟩
  | @accept input _ next action empty =>
    rw [TokenStream.current_of_nextHidden next (TokenStream.atEnd_iff.1 empty), hlast] at action
    exact ⟨⟨xs, hspells, hrow⟩, fun _ => .inr action⟩
  | hidden running next =>
    obtain ⟨-, hhidden, -⟩ := TokenStream.nextHidden_some next
    refine ⟨⟨xs, hspells, ?_⟩, fun hn => absurd running hn⟩
    rw [Builder.feed, Array.toList_push,
      Node.filter_append_other (Builder.isStructural_hidden hhidden)]
    exact hrow
  | @shift input target running next action =>
    have hstructural := isStructural_shifted shape certain.quiet hlast next action
    refine ⟨⟨input.current.symbol :: xs, spells_shift hspells action, ?_⟩,
      fun hn => absurd running hn⟩
    rw [Builder.feed, Array.toList_push, Node.filter_append_structural hstructural,
      List.reverse_append, List.reverse_singleton, List.singleton_append, List.forall₂_cons]
    refine ⟨⟨fun _ => ?_, fun _ => rfl, fun hstart => ?_⟩, hrow⟩
    · rw [Node.leavesOf_leaf (by rfl)]
      exact List.cons_ne_nil _ _
    · rw [hstart] at action
      exact absurd action certain.shift
  | @reduce input rule r s target below running next action known exposed goes =>
    obtain ⟨before, core, after, -, hreduce, -, hnew⟩ :=
      certain.reduce shape hspells hrow action known exposed
    obtain ⟨-, hdrop⟩ := hspells.exposed exposed
    refine ⟨⟨r.lhs :: xs.drop r.rhs.length, hdrop.move (.inr goes), ?_⟩,
      fun hn => absurd running hn⟩
    rw [Builder.feed, hreduce]
    exact hnew
  | giveUp running next action hole =>
    exact absurd (givesUp_of_hole running next action hole)
      (not_givesUp certain.closed ⟨xs, hspells⟩)
  | skip =>
    refine ⟨⟨xs, hspells, ?_⟩, fun hn => ?_⟩
    · rw [Builder.feed, Array.toList_push, Node.filter_append_other rfl]
      exact hrow
    · -- recovery ends the document only where nothing can be done at the end of the stream
      dsimp only at hn ⊢
      split at hn
      · next hover => exact .inl (Option.isNone_iff_eq_none.1 (Bool.and_eq_true_iff.1 hover).2)
      · exact absurd rfl hn

/-- A reduction puts its node over leaves, or an empty one at the end of the row. -/
theorem Carries.replaces (certain : Certain t table sets es) (h : Carries t shape table sets m b)
    {rule : RuleId} (hreduce : (m.step t table showHidden).1 = .reduce rule) :
    Replaces t shape rule b.last b.nodes.toList
      (Builder.reduce t shape rule b.last b.nodes).toList := by
  obtain ⟨⟨xs, hspells, hrow⟩, -⟩ := h
  obtain ⟨e, m', hstep, hmoves⟩ := exists_moves t table showHidden m
  rw [hstep] at hreduce
  cases hmoves with
  | rest | hidden | shift | giveUp | accept | skip => cases hreduce
  | @reduce _ _ r _ _ _ _ _ action known exposed =>
    cases hreduce
    by_cases hempty : r.rhs = []
    · refine ⟨b.nodes.toList, [], [], by simp, ?_, .inr ⟨rfl, rfl⟩⟩
      rw [Builder.toList_reduce_nil shape known hempty, List.append_nil]
    · obtain ⟨before, core, after, hnodes, hreduce, hleaves, -⟩ :=
        certain.reduce shape hspells hrow action known exposed
      exact ⟨before, core, after, hnodes, hreduce, .inl (hleaves hempty)⟩

/-- Where the engine has stopped, a single inner node that counts is one of the start symbol. -/
theorem Carries.isStart (certain : Certain t table sets es) (h : Carries t shape table sets m b)
    (halted : m.phase ≠ .running) {core : Node}
    (hcore : b.nodes.toList.filter Node.isStructural = [core]) (hinner : core.isLeaf = false) :
    IsStart t shape core := by
  obtain ⟨⟨xs, hspells, hrow⟩, hhalted⟩ := h
  rw [hcore, List.reverse_singleton, List.forall₂_cons_right_iff] at hrow
  obtain ⟨x, rest, hnode, hrest, rfl⟩ := hrow
  obtain rfl := List.forall₂_nil_right_iff.1 hrest
  have hend := hhalted halted
  generalize hstates : m.states = states at hspells
  cases hspells with
  | @move _ s below _ s' path leads =>
    cases path
    rw [ShiftReduce.top, hstates, List.headD_cons] at hend
    refine hnode.start (certain.final leads ?_ hend)
    cases hkind : t.isNonTerminal x with
    | true => rfl
    | false => rw [hnode.terminal hkind] at hinner; cases hinner

end ShiftReduce

namespace Engine

variable {a : Asset} {source : String} {showHidden : Bool} {e : Engine}

/-! ### A whole run -/

/-- At the end of a document the row of a predictive engine has one node that counts, and it is of
the start symbol. -/
theorem only_start_of_predictive (hload : a.load = .ok t)
    (certain : ∀ table, t.prediction = some table → Predictive.Certain t table)
    (h : Engine.start t .predictive showHidden source = .ok e) {n : Nat} (hn : EndsAfter t n e)
    (shape : Shape) :
    (e.builder t shape n).frames = [] ∧
      ∃ root, (e.builder t shape n).nodes.toList.filter Node.isStructural = [root] ∧
      IsStart t shape root := by
  obtain ⟨table, htable, hmachine⟩ := exists_prediction h
  have lawful := Asset.lawful_of_load hload htable
  have hreads : ∀ n, ∃ m, (e.reads t n).machine = .predictive table m ∧
      Predictive.Follows t m (e.builder t Builder.plain n) ∧
      Predictive.Stage t shape m.stack (e.builder t shape n).frames
        (e.builder t shape n).nodes.toList := by
    intro n
    induction n with
    | zero => exact ⟨_, hmachine, .start _ (TokenStream.symbol_ofScanner _).1, .before rfl⟩
    | succ n ih =>
      obtain ⟨m, hm, follows, stage⟩ := ih
      obtain ⟨hevent, hnext⟩ := reads_predictive hm
      rw [builder_succ, builder_succ, hevent, hnext]
      exact ⟨_, rfl, Predictive.follows_step lawful follows,
        Predictive.stage_step lawful (certain table htable) follows.last stage⟩
  obtain ⟨m, hm, follows, stage⟩ := hreads n
  have hend : (m.step t table e.showHidden).1 = .endDocument := by
    rw [← (reads_predictive hm).1]
    exact of_decide_eq_true hn.1
  rw [follows.stack_eq_nil hend] at stage
  exact stage.exists_root

/-- The root of a tree from a predictive engine. -/
theorem heads_of_predictive (hload : a.load = .ok t)
    (certain : ∀ table, t.prediction = some table → Predictive.Certain t table)
    (h : Engine.start t .predictive showHidden source = .ok e) {n : Nat} (hn : EndsAfter t n e)
    {root : Node} (hroot : Builder.build t shape (e.events t n) = some root) :
    Heads t shape root := by
  obtain ⟨hframes, core, hcore, hstart⟩ := only_start_of_predictive hload certain h hn shape
  refine Builder.heads_of_finish (fun core' hcore' _ => ?_) hroot
  rw [show ((e.events t n).foldl (Builder.feed t shape) {}).frames = [] from hframes,
    List.foldl_nil] at hcore'
  obtain rfl : core = core' := List.singleton_inj.1 (hcore.symm.trans hcore')
  exact hstart

section ShiftReduce

variable {sets : FirstSets} {es : List ShiftReduceTable.Arc}
  (certain : ∀ table, t.shiftReduce = some table → ShiftReduce.Certain t table sets es)
  (h : Engine.start t .shiftReduce showHidden source = .ok e)

include certain h

theorem carries_reads (shape : Shape) : ∃ table, ShiftReduce.Certain t table sets es ∧
    ∀ n, ∃ m, (e.reads t n).machine = .shiftReduce table m ∧
      ShiftReduce.Carries t shape table sets m (e.builder t shape n) := by
  obtain ⟨table, htable, hreads⟩ := exists_reads h
  refine ⟨table, certain table htable, fun n => ?_⟩
  induction n with
  | zero =>
    obtain ⟨table', htable', hmachine⟩ := exists_shiftReduce h
    obtain rfl := Option.some.inj (htable.symm.trans htable')
    exact ⟨_, hmachine, ⟨[], .start, .nil⟩, fun hn => absurd rfl hn⟩
  | succ n ih =>
    obtain ⟨m, hm, carries⟩ := ih
    obtain ⟨m', hm', hlast⟩ := hreads n
    cases hm.symm.trans hm'
    obtain ⟨hevent, hnext⟩ := reads_shiftReduce hm
    rw [builder_succ, hevent, hnext]
    exact ⟨_, rfl, ShiftReduce.carries_step (certain table htable) hlast carries⟩

/-- Every reduction puts its node over leaves, or an empty one at the end of the row. -/
theorem replaces_reads (shape : Shape) (n : Nat) (rule : RuleId)
    (hreduce : (e.reads t (n + 1)).event = .reduce rule) :
    Replaces t shape rule (e.builder t shape n).last (e.builder t shape n).nodes.toList
      (Builder.reduce t shape rule (e.builder t shape n).last
        (e.builder t shape n).nodes).toList := by
  obtain ⟨table, hcertain, hreads⟩ := carries_reads certain h shape
  obtain ⟨m, hm, carries⟩ := hreads n
  rw [(reads_shiftReduce hm).1] at hreduce
  exact carries.replaces hcertain hreduce

/-- The root of a tree from a shift-reduce engine. -/
theorem heads_of_shiftReduce {n : Nat} (hn : EndsAfter t n e) {root : Node}
    (hroot : Builder.build t shape (e.events t n) = some root) : Heads t shape root := by
  obtain ⟨table, hcertain, hreads⟩ := carries_reads certain h shape
  obtain ⟨m, hm, carries⟩ := hreads n
  have hend : (m.step t table e.showHidden).1 = .endDocument := by
    rw [← (reads_shiftReduce hm).1]
    exact of_decide_eq_true hn.1
  have halted : m.phase ≠ .running := by
    obtain ⟨ev, m', hstep, hmoves⟩ := ShiftReduce.exists_moves t table e.showHidden m
    rw [hstep] at hend
    cases hmoves with
    | rest halted => exact halted
    | hidden | shift | reduce | giveUp | accept | skip => cases hend
  obtain ⟨_, _, hmachine⟩ := exists_shiftReduce h
  refine Builder.heads_of_finish (fun core hcore hinner => ?_) hroot
  rw [show ((e.events t n).foldl (Builder.feed t shape) {}).frames = []
      from frames_reads hmachine shape n, List.foldl_nil] at hcore
  exact carries.isStart hcertain halted hcore hinner

end ShiftReduce

end Engine

end TableParser
