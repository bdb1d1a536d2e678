import Mathlib.Data.List.Induction
import TableParser.Proofs.Engine.Passage
import TableParser.Proofs.Tree.Agreement
import TableParser.Proofs.Tree.Spelling
/-!
The row of the builder beside the stack of the engine.

The nodes of the builder's row that count in the derivation spell what the state stack of a
shift-reduce engine spells, as long as no document is given up and the table never shifts the error
symbol (`ShiftReduce.Mirrors`). So there is one such node for each state above the initial one, and
a reduction, which the builder sees as a number of nodes to take, takes the nodes of the states that
the engine drops, whatever hidden and error leaves stand between them. On a closed table these nodes
spell the right side of the rule, so every inner node spells the right side of a rule of its symbol.

Main statements: `ShiftReduce.mirrors_step` and `ShiftReduce.exact_step`.
-/

namespace TableParser

open Node (spelled AllInner allInner_append allInner_singleton)

namespace Builder

variable {t : Tables} {shape : Shape}

/-! ### What a reduction takes -/

/-- The last structural nodes of a row, as many as are asked for, with all that is between them. -/
theorem exists_core {nodes : List Node} : ∀ {k : Nat}, k ≠ 0 → k ≤ nodes.countP Node.isStructural →
    ∃ before core after, nodes = before ++ core ++ after ∧
      core.head?.any Node.isStructural = true ∧ core.getLast?.any Node.isStructural = true ∧
      core.countP Node.isStructural = k ∧ ∀ n ∈ after, n.isStructural = false := by
  induction nodes using List.reverseRecOn with
  | nil => intro k hk hle; exact absurd (Nat.le_zero.1 hle) hk
  | append_singleton init n ih =>
    intro k hk hle
    rw [List.countP_append, List.countP_singleton] at hle
    cases hn : n.isStructural with
    | false =>
      rw [hn, if_neg Bool.false_ne_true, Nat.add_zero] at hle
      obtain ⟨before, core, after, rfl, hfirst, hlast, hcount, hafter⟩ := ih hk hle
      refine ⟨before, core, after ++ [n], by simp, hfirst, hlast, hcount, fun m hm => ?_⟩
      rcases List.mem_append.1 hm with hm | hm
      · exact hafter m hm
      · exact List.mem_singleton.1 hm ▸ hn
    | true =>
      rw [hn, if_pos rfl] at hle
      by_cases hone : k = 1
      · subst hone
        refine ⟨init, [n], [], by simp, hn, hn, ?_, by simp⟩
        rw [List.countP_singleton, if_pos hn]
      · obtain ⟨before, core, after, rfl, hfirst, -, hcount, hafter⟩ :=
          ih (k := k - 1) (by omega) (by omega)
        obtain ⟨first, hhead, hfirst⟩ := (Option.any_eq_true _ _).1 hfirst
        obtain ⟨more, rfl⟩ := List.head?_eq_some_iff.1 hhead
        refine ⟨before, (first :: more) ++ after ++ [n], [], by simp, hfirst, ?_, ?_, by simp⟩
        · rw [List.getLast?_concat]
          exact hn
        · rw [List.countP_append, List.countP_append, hcount, Node.countP_others hafter,
            List.countP_singleton, if_pos hn]
          omega

/-- A reduction puts its node in the place of the last structural nodes of the row, as many as its
rule has symbols, with all that is between them. -/
theorem exists_reduce (shape : Shape) {rule : RuleId} {r : Rule} (known : t.rule? rule = some r)
    (p : Position) {nodes : Array Node}
    (hle : r.rhs.length ≤ nodes.toList.countP Node.isStructural) :
    ∃ before core after, nodes.toList = before ++ core ++ after ∧
      (reduce t shape rule p nodes).toList = before ++ [ruleNode t shape rule p core] ++ after ∧
      core.countP Node.isStructural = r.rhs.length ∧ ∀ n ∈ after, n.isStructural = false := by
  by_cases hempty : r.rhs.length = 0
  · refine ⟨nodes.toList, [], [], by simp, ?_, hempty.symm, by simp⟩
    rw [reduce, known, Option.elim_some, hempty]
    simp
  · obtain ⟨before, core, after, hnodes, hfirst, hlast, hcount, hafter⟩ := exists_core hempty hle
    refine ⟨before, core, after, hnodes, ?_, hcount, hafter⟩
    have h : reduce t shape rule p (before ++ core ++ after).toArray = _ :=
      reduce_eq known p hfirst hlast hcount hafter
    rw [← hnodes, Array.toArray_toList] at h
    rw [h]

end Builder

/-! ### Two stacks -/

namespace ShiftReduce

open ShiftReduceTable

variable {t : Tables} {table : ShiftReduceTable} {showHidden : Bool} {m : ShiftReduce} {b : Builder}

/-- What has to be known of the tables: the error symbol is never shifted, and the end of the stream
is not hidden. -/
structure Quiet (t : Tables) (table : ShiftReduceTable) : Prop where
  error : ∀ {s target}, table.action? s t.error ≠ some (.shift target)
  endOfStream : t.isHidden t.endOfStream = false

/-- The structural nodes of the row spell what the state stack spells. -/
structure Mirrors (table : ShiftReduceTable) (m : ShiftReduce) (b : Builder) : Prop where
  spells : ∃ xs, table.Spells xs m.states ∧ spelled b.nodes.toList = xs.reverse
  frames : b.frames = []

/-- There is one structural node for each state above the initial one. -/
theorem Mirrors.count (h : Mirrors table m b) :
    b.nodes.toList.countP Node.isStructural + 1 = m.states.length := by
  obtain ⟨xs, hpath, hspelled⟩ := h.spells
  rw [← Node.length_spelled, hspelled, List.length_reverse, hpath.length_eq]

/-- A reduction that leads on takes the nodes of the states that the engine drops. -/
theorem Mirrors.reduce (shape : Shape) {xs : List SymbolId} {rule : RuleId} {r : Rule} {s : StateId}
    {below : List StateId} (known : t.rule? rule = some r) (hpath : table.Spells xs m.states)
    (hspelled : spelled b.nodes.toList = xs.reverse)
    (exposed : m.states.drop r.rhs.length = s :: below) :
    ∃ before core after, b.nodes.toList = before ++ core ++ after ∧
      (Builder.reduce t shape rule b.last b.nodes).toList =
        before ++ [Builder.ruleNode t shape rule b.last core] ++ after ∧
      core.countP Node.isStructural = r.rhs.length ∧ (∀ n ∈ after, n.isStructural = false) ∧
      spelled before = (xs.drop r.rhs.length).reverse ∧
      spelled core = (xs.take r.rhs.length).reverse := by
  obtain ⟨hle, -⟩ := hpath.exposed exposed
  have hcountP : b.nodes.toList.countP Node.isStructural = xs.length := by
    rw [← Node.length_spelled, hspelled, List.length_reverse]
  have hroom : r.rhs.length ≤ b.nodes.toList.countP Node.isStructural := by omega
  obtain ⟨before, core, after, hnodes, hreduce, hcount, hafter⟩ :=
    Builder.exists_reduce shape known b.last hroom
  refine ⟨before, core, after, hnodes, hreduce, hcount, hafter, ?_⟩
  rw [hnodes, Node.spelled_append, Node.spelled_append, Node.spelled_eq_nil hafter, List.append_nil,
    ← List.take_append_drop r.rhs.length xs, List.reverse_append] at hspelled
  refine List.append_inj' hspelled ?_
  rw [Node.length_spelled, hcount, List.length_reverse, List.length_take, Nat.min_eq_left hle]

/-- The token that is shifted counts in the derivation. -/
theorem isStructural_shifted (shape : Shape) {input : TokenStream} {target : StateId}
    (quiet : Quiet t table) (hlast : m.input.last.symbol = t.endOfStream)
    (next : m.input.nextHidden t showHidden = (none, input))
    (action : table.action? (m.top table) input.current.symbol = some (.shift target)) :
    (Builder.leaf t shape input.current).isStructural = true := by
  refine Builder.isStructural_leaf ?_ fun heq => quiet.error (heq ▸ action)
  exact TokenStream.isHidden_current (hlast ▸ quiet.endOfStream) next

/-- A step that does not give the document up keeps the two stacks alike. -/
theorem mirrors_step (quiet : Quiet t table) (hlast : m.input.last.symbol = t.endOfStream)
    (hg : ¬ m.GivesUp t table showHidden) (h : Mirrors table m b) :
    Mirrors table (m.step t table showHidden).2
      (Builder.feed t Builder.plain b (m.step t table showHidden).1) := by
  obtain ⟨⟨xs, hpath, hspelled⟩, hframes⟩ := h
  obtain ⟨e, m', hstep, hmoves⟩ := exists_moves t table showHidden m
  rw [hstep]
  -- a leaf that does not count leaves what is spelled as it is
  have hleaf : ∀ n : Node, n.isStructural = false →
      spelled (b.nodes.push n).toList = xs.reverse := by
    intro n hn
    rw [Array.toList_push, Node.spelled_append, hspelled, Node.spelled_other hn, List.append_nil]
  cases hmoves with
  | rest | accept => exact ⟨⟨xs, hpath, hspelled⟩, hframes⟩
  | hidden _ next =>
    obtain ⟨-, hhidden, -⟩ := TokenStream.nextHidden_some next
    exact ⟨⟨xs, hpath, hleaf _ (Builder.isStructural_hidden hhidden)⟩, hframes⟩
  | skip => exact ⟨⟨xs, hpath, hleaf _ rfl⟩, hframes⟩
  | @shift input target _ next action =>
    have hstructural := isStructural_shifted Builder.plain quiet hlast next action
    refine ⟨⟨input.current.symbol :: xs, spells_shift hpath action, ?_⟩, hframes⟩
    rw [Builder.feed, Array.toList_push, Node.spelled_append, hspelled,
      Node.spelled_structural hstructural, Builder.id_leaf, List.reverse_cons]
  | @reduce input rule r s target below _ _ _ known exposed goes =>
    obtain ⟨before, core, after, -, hreduce, -, hafter, hbefore, -⟩ :=
      Mirrors.reduce Builder.plain known hpath hspelled exposed
    obtain ⟨-, hdrop⟩ := hpath.exposed exposed
    refine ⟨⟨r.lhs :: xs.drop r.rhs.length, hdrop.move (.inr goes), ?_⟩, hframes⟩
    rw [Builder.feed, hreduce, Node.spelled_append, Node.spelled_append, hbefore,
      Node.spelled_eq_nil hafter, List.append_nil, Builder.ruleNode_plain known,
      Node.spelled_structural (Builder.isStructural_wrap ..), Builder.id_wrap, List.reverse_cons]
  | giveUp running next action hole => exact absurd (givesUp_of_hole running next action hole) hg

/-! ### Closed tables -/

/-- The children of an inner node spell the right side of a rule of its symbol. -/
def Exact (t : Tables) (n : Node) : Prop :=
  ∃ rule r, t.rule? rule = some r ∧ r.lhs = n.label.id ∧ spelled n.children = r.rhs

/-- On a closed table a reduction groups nodes that spell the right side of its rule. -/
theorem Mirrors.exact {es : List Arc} (closed : Closed t table es) (h : Mirrors table m b)
    {rule : RuleId} (hreduce : (m.step t table showHidden).1 = .reduce rule) :
    ∃ r before core after, t.rule? rule = some r ∧ b.nodes.toList = before ++ core ++ after ∧
      (Builder.reduce t Builder.plain rule b.last b.nodes).toList =
        before ++ [Builder.wrap t Builder.plain r.lhs b.last core] ++ after ∧
      core.countP Node.isStructural = r.rhs.length ∧ spelled core = r.rhs ∧
      ∀ n ∈ after, n.isStructural = false := by
  obtain ⟨⟨xs, hpath, hspelled⟩, -⟩ := h
  obtain ⟨e, m', hstep, hmoves⟩ := exists_moves t table showHidden m
  rw [hstep] at hreduce
  cases hmoves with
  | rest | hidden | shift | giveUp | accept | skip => cases hreduce
  | @reduce input rule' r s below target _ _ action known exposed goes =>
    cases hreduce
    obtain ⟨before, core, after, hnodes, hnew, hcount, hafter, -, hcore⟩ :=
      Mirrors.reduce Builder.plain known hpath hspelled exposed
    obtain ⟨rest, htop⟩ := exists_below hpath
    rw [htop] at hpath
    rw [closed.take_eq_rhs hpath action known, List.reverse_reverse] at hcore
    rw [Builder.ruleNode_plain known] at hnew
    exact ⟨r, before, core, after, known, hnodes, hnew, hcount, hcore, hafter⟩

/-- On a closed table a step keeps every inner node exact. -/
theorem exact_step {es : List Arc} (closed : Closed t table es) (h : Mirrors table m b)
    (hall : AllInner (Exact t) b.nodes.toList) :
    AllInner (Exact t)
      (Builder.feed t Builder.plain b (m.step t table showHidden).1).nodes.toList := by
  have hleaf : ∀ n : Node, n.isLeaf = true → n.children = [] →
      AllInner (Exact t) (b.nodes.push n).toList := by
    intro n hn hchildren
    rw [Array.toList_push, allInner_append]
    exact ⟨hall, Node.allInner_leaf hn hchildren⟩
  cases he : (m.step t table showHidden).1 with
  | initial | accept | endDocument | nonTerminal => exact hall
  | terminal tok | shift tok => exact hleaf _ rfl rfl
  | error err => exact hleaf _ rfl rfl
  | endNonTerminal rule =>
    rw [Builder.feed, h.frames]
    exact hall
  | reduce rule =>
    obtain ⟨r, before, core, after, known, hnodes, hnew, -, hcore, -⟩ := h.exact closed he
    rw [hnodes, allInner_append, allInner_append] at hall
    rw [Builder.feed, hnew, allInner_append, allInner_append, allInner_singleton,
      Builder.children_plain]
    refine ⟨⟨hall.1.1, fun _ => ⟨rule, r, known, (Builder.id_wrap ..).symm, ?_⟩, hall.1.2⟩, hall.2⟩
    rw [Builder.children_plain, hcore]

end ShiftReduce

end TableParser
