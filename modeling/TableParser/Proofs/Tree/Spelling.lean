import Mathlib.Data.List.TakeWhile
import TableParser.Proofs.Tree.Leaves
/-!
What the nodes of a tree spell.

The nodes of a row that count in the derivation spell a list of symbols (`Node.spelled`). A tree in
plain shape has a node for every rule, with all that the rule took below it, so a property of the
inner nodes that the builder has put into its row is a property of the inner nodes of the tree. Only
its root may be another one: where the row has a single inner node that counts, that node is the
root, with the leaves around it among its children, and else a node of the start symbol is put over
the whole row.

Main statement: `Builder.allInner_build`.
-/

namespace TableParser

namespace Node

variable {ns : List Node} {n : Node}

/-! ### Nodes that do not count -/

theorem filter_others (h : ∀ n ∈ ns, n.isStructural = false) : ns.filter isStructural = [] :=
  List.filter_eq_nil_iff.2 fun n hn => by rw [h n hn]; exact Bool.false_ne_true

theorem countP_others (h : ∀ n ∈ ns, n.isStructural = false) : ns.countP isStructural = 0 := by
  rw [List.countP_eq_length_filter, filter_others h, List.length_nil]

theorem filter_append_other (hn : n.isStructural = false) :
    (ns ++ [n]).filter isStructural = ns.filter isStructural := by
  have hnone : [n].filter isStructural = [] := filter_others (by simpa using hn)
  rw [List.filter_append, hnone, List.append_nil]

theorem filter_append_structural (hn : n.isStructural = true) :
    (ns ++ [n]).filter isStructural = ns.filter isStructural ++ [n] := by
  rw [List.filter_append, List.filter_cons_of_pos hn, List.filter_nil]

/-- Where the nodes around one do not count and a single node counts, it is this one. -/
theorem eq_of_between {before after : List Node} {core : Node}
    (hbefore : ∀ m ∈ before, m.isStructural = false) (hafter : ∀ m ∈ after, m.isStructural = false)
    (h : (before ++ [core] ++ after).filter isStructural = [n]) : core = n := by
  rw [List.filter_append, List.filter_append, filter_others hbefore, filter_others hafter,
    List.nil_append, List.append_nil] at h
  have hmem : n ∈ [core].filter isStructural := by rw [h]; exact List.mem_singleton_self n
  exact (List.mem_singleton.1 (List.mem_filter.1 hmem).1).symm

@[simp] theorem id_updateSpan (n : Node) : n.updateSpan.label.id = n.label.id := by
  cases n with
  | mk l cs => rw [updateSpan]; split <;> rfl

@[simp] theorem id_branch (symbol : String) (id : SymbolId) (collapsed : Bool)
    (substituteFor : Option String) (position : Position) (cs : List Node) :
    (branch symbol id collapsed substituteFor position cs).label.id = id := by
  rw [branch, id_updateSpan]
  rfl

/-! ### Symbols of a row -/

/-- The symbols of the nodes that count in the derivation, in order. -/
def spelled (ns : List Node) : List SymbolId :=
  (ns.filter isStructural).map fun n => n.label.id

@[simp] theorem spelled_append (a b : List Node) : spelled (a ++ b) = spelled a ++ spelled b := by
  rw [spelled, List.filter_append, List.map_append]
  rfl

theorem spelled_structural (h : n.isStructural = true) : spelled [n] = [n.label.id] := by
  rw [spelled, List.filter_cons_of_pos h]
  rfl

theorem spelled_other (h : n.isStructural = false) : spelled [n] = [] := by
  rw [spelled, filter_others (by simpa using h), List.map_nil]

theorem spelled_eq_nil (h : ∀ n ∈ ns, n.isStructural = false) : spelled ns = [] := by
  rw [spelled, filter_others h, List.map_nil]

theorem length_spelled (ns : List Node) : (spelled ns).length = ns.countP isStructural := by
  rw [spelled, List.length_map, List.countP_eq_length_filter]

theorem spelled_eq_map (h : ∀ n ∈ ns, n.isStructural = true) :
    spelled ns = ns.map fun n => n.label.id := by
  rw [spelled, List.filter_eq_self.2 h]

theorem error_of_structural (h : n.isStructural = true) : n.label.error = false := by
  rw [isStructural, Bool.and_eq_true, Bool.not_eq_true', Bool.not_eq_true'] at h
  exact h.2

end Node

namespace Builder

open Node (spelled AllInner allInner_append allInner_singleton)

variable {t : Tables} {shape : Shape}

/-! ### Plain trees -/

/-- The shape of a tree as it is derived: no node is left out and none dissolves. -/
abbrev plain : Shape := ⟨false, false⟩

theorem substitute_plain (s : SymbolId) : substitute t plain s = (s, none) := by
  rw [substitute]
  split <;> rfl

theorem id_wrap (s : SymbolId) (p : Position) (cs : List Node) :
    (wrap t plain s p cs).label.id = s := by
  rw [wrap, substitute_plain]
  exact Node.id_branch ..

theorem children_plain (s : SymbolId) (p : Position) (cs : List Node) :
    (wrap t plain s p cs).children = cs :=
  children_wrap s p cs

theorem ruleNode_plain {rule : RuleId} {r : Rule} (known : t.rule? rule = some r) (p : Position)
    (cs : List Node) : ruleNode t plain rule p cs = wrap t plain r.lhs p cs := by
  rw [ruleNode, known]
  dsimp only
  split <;> rfl

theorem id_leaf (tok : Token) : (leaf t plain tok).label.id = tok.symbol := by
  rw [leaf, substitute_plain]
  rfl

theorem error_leaf (tok : Token) :
    (leaf t shape tok).label.error = decide (tok.symbol = t.error) := rfl

theorem hidden_leaf (tok : Token) : (leaf t shape tok).label.hidden = t.isHidden tok.symbol := rfl

theorem isStructural_hidden {tok : Token} (h : t.isHidden tok.symbol = true) :
    (leaf t shape tok).isStructural = false := by
  rw [Node.isStructural, hidden_leaf, h]
  rfl

/-! ### The root -/

/-- One node of a row counts in the derivation, and it is an inner node. -/
def Rooted (nodes : List Node) : Prop :=
  ∃ core, nodes.filter Node.isStructural = [core] ∧ core.isLeaf = false

theorem not_rooted_of_dropWhile {nodes : List Node}
    (h : (nodes.dropWhile fun n => !n.isStructural) = []) : ¬ Rooted nodes := by
  have hothers : ∀ n ∈ nodes, n.isStructural = false := by
    simpa using List.dropWhile_eq_nil_iff.1 h
  rintro ⟨core, hcore, -⟩
  rw [Node.filter_others hothers] at hcore
  cases hcore

/-- A row has one inner node that counts when the first one that counts is an inner one and the only
one. -/
theorem rooted_iff {nodes after : List Node} {core : Node}
    (h : (nodes.dropWhile fun n => !n.isStructural) = core :: after) :
    Rooted nodes ↔ core.isLeaf = false ∧ after.any Node.isStructural = false := by
  have hfilter : nodes.filter Node.isStructural = core :: after.filter Node.isStructural := by
    conv => lhs; rw [Node.eq_of_dropWhile h]
    rw [List.filter_append, List.filter_append, Node.filter_others Node.takeWhile_others,
      List.filter_cons_of_pos (Node.structural_of_dropWhile h)]
    rfl
  rw [Rooted, hfilter, List.any_eq_false]
  constructor
  · rintro ⟨core', hcore, hleaf⟩
    rw [List.cons.injEq] at hcore
    obtain ⟨rfl, hafter⟩ := hcore
    exact ⟨hleaf, List.filter_eq_nil_iff.1 hafter⟩
  · rintro ⟨hleaf, hafter⟩
    exact ⟨core, by rw [List.filter_eq_nil_iff.2 hafter], hleaf⟩

/-- The root of a row with one inner node that counts is this node, with the others around its
children. Any other row goes under a node of the start symbol. -/
theorem root_cases (p : Position) (nodes : List Node) :
    (Rooted nodes ∧ ∃ before core after, nodes = before ++ [core] ++ after ∧ core.isLeaf = false ∧
      (∀ n ∈ before, n.isStructural = false) ∧ (∀ n ∈ after, n.isStructural = false) ∧
      ((before = [] ∧ after = [] ∧ root t shape p nodes = core) ∨
        root t shape p nodes = absorb core before after)) ∨
    (¬ Rooted nodes ∧ root t shape p nodes = wrap t shape t.start p nodes) := by
  rw [root]
  cases hdrop : nodes.dropWhile fun n => !n.isStructural with
  | nil => exact .inr ⟨not_rooted_of_dropWhile hdrop, rfl⟩
  | cons core after =>
    have hrooted := rooted_iff hdrop
    dsimp only
    by_cases hmany : (core.isLeaf || after.any Node.isStructural) = true
    · rw [if_pos hmany]
      refine .inr ⟨fun h => ?_, rfl⟩
      obtain ⟨hinner, hafter⟩ := hrooted.1 h
      rw [hinner, hafter] at hmany
      cases hmany
    · rw [if_neg hmany]
      rw [Bool.or_eq_true, not_or, Bool.not_eq_true, Bool.not_eq_true] at hmany
      have hafter : ∀ n ∈ after, n.isStructural = false := by
        simpa using List.any_eq_false.1 hmany.2
      refine .inl ⟨hrooted.2 hmany, _, core, after, Node.eq_of_dropWhile hdrop, hmany.1,
        Node.takeWhile_others, hafter, ?_⟩
      split
      · next hempty =>
        rw [Bool.and_eq_true, List.isEmpty_iff, List.isEmpty_iff] at hempty
        exact .inl ⟨hempty.1, hempty.2, rfl⟩
      · exact .inr rfl

theorem root_of_finish {p : Position} {nodes : List Node} {n : Node}
    (h : finish t shape p nodes = some n) : n = root t shape p nodes := by
  cases nodes with
  | nil => cases h
  | cons first rest =>
    rw [finish.eq_2 _ _ _ _ (by simp)] at h
    split at h
    · cases h
    · exact (Option.some.inj h).symm

/-! ### The row that is left -/

/-- The trees of the row when all events have been taken in and all non-terminals are closed. -/
def row (t : Tables) (shape : Shape) (events : List Event) : List Node :=
  let b := events.foldl (feed t shape) {}
  (b.frames.foldl (close t shape) b.nodes).toList

/-- A row of one inner node that counts gives this node, or no tree if it has no children. -/
theorem build_of_row {events : List Event} {n : Node} (hrow : row t shape events = [n])
    (hcounts : n.isStructural = true) (hinner : n.isLeaf = false) :
    build t shape events = if n.children.isEmpty then none else some n := by
  have hroot : ∀ p, root t shape p [n] = n := by
    intro p
    simp [root, hcounts, hinner]
  have hbuild : ∀ p, finish t shape p [n] = if n.children.isEmpty then none else some n := by
    intro p
    simp [finish, hroot, hinner]
  rw [← hbuild, ← hrow]
  rfl

/-- A tree is the root of its row. -/
theorem eq_root_of_build {events : List Event} {n : Node} (h : build t shape events = some n) :
    ∃ p, n = root t shape p (row t shape events) := by
  exact ⟨_, root_of_finish h⟩

/-- What holds of the inner nodes of the row holds of the inner nodes of the tree, the root left out
where it was put over the whole row. -/
theorem allInner_build {P : Node → Prop}
    (hP : ∀ m m' : Node, m.label.id = m'.label.id → spelled m.children = spelled m'.children →
      (∀ c ∈ m.children, c ∈ m'.children) → P m → P m')
    {events : List Event} (hrow : AllInner P (row t plain events)) {n : Node}
    (h : build t plain events = some n) :
    AllInner P n.children ∧ (Rooted (row t plain events) → P n) ∧
      (¬ Rooted (row t plain events) → ∃ p, n = wrap t plain t.start p (row t plain events)) := by
  obtain ⟨p, rfl⟩ := eq_root_of_build h
  rcases @root_cases t plain p (row t plain events) with
    ⟨hrooted, before, core, after, hnodes, hleaf, hbefore, hafter, hroot⟩ | ⟨hnot, hroot⟩
  · rw [hnodes, allInner_append, allInner_append, allInner_singleton] at hrow
    obtain ⟨⟨hrow₁, hcore, hchildren⟩, hrow₂⟩ := hrow
    rcases hroot with ⟨-, -, hroot⟩ | hroot
    · rw [hroot]
      exact ⟨hchildren, fun _ => hcore hleaf, fun hn => absurd hrooted hn⟩
    · have hspelled : spelled core.children = spelled (before ++ core.children ++ after) := by
        rw [Node.spelled_append, Node.spelled_append, Node.spelled_eq_nil hbefore,
          Node.spelled_eq_nil hafter, List.nil_append, List.append_nil]
      have hkept : (absorb core before after).children = before ++ core.children ++ after :=
        Node.children_updateSpan _
      rw [hroot, hkept]
      refine ⟨allInner_append.2 ⟨allInner_append.2 ⟨hrow₁, hchildren⟩, hrow₂⟩, fun _ => ?_,
        fun hn => absurd hrooted hn⟩
      have hid : (absorb core before after).label.id = core.label.id := Node.id_updateSpan _
      refine hP core _ hid.symm (hkept ▸ hspelled) ?_ (hcore hleaf)
      rw [hkept]
      exact fun c hc => List.mem_append_left _ (List.mem_append_right _ hc)
  · rw [hroot, children_plain]
    exact ⟨hrow, fun hr => absurd hr hnot, fun _ => ⟨p, rfl⟩⟩

end Builder

namespace Engine

/-- The tree builder after some reads. -/
def builder (t : Tables) (shape : Shape) (n : Nat) (e : Engine) : Builder :=
  (e.events t n).foldl (Builder.feed t shape) {}

theorem builder_succ (t : Tables) (shape : Shape) (n : Nat) (e : Engine) :
    e.builder t shape (n + 1) =
      Builder.feed t shape (e.builder t shape n) (e.reads t (n + 1)).event := by
  rw [builder, events_succ, List.foldl_append]
  rfl

end Engine

end TableParser
