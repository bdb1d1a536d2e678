import TableParser.Proofs.Engine.Reading
import TableParser.Proofs.Tree.Walk
import TableParser.Tree.Builder
/-!
The builder keeps the leaves.

Whatever the events are, each one that carries text adds one leaf at the end and no event loses,
doubles or moves a leaf: inner nodes are put over trees, dissolved or left out, but the leaves under
them stay in order. The tree at the end has the leaves of the row, and there is no tree only if
there is no leaf. Inner nodes are never errors, so a tree has errors only where events report them.

Main statements: `leavesOf_feed`, `leavesOf_build`, `forall_row` and `hasErrors_build`.
-/

namespace TableParser

namespace Node

@[simp] theorem children_updateSpan (n : Node) : n.updateSpan.children = n.children := by
  cases n with
  | mk l cs => rw [updateSpan]; split <;> rfl

@[simp] theorem isLeaf_updateSpan (n : Node) : n.updateSpan.isLeaf = n.isLeaf := by
  cases n with
  | mk l cs => rw [updateSpan]; split <;> rfl

@[simp] theorem children_branch (symbol : String) (id : SymbolId) (collapsed : Bool)
    (substituteFor : Option String) (position : Position) (cs : List Node) :
    (branch symbol id collapsed substituteFor position cs).children = cs := by
  rw [branch, children_updateSpan]
  rfl

@[simp] theorem isLeaf_branch (symbol : String) (id : SymbolId) (collapsed : Bool)
    (substituteFor : Option String) (position : Position) (cs : List Node) :
    (branch symbol id collapsed substituteFor position cs).isLeaf = false := by
  rw [branch, isLeaf_updateSpan]
  rfl

@[simp] theorem error_updateSpan (n : Node) : n.updateSpan.label.error = n.label.error := by
  cases n with
  | mk l cs => rw [updateSpan]; split <;> rfl

@[simp] theorem error_branch (symbol : String) (id : SymbolId) (collapsed : Bool)
    (substituteFor : Option String) (position : Position) (cs : List Node) :
    (branch symbol id collapsed substituteFor position cs).label.error = false := by
  rw [branch, error_updateSpan]
  rfl

@[simp] theorem hidden_updateSpan (n : Node) : n.updateSpan.label.hidden = n.label.hidden := by
  cases n with
  | mk l cs => rw [updateSpan]; split <;> rfl

@[simp] theorem hidden_branch (symbol : String) (id : SymbolId) (collapsed : Bool)
    (substituteFor : Option String) (position : Position) (cs : List Node) :
    (branch symbol id collapsed substituteFor position cs).label.hidden = false := by
  rw [branch, hidden_updateSpan]
  rfl

/-! ### The first node that counts -/

variable {ns after : List Node} {core : Node}

theorem takeWhile_others : ∀ n ∈ ns.takeWhile fun n => !n.isStructural, n.isStructural = false := by
  intro n hn
  have hother := List.all_eq_true.1 List.all_takeWhile n hn
  rwa [Bool.not_eq_true'] at hother

theorem structural_of_dropWhile (h : (ns.dropWhile fun n => !n.isStructural) = core :: after) :
    core.isStructural = true := by
  have hfirst := List.head?_dropWhile_not (fun n : Node => !n.isStructural) ns
  rw [h] at hfirst
  simpa using hfirst

/-- A row is cut around its first node that counts. -/
theorem eq_of_dropWhile (h : (ns.dropWhile fun n => !n.isStructural) = core :: after) :
    ns = (ns.takeWhile fun n => !n.isStructural) ++ [core] ++ after := by
  rw [List.append_assoc, List.singleton_append, ← h, List.takeWhile_append_dropWhile]

end Node

namespace Builder

open Node (leavesOf leavesOf_append leavesOf_cons leavesOf_inner leavesOf_leaf textOf)

variable {t : Tables} {shape : Shape}

/-! ### Nodes -/

/-- Splicing keeps the leaves. -/
theorem leavesOf_splice (children : List Node) :
    leavesOf (splice children) = leavesOf children := by
  rw [splice_eq_flatMap]
  induction children with
  | nil => rfl
  | cons n rest ih =>
    rw [List.flatMap_cons, leavesOf_append, ih, leavesOf_cons n rest]
    congr 1
    split
    · next h =>
      rw [dissolves, Bool.and_eq_true, Bool.not_eq_true'] at h
      rw [leavesOf_inner h.2]
    · rfl

@[simp] theorem isLeaf_wrap (s : SymbolId) (p : Position) (cs : List Node) :
    (wrap t shape s p cs).isLeaf = false := Node.isLeaf_branch ..

theorem children_wrap (s : SymbolId) (p : Position) (cs : List Node) :
    (wrap t shape s p cs).children = if shape.transform then splice cs else cs :=
  Node.children_branch ..

theorem leavesOf_wrap (s : SymbolId) (p : Position) (cs : List Node) :
    leavesOf [wrap t shape s p cs] = leavesOf cs := by
  rw [leavesOf_inner (isLeaf_wrap s p cs), children_wrap]
  split
  · exact leavesOf_splice cs
  · rfl

/-- The node of a rule has the leaves of its children. -/
theorem leavesOf_ruleNode (rule : RuleId) (p : Position) (cs : List Node) :
    leavesOf [ruleNode t shape rule p cs] = leavesOf cs := by
  rw [ruleNode]
  split
  · exact leavesOf_wrap ..
  · split
    · split
      · rfl
      · exact leavesOf_wrap ..
    · exact leavesOf_wrap ..

/-! ### The place of a node -/

theorem branch_position {symbol : String} {id : SymbolId} {collapsed : Bool}
    {substituteFor : Option String} (p q : Position) {cs : List Node} (h : cs ≠ []) :
    Node.branch symbol id collapsed substituteFor p cs =
      Node.branch symbol id collapsed substituteFor q cs := by
  cases cs with
  | nil => exact absurd rfl h
  | cons n rest =>
    have hlast : (n :: rest).getLast? = some ((n :: rest).getLast (by simp)) :=
      List.getLast?_eq_some_getLast _
    rw [Node.branch, Node.branch, Node.updateSpan, Node.updateSpan, hlast]
    rfl

/-- The place that a node would have without children does not matter to a node that has some. -/
theorem wrap_of_children (s : SymbolId) (p q : Position) {cs : List Node}
    (h : (wrap t shape s p cs).children ≠ []) : wrap t shape s p cs = wrap t shape s q cs := by
  rw [children_wrap] at h
  exact branch_position p q h

theorem wrap_position (s : SymbolId) (p q : Position) {cs : List Node} (h : leavesOf cs ≠ []) :
    wrap t shape s p cs = wrap t shape s q cs := by
  refine wrap_of_children s p q fun hnil => h ?_
  rw [← @leavesOf_wrap t shape s p cs, leavesOf_inner (isLeaf_wrap s p cs), hnil, Node.leavesOf_nil]

/-- The place of a node with leaves is that of its first leaf. -/
theorem ruleNode_position (rule : RuleId) (p q : Position) {cs : List Node}
    (h : leavesOf cs ≠ []) : ruleNode t shape rule p cs = ruleNode t shape rule q cs := by
  rw [ruleNode, ruleNode]
  split
  · exact wrap_position _ p q h
  · split
    · rw [wrap_position _ p q h]
    · exact wrap_position _ p q h

/-! ### The row -/

theorem between_eq (nodes : Array Node) (start stop : Nat) :
    between nodes start stop = (nodes.toList.take stop).drop start := by
  rw [between, Array.toList_extract, List.extract_eq_take_drop, List.drop_take]

theorem toList_close (nodes : Array Node) (frame : OpenRule) :
    (close t shape nodes frame).toList = nodes.toList.take frame.base ++
      [ruleNode t shape frame.rule frame.position (nodes.toList.drop frame.base)] := by
  rw [close, between_eq, ← Array.length_toList, List.take_length]
  simp

theorem leavesOf_close (nodes : Array Node) (frame : OpenRule) :
    leavesOf (close t shape nodes frame).toList = leavesOf nodes.toList := by
  rw [toList_close, leavesOf_append, leavesOf_ruleNode, ← leavesOf_append, List.take_append_drop]

theorem structuralEnd_le (nodes : Array Node) : ∀ n, structuralEnd nodes n ≤ n
  | 0 => Nat.le_refl 0
  | n + 1 => by
    rw [structuralEnd]
    split
    · exact Nat.le_refl _
    · exact Nat.le_succ_of_le (structuralEnd_le nodes n)

theorem structuralStart_le (nodes : Array Node) : ∀ count n, structuralStart nodes count n ≤ n
  | _, 0 => by simp [structuralStart]
  | 0, n + 1 => by simp [structuralStart]
  | count + 1, n + 1 => by
    rw [structuralStart]
    split
    · exact Nat.le_succ_of_le (structuralStart_le nodes count n)
    · exact Nat.le_succ_of_le (structuralStart_le nodes (count + 1) n)

/-- A reduction puts one node in the place of a stretch of the row. -/
theorem toList_reduce (rule : RuleId) (p : Position) (nodes : Array Node) :
    ∃ start stop, start ≤ stop ∧ stop ≤ nodes.size ∧
      (reduce t shape rule p nodes).toList = nodes.toList.take start ++
        [ruleNode t shape rule p ((nodes.toList.take stop).drop start)] ++
        nodes.toList.drop stop := by
  rw [reduce]
  split
  · refine ⟨nodes.size, nodes.size, Nat.le_refl _, Nat.le_refl _, ?_⟩
    simp [← Array.length_toList]
  · refine ⟨_, _, structuralStart_le nodes ((t.rule? rule).elim 0 fun r => r.rhs.length) _,
      structuralEnd_le nodes nodes.size, ?_⟩
    dsimp only
    rw [between_eq, between_eq, ← Array.length_toList, List.take_length]
    simp

theorem leavesOf_reduce (rule : RuleId) (p : Position) (nodes : Array Node) :
    leavesOf (reduce t shape rule p nodes).toList = leavesOf nodes.toList := by
  obtain ⟨start, stop, hle, -, heq⟩ := @toList_reduce t shape rule p nodes
  rw [heq, leavesOf_append, leavesOf_append, leavesOf_ruleNode, ← leavesOf_append]
  have htake : nodes.toList.take start = (nodes.toList.take stop).take start := by
    rw [List.take_take, Nat.min_eq_left hle]
  rw [htake, List.take_append_drop, ← leavesOf_append, List.take_append_drop]

/-! ### Events -/

/-- The leaf that an event adds. -/
def leafOf (t : Tables) (shape : Shape) : Event → List Node
  | .terminal tok | .shift tok => [leaf t shape tok]
  | .error e => [errorLeaf t e]
  | _ => []

/-- An event with a leaf puts it at the end of the row. -/
theorem feed_leaf {ev : Event} {n : Node} (h : leafOf t shape ev = [n]) (b : Builder) :
    (feed t shape b ev).frames = b.frames ∧
      (feed t shape b ev).nodes.toList = b.nodes.toList ++ [n] := by
  cases ev with
  | initial | nonTerminal | endNonTerminal | reduce | accept | endDocument => cases h
  | terminal tok | shift tok =>
    rw [← h, feed, Array.toList_push]
    exact ⟨rfl, rfl⟩
  | error e =>
    rw [← h, feed, Array.toList_push]
    exact ⟨rfl, rfl⟩

theorem leavesOf_leafOf (e : Event) : leavesOf (leafOf t shape e) = leafOf t shape e := by
  have hleaf : ∀ l : Label, l.value.isSome = true → leavesOf [.mk l []] = [.mk l []] := by
    intro l hl
    rw [leavesOf_leaf (n := .mk l []) hl]
    simp [Node.children]
  cases e with
  | terminal tok => exact hleaf _ rfl
  | shift tok => exact hleaf _ rfl
  | error e => exact hleaf _ rfl
  | initial | nonTerminal | endNonTerminal | reduce | accept | endDocument => rfl

/-- An event adds its leaf and keeps all others. -/
theorem leavesOf_feed (b : Builder) (e : Event) :
    leavesOf (feed t shape b e).nodes.toList = leavesOf b.nodes.toList ++ leafOf t shape e := by
  cases e with
  | initial | accept | endDocument | nonTerminal => simp [feed, leafOf]
  | terminal tok =>
    rw [← leavesOf_leafOf (.terminal tok), feed, Array.toList_push, leavesOf_append]; rfl
  | shift tok => rw [← leavesOf_leafOf (.shift tok), feed, Array.toList_push, leavesOf_append]; rfl
  | error e => rw [← leavesOf_leafOf (.error e), feed, Array.toList_push, leavesOf_append]; rfl
  | endNonTerminal rule =>
    rw [feed]
    split
    · simp [leafOf]
    · rw [leavesOf_close]
      simp [leafOf]
  | reduce rule =>
    rw [feed, leavesOf_reduce]
    simp [leafOf]

theorem leavesOf_foldl_feed (events : List Event) (b : Builder) :
    leavesOf (events.foldl (feed t shape) b).nodes.toList =
      leavesOf b.nodes.toList ++ events.flatMap (leafOf t shape) := by
  induction events generalizing b with
  | nil => simp
  | cons e events ih =>
    rw [List.foldl_cons, ih, leavesOf_feed, List.flatMap_cons, List.append_assoc]

theorem leavesOf_foldl_close (frames : List OpenRule) (nodes : Array Node) :
    leavesOf (frames.foldl (close t shape) nodes).toList = leavesOf nodes.toList := by
  induction frames generalizing nodes with
  | nil => rfl
  | cons frame frames ih => rw [List.foldl_cons, ih, leavesOf_close]

/-! ### The root -/

theorem leavesOf_root (p : Position) (nodes : List Node) :
    leavesOf [root t shape p nodes] = leavesOf nodes := by
  rw [root]
  split
  · next core after h =>
    have hnodes := Node.eq_of_dropWhile h
    split
    · exact leavesOf_wrap ..
    · next hcore =>
      rw [Bool.or_eq_true, not_or, Bool.not_eq_true, Bool.not_eq_true] at hcore
      split
      · next hboth =>
        rw [Bool.and_eq_true, List.isEmpty_iff, List.isEmpty_iff] at hboth
        rw [hboth.1, hboth.2] at hnodes
        rw [hnodes]
        rfl
      · have hleaf :
            (absorb core (nodes.takeWhile fun n => !n.isStructural) after).isLeaf = false := by
          rw [absorb, Node.isLeaf_updateSpan]
          exact hcore.1
        rw [leavesOf_inner hleaf, absorb, Node.children_updateSpan, Node.children, leavesOf_append,
          leavesOf_append, ← leavesOf_inner hcore.1, ← leavesOf_append, ← leavesOf_append, ← hnodes]
  · exact leavesOf_wrap ..

/-- The tree of a row has the leaves of the row; without a tree there are none. -/
theorem leavesOf_finish (p : Position) (nodes : List Node) :
    leavesOf (finish t shape p nodes).toList = leavesOf nodes := by
  have hroot := @leavesOf_root t shape p nodes
  cases nodes with
  | nil => rfl
  | cons n rest =>
    rw [finish.eq_2 _ _ _ _ (by simp)]
    split
    · next h =>
      rw [Bool.and_eq_true, List.isEmpty_iff, Bool.not_eq_true'] at h
      rw [← hroot, leavesOf_inner h.2, h.1]
      rfl
    · exact hroot

/-- The leaves of a tree are those that the events add, in order. -/
theorem leavesOf_build (events : List Event) :
    leavesOf (build t shape events).toList = events.flatMap (leafOf t shape) := by
  rw [build, leavesOf_finish, leavesOf_foldl_close, leavesOf_foldl_feed]
  rfl

/-- Where no error is reported, the leaves are those of the tokens. -/
theorem flatMap_leafOf {events : List Event} (hok : ∀ ev ∈ events, ev.error? = none) :
    events.flatMap (leafOf t shape) = (events.filterMap Event.token?).map (leaf t shape) := by
  induction events with
  | nil => rfl
  | cons ev events ih =>
    rw [List.forall_mem_cons] at hok
    rw [List.flatMap_cons, ih hok.2]
    cases ev with
    | error e => cases hok.1
    | initial | terminal | nonTerminal | endNonTerminal | shift | reduce | accept | endDocument =>
      rfl

/-! ### The trees of the row -/

theorem isLeaf_of_leafOf {ev : Event} {n : Node} (h : n ∈ leafOf t shape ev) :
    n.isLeaf = true ∧ n.children = [] := by
  cases ev with
  | initial | nonTerminal | endNonTerminal | reduce | accept | endDocument => cases h
  | terminal tok | shift tok =>
    obtain rfl := List.mem_singleton.1 h
    exact ⟨rfl, rfl⟩
  | error e =>
    obtain rfl := List.mem_singleton.1 h
    exact ⟨rfl, rfl⟩

section Row

variable {P : Node → Prop}
  (hnode : ∀ rule p cs, (∀ c ∈ cs, P c) → P (ruleNode t shape rule p cs))

include hnode

theorem forall_close {nodes : Array Node} (frame : OpenRule) (h : ∀ n ∈ nodes.toList, P n) :
    ∀ n ∈ (close t shape nodes frame).toList, P n := by
  rw [toList_close, List.forall_mem_append, List.forall_mem_singleton]
  exact ⟨fun n hn => h n (List.mem_of_mem_take hn), hnode _ _ _ fun c hc =>
    h c (List.mem_of_mem_drop hc)⟩

theorem forall_reduce {nodes : Array Node} (rule : RuleId) (p : Position)
    (h : ∀ n ∈ nodes.toList, P n) :
    ∀ n ∈ (reduce t shape rule p nodes).toList, P n := by
  obtain ⟨start, stop, -, -, heq⟩ := @toList_reduce t shape rule p nodes
  rw [heq, List.forall_mem_append, List.forall_mem_append, List.forall_mem_singleton]
  refine ⟨⟨fun n hn => h n (List.mem_of_mem_take hn), hnode _ _ _ fun c hc => ?_⟩,
    fun n hn => h n (List.mem_of_mem_drop hn)⟩
  exact h c (List.mem_of_mem_take (List.mem_of_mem_drop hc))

variable (hleaf : ∀ ev, ∀ n ∈ leafOf t shape ev, P n)

include hleaf

theorem forall_feed {b : Builder} (ev : Event) (h : ∀ n ∈ b.nodes.toList, P n) :
    ∀ n ∈ (feed t shape b ev).nodes.toList, P n := by
  have hpush : ∀ n, leafOf t shape ev = [n] → ∀ m ∈ (feed t shape b ev).nodes.toList, P m := by
    intro n hn
    rw [(feed_leaf hn b).2, List.forall_mem_append, List.forall_mem_singleton]
    exact ⟨h, hleaf ev n (by rw [hn]; exact List.mem_singleton_self n)⟩
  cases ev with
  | initial | accept | endDocument | nonTerminal => exact h
  | terminal | shift | error => exact hpush _ rfl
  | endNonTerminal rule =>
    rw [feed]
    split
    · exact h
    · exact forall_close hnode _ h
  | reduce rule => exact forall_reduce hnode rule b.last h

/-- What holds of the leaves of events, and of the node of a rule over trees of which it holds,
holds of every tree of the row. -/
theorem forall_row (events : List Event) :
    ∀ n ∈ ((events.foldl (feed t shape) {}).frames.foldl (close t shape)
      (events.foldl (feed t shape) {}).nodes).toList, P n := by
  have hfeed : ∀ b : Builder, (∀ n ∈ b.nodes.toList, P n) →
      ∀ n ∈ (events.foldl (feed t shape) b).nodes.toList, P n := by
    induction events with
    | nil => exact fun b h => h
    | cons ev events ih => exact fun b h => ih _ (forall_feed hnode hleaf ev h)
  have hclose : ∀ (frames : List OpenRule) (nodes : Array Node), (∀ n ∈ nodes.toList, P n) →
      ∀ n ∈ (frames.foldl (close t shape) nodes).toList, P n := by
    intro frames
    induction frames with
    | nil => exact fun nodes h => h
    | cons frame frames ih => exact fun nodes h => ih _ (forall_close hnode frame h)
  exact hclose _ _ (hfeed {} (List.forall_mem_nil _))

end Row

/-! ### Errors -/

/-- No inner node is an error. -/
def Blameless (ns : List Node) : Prop :=
  ∀ m ∈ Node.preorderAll ns, m.isLeaf = false → m.label.error = false

theorem blameless_nil : Blameless [] := Node.allInner_nil

theorem blameless_append {a b : List Node} : Blameless (a ++ b) ↔ Blameless a ∧ Blameless b :=
  Node.allInner_append

theorem blameless_singleton {n : Node} :
    Blameless [n] ↔ (n.isLeaf = false → n.label.error = false) ∧ Blameless n.children :=
  Node.allInner_singleton

theorem blameless_iff_forall {ns : List Node} : Blameless ns ↔ ∀ n ∈ ns, Blameless [n] := by
  induction ns with
  | nil => exact iff_of_true blameless_nil (List.forall_mem_nil _)
  | cons n ns ih =>
    rw [← List.singleton_append, blameless_append, ih, List.forall_mem_append,
      List.forall_mem_singleton]

theorem blameless_splice {children : List Node} (h : Blameless children) :
    Blameless (splice children) := by
  rw [splice_eq_flatMap]
  induction children with
  | nil => exact blameless_nil
  | cons n rest ih =>
    rw [← List.singleton_append, blameless_append] at h
    rw [List.flatMap_cons, blameless_append]
    refine ⟨?_, ih h.2⟩
    split
    · exact (blameless_singleton.1 h.1).2
    · exact h.1

theorem error_wrap (s : SymbolId) (p : Position) (cs : List Node) :
    (wrap t shape s p cs).label.error = false := Node.error_branch ..

theorem blameless_wrap {s : SymbolId} {p : Position} {cs : List Node} (h : Blameless cs) :
    Blameless [wrap t shape s p cs] := by
  rw [blameless_singleton, children_wrap]
  refine ⟨fun _ => error_wrap s p cs, ?_⟩
  split
  · exact blameless_splice h
  · exact h

theorem blameless_ruleNode {rule : RuleId} {p : Position} {cs : List Node} (h : Blameless cs) :
    Blameless [ruleNode t shape rule p cs] := by
  rw [ruleNode]
  split
  · exact blameless_wrap h
  · split
    · split
      · exact h
      · exact blameless_wrap h
    · exact blameless_wrap h

theorem blameless_root {p : Position} {nodes : List Node} (h : Blameless nodes) :
    Blameless [root t shape p nodes] := by
  rw [root]
  split
  · next core after hdrop =>
    split
    · exact blameless_wrap h
    · rw [Node.eq_of_dropWhile hdrop, blameless_append, blameless_append, blameless_singleton] at h
      obtain ⟨⟨hbefore, hcore, hchildren⟩, hafter⟩ := h
      split
      · exact blameless_singleton.2 ⟨hcore, hchildren⟩
      · rw [blameless_singleton, absorb, Node.isLeaf_updateSpan, Node.error_updateSpan,
          Node.children_updateSpan]
        exact ⟨hcore, blameless_append.2 ⟨blameless_append.2 ⟨hbefore, hchildren⟩, hafter⟩⟩
  · exact blameless_wrap h

/-- No inner node of a tree is an error. -/
theorem blameless_build (events : List Event) : Blameless (build t shape events).toList := by
  have hleaf : ∀ ev, ∀ n ∈ leafOf t shape ev, Blameless [n] := fun ev n hn => by
    rw [blameless_singleton, (isLeaf_of_leafOf hn).1, (isLeaf_of_leafOf hn).2]
    exact ⟨fun h => absurd h (by simp), blameless_nil⟩
  have hnode : ∀ rule p cs, (∀ n ∈ cs, Blameless [n]) → Blameless [ruleNode t shape rule p cs] :=
    fun _ _ _ h => blameless_ruleNode (blameless_iff_forall.2 h)
  have hrow := forall_row (P := fun n => Blameless [n]) hnode hleaf events
  rw [← blameless_iff_forall] at hrow
  rw [build]
  revert hrow
  generalize (List.foldl (close t shape) _ _).toList = nodes
  intro hrow
  cases nodes with
  | nil => exact blameless_nil
  | cons n rest =>
    rw [finish.eq_2 _ _ _ _ (by simp)]
    split
    · exact blameless_nil
    · exact blameless_root hrow

/-- A tree has no errors if no event reports one, as an error or as a token. -/
theorem hasErrors_build {events : List Event} {n : Node} (h : build t shape events = some n)
    (hok : ∀ ev ∈ events, ev.error? = none ∧ ∀ tok ∈ ev.token?, tok.symbol ≠ t.error) :
    n.hasErrors = false := by
  rw [Node.hasErrors, Node.firstIn_eq, Option.isSome_eq_false_iff, Option.isNone_iff_eq_none,
    List.find?_eq_none]
  intro m hm herror
  have hblame := @blameless_build t shape events
  have hleaves := @leavesOf_build t shape events
  rw [h, Option.toList_some] at hblame hleaves
  cases hl : m.isLeaf with
  | false => rw [hblame m hm hl] at herror; cases herror
  | true =>
    have hmem : m ∈ events.flatMap (leafOf t shape) := by
      rw [← hleaves, leavesOf, List.mem_filter]
      exact ⟨hm, hl⟩
    obtain ⟨ev, hev, hm⟩ := List.mem_flatMap.1 hmem
    obtain ⟨hnot, htok⟩ := hok ev hev
    cases ev with
    | initial | nonTerminal | endNonTerminal | reduce | accept | endDocument => cases hm
    | error e => cases hnot
    | terminal tok | shift tok =>
      rw [leafOf, List.mem_singleton] at hm
      subst hm
      exact htok tok rfl (of_decide_eq_true herror)

end Builder

/-! ### Whole documents -/

/-- Parsing that reads a document to its end collects the events before the end and builds their
tree. -/
theorem Engine.parse_ended {t : Tables} {shape : Shape} {e : Engine}
    (h : (e.parse t shape).2.ended = true) :
    ∃ n, EndsAfter t n e ∧ (e.run t).1 = e.events t n ∧
      (e.parse t shape).1 = Builder.build t shape (e.events t n) := by
  -- the run is named before the pair is taken apart, or the limit would be counted down
  obtain ⟨run, hrun⟩ : ∃ run, e.run t = run := ⟨_, rfl⟩
  rw [parse, hrun] at h
  obtain ⟨n, hn, hevents⟩ := run_ended (t := t) (e := e) (by rw [hrun]; exact h)
  exact ⟨n, hn, by rw [hevents], by rw [parse, hevents]⟩

end TableParser
