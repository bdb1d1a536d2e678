import TableParser.Proofs.Tree.Spelling
/-!
Trees seen in part.

A view leaves out some hidden leaves and reads the labels of the other nodes in part: it may not see
the place of an inner node, but it sees all that the builder decides by. So every operation of the
builder can be carried out on what is seen of its row. A reduction counts structural trees back from
the end, and leaves that are left out are not among them:

    row       Scalar  ·blank·  Specifier  ·blank·  Value  ·comment·
    seen      Scalar           Specifier           Value

Only a rule of one symbol looks at the number of trees that it has taken, so these have to be seen
in full.

Main statements: `View.row_ruleNode`, `View.row_reduce` and `View.agree_finish`.
-/

namespace TableParser

/-! ### What a reduction takes -/

namespace Builder

/-- The first `count` structural trees of a row with all that is before and between them, and the
rest of the row. A row is counted from its end, so it is given with the last tree first. -/
def takeBack : (count : Nat) → List Node → List Node × List Node
  | 0, ns => ([], ns)
  | _ + 1, [] => ([], [])
  | count + 1, n :: ns =>
    let r := takeBack (if n.isStructural then count else count + 1) ns
    (n :: r.1, r.2)

variable {t : Tables} {shape : Shape} {nodes : Array Node}

theorem takeBack_zero (ns : List Node) : takeBack 0 ns = ([], ns) := by rw [takeBack]

theorem takeBack_append (count : Nat) (ns : List Node) :
    (takeBack count ns).1 ++ (takeBack count ns).2 = ns := by
  fun_induction takeBack count ns with
  | case1 | case2 => rfl
  | case3 count n ns r ih => rw [List.cons_append, ih]

theorem take_succ_reverse {α : Type} (l : List α) (n : Nat) :
    (l.take (n + 1)).reverse = l[n]?.toList ++ (l.take n).reverse := by
  rw [List.take_add_one, List.reverse_append]
  cases l[n]? <;> rfl

/-- The trees after the last structural one are left out. -/
theorem take_structuralEnd (nodes : Array Node) (n : Nat) :
    (nodes.toList.take (structuralEnd nodes n)).reverse =
      (nodes.toList.take n).reverse.dropWhile fun n => !n.isStructural := by
  induction n with
  | zero => rfl
  | succ n ih =>
    rw [structuralEnd, take_succ_reverse, Array.getElem?_toList]
    cases hn : nodes[n]? with
    | none => exact ih
    | some last =>
      rw [Option.any_some, Option.toList_some, List.singleton_append, List.dropWhile_cons]
      cases hs : last.isStructural with
      | true =>
        rw [if_pos rfl, take_succ_reverse, Array.getElem?_toList, hn]
        rfl
      | false => exact ih

/-- What is counted back to is what is left after the counted trees. -/
theorem take_structuralStart (nodes : Array Node) (count n : Nat) :
    (nodes.toList.take (structuralStart nodes count n)).reverse =
      (takeBack count (nodes.toList.take n).reverse).2 := by
  induction n generalizing count with
  | zero => cases count <;> rfl
  | succ n ih =>
    cases count with
    | zero => rw [takeBack_zero]; rfl
    | succ count =>
      rw [structuralStart, take_succ_reverse, Array.getElem?_toList]
      cases hn : nodes[n]? with
      | none => exact ih (count + 1)
      | some last =>
        rw [Option.any_some, Option.toList_some, List.singleton_append, takeBack]
        cases hs : last.isStructural with
        | true => exact ih count
        | false => exact ih (count + 1)

/-- A reduction by a rule that is not empty, said of the row with its last tree first. -/
theorem toList_reduce_eq {rule : RuleId} {count : Nat} {taken left : List Node} (p : Position)
    (hcount : ((t.rule? rule).elim 0 fun r => r.rhs.length) = count + 1)
    (hback : takeBack (count + 1) (nodes.toList.reverse.dropWhile fun n => !n.isStructural) =
      (taken, left)) :
    (reduce t shape rule p nodes).toList =
      left.reverse ++ [ruleNode t shape rule p taken.reverse] ++
        (nodes.toList.reverse.takeWhile fun n => !n.isStructural).reverse := by
  obtain ⟨stop, hstop⟩ : ∃ stop, structuralEnd nodes nodes.size = stop := ⟨_, rfl⟩
  obtain ⟨start, hstart⟩ : ∃ start, structuralStart nodes (count + 1) stop = start := ⟨_, rfl⟩
  have hend := take_structuralEnd nodes nodes.size
  rw [hstop, ← Array.length_toList, List.take_length] at hend
  have hleft : (nodes.toList.take start).reverse = left := by
    rw [← hstart, take_structuralStart, hend, hback]
  -- the row is cut where the last structural tree ends
  have hafter : (nodes.toList.drop stop).reverse =
      nodes.toList.reverse.takeWhile fun n => !n.isStructural := by
    have hsplit := List.takeWhile_append_dropWhile (p := fun n : Node => !n.isStructural)
      (l := nodes.toList.reverse)
    have hcut : nodes.toList.reverse =
        (nodes.toList.drop stop).reverse ++ (nodes.toList.take stop).reverse := by
      rw [← List.reverse_append, List.take_append_drop]
    rw [← hend] at hsplit
    exact (List.append_cancel_right (hsplit.trans hcut)).symm
  -- and again where the counted trees start
  have htaken : ((nodes.toList.take stop).drop start).reverse = taken := by
    have happend : taken ++ left = (nodes.toList.take stop).reverse := by
      rw [hend, ← takeBack_append (count + 1) (nodes.toList.reverse.dropWhile _), hback]
    have htake : nodes.toList.take start = (nodes.toList.take stop).take start := by
      rw [List.take_take, Nat.min_eq_left (hstart ▸ structuralStart_le nodes (count + 1) stop)]
    have hcancel : ((nodes.toList.take stop).drop start).reverse ++ left = taken ++ left := by
      rw [happend, ← hleft, ← List.reverse_append, htake, List.take_append_drop]
    exact List.append_cancel_right hcancel
  rw [← hafter, ← htaken, ← hleft, reduce]
  simp only [hcount, hstop, hstart, between_eq]
  rw [← Array.length_toList, List.take_length]
  simp

end Builder

/-! ### Views -/

/-- A way to look at trees. -/
structure View where
  /-- Whether a node is left out, with all that is below it. -/
  omits : Label → Bool
  /-- What is seen of a label. -/
  read : Label → Label
  omits_hidden : ∀ l, omits l = true → l.hidden = true
  omits_leaf : ∀ l, omits l = true → l.value.isSome = true
  read_hidden : ∀ l, (read l).hidden = l.hidden
  read_error : ∀ l, (read l).error = l.error
  read_collapsed : ∀ l, (read l).collapsed = l.collapsed
  read_isSome : ∀ l, (read l).value.isSome = l.value.isSome
  /-- The place of an inner node is not seen. -/
  read_inner : ∀ l position length, l.value = none → read { l with position, length } = read l

namespace View

variable {v : View} {n : Node} {ns ns' cs cs' : List Node}

mutual

/-- What is seen of a tree. -/
def node (v : View) : Node → List Node
  | .mk l cs => if v.omits l then [] else [.mk (v.read l) (v.row cs)]

/-- What is seen of several trees. -/
def row (v : View) : List Node → List Node
  | [] => []
  | n :: rest => v.node n ++ v.row rest

end

/-- No tree of a row is left out. -/
def Keeps (v : View) (ns : List Node) : Prop :=
  ∀ n ∈ ns, v.omits n.label = false

/-! ### Single trees -/

/-- What is seen of a tree that is not left out. -/
def seen (v : View) (n : Node) : Node :=
  .mk (v.read n.label) (v.row n.children)

theorem node_kept (h : v.omits n.label = false) : v.node n = [v.seen n] := by
  cases n with
  | mk l cs => rw [node, show v.omits l = false from h]; rfl

theorem node_omitted (h : v.omits n.label = true) : v.node n = [] := by
  cases n with
  | mk l cs => rw [node, show v.omits l = true from h]; rfl

@[simp] theorem children_seen : (v.seen n).children = v.row n.children := rfl

@[simp] theorem isLeaf_seen : (v.seen n).isLeaf = n.isLeaf := v.read_isSome _

@[simp] theorem isStructural_seen : (v.seen n).isStructural = n.isStructural := by
  rw [Node.isStructural, Node.isStructural, seen, Node.label, v.read_hidden, v.read_error]

@[simp] theorem dissolves_seen : Builder.dissolves (v.seen n) = Builder.dissolves n := by
  rw [Builder.dissolves, Builder.dissolves, isLeaf_seen, seen, Node.label, v.read_collapsed]

@[simp] theorem isPromoted_seen : Builder.isPromoted (v.seen n) = Builder.isPromoted n := by
  rw [Builder.isPromoted, Builder.isPromoted, isLeaf_seen, seen, Node.label, v.read_collapsed]

/-- An inner node is not left out. -/
theorem omits_inner (h : n.isLeaf = false) : v.omits n.label = false := by
  refine Bool.eq_false_iff.2 fun ho => ?_
  rw [Node.isLeaf, v.omits_leaf _ ho] at h
  cases h

/-- A tree that counts in the derivation is not left out. -/
theorem omits_structural (h : n.isStructural = true) : v.omits n.label = false := by
  refine Bool.eq_false_iff.2 fun ho => ?_
  rw [Node.isStructural, v.omits_hidden _ ho] at h
  cases h

theorem seen_updateSpan (h : n.isLeaf = false) : v.seen n.updateSpan = v.seen n := by
  have hvalue : n.label.value = none := by simpa [Node.isLeaf] using h
  rw [seen, Node.children_updateSpan, seen]
  congr 1
  cases n with
  | mk l cs =>
    rw [Node.updateSpan]
    split
    · exact v.read_inner l _ _ hvalue
    · rfl

/-! ### Rows -/

@[simp] theorem row_nil : v.row [] = [] := by rw [row]

theorem row_cons (n : Node) (rest : List Node) : v.row (n :: rest) = v.node n ++ v.row rest := by
  rw [row]

theorem row_singleton (n : Node) : v.row [n] = v.node n := by
  rw [row_cons, row_nil, List.append_nil]

theorem row_cons_kept {rest : List Node} (h : v.omits n.label = false) :
    v.row (n :: rest) = v.seen n :: v.row rest := by
  rw [row_cons, node_kept h]
  rfl

theorem row_cons_omitted {rest : List Node} (h : v.omits n.label = true) :
    v.row (n :: rest) = v.row rest := by
  rw [row_cons, node_omitted h]
  rfl

@[simp] theorem row_append (a b : List Node) : v.row (a ++ b) = v.row a ++ v.row b := by
  induction a with
  | nil => rw [row_nil]; rfl
  | cons n a ih => rw [List.cons_append, row_cons, ih, row_cons, List.append_assoc]

theorem row_reverse (ns : List Node) : v.row ns.reverse = (v.row ns).reverse := by
  induction ns with
  | nil => rw [row_nil]; rfl
  | cons n ns ih =>
    rw [List.reverse_cons, row_append, ih, row_singleton, row_cons, List.reverse_append]
    congr 1
    cases h : v.omits n.label with
    | true => rw [node_omitted h]; rfl
    | false => rw [node_kept h]; rfl

theorem keeps_nil : v.Keeps [] := by simp [Keeps]

theorem keeps_append {a b : List Node} : v.Keeps (a ++ b) ↔ v.Keeps a ∧ v.Keeps b :=
  List.forall_mem_append

theorem keeps_singleton : v.Keeps [n] ↔ v.omits n.label = false := List.forall_mem_singleton

theorem row_keeps (h : v.Keeps ns) : v.row ns = ns.map v.seen := by
  induction ns with
  | nil => rw [row_nil]; rfl
  | cons n ns ih =>
    rw [Keeps, List.forall_mem_cons] at h
    rw [row_cons_kept h.1, ih h.2, List.map_cons]

/-- Whether a tree counts in the derivation is seen, and no such tree is left out. -/
theorem row_takeWhile (ns : List Node) : v.row (ns.takeWhile fun n => !n.isStructural) =
    (v.row ns).takeWhile fun n => !n.isStructural := by
  induction ns with
  | nil => rfl
  | cons n ns ih =>
    cases hs : n.isStructural with
    | true =>
      rw [row_cons_kept (omits_structural hs), List.takeWhile_cons, List.takeWhile_cons,
        isStructural_seen, hs]
      rfl
    | false =>
      rw [List.takeWhile_cons, hs, Bool.not_false, if_pos rfl]
      cases ho : v.omits n.label with
      | true => rw [row_cons_omitted ho, row_cons_omitted ho, ih]
      | false =>
        rw [row_cons_kept ho, row_cons_kept ho, List.takeWhile_cons, isStructural_seen, hs,
          Bool.not_false, if_pos rfl, ih]

theorem row_dropWhile (ns : List Node) : v.row (ns.dropWhile fun n => !n.isStructural) =
    (v.row ns).dropWhile fun n => !n.isStructural := by
  have h :=
    v.row_append (ns.takeWhile fun n => !n.isStructural) (ns.dropWhile fun n => !n.isStructural)
  rw [List.takeWhile_append_dropWhile, row_takeWhile] at h
  have hsplit :=
    List.takeWhile_append_dropWhile (p := fun n : Node => !n.isStructural) (l := v.row ns)
  exact List.append_cancel_left (h.symm.trans hsplit.symm)

/-- Counting back over what is seen. -/
theorem takeBack_row (count : Nat) (ns : List Node) : Builder.takeBack count (v.row ns) =
    (v.row (Builder.takeBack count ns).1, v.row (Builder.takeBack count ns).2) := by
  induction ns generalizing count with
  | nil => cases count <;> simp [Builder.takeBack]
  | cons n ns ih =>
    cases count with
    | zero => rw [Builder.takeBack_zero, Builder.takeBack_zero, row_nil]
    | succ count =>
      rw [Builder.takeBack]
      cases ho : v.omits n.label with
      | true =>
        have hs : n.isStructural = false := by rw [Node.isStructural, v.omits_hidden _ ho]; rfl
        rw [row_cons_omitted ho, hs, if_neg Bool.false_ne_true, ih]
        dsimp only
        rw [row_cons_omitted ho]
      | false =>
        rw [row_cons_kept ho, Builder.takeBack, isStructural_seen, ih]
        dsimp only
        rw [row_cons_kept ho]

/-! ### Nodes of rules -/

/-- Splicing and looking can be done in any order. -/
theorem row_splice (cs : List Node) : v.row (Builder.splice cs) = Builder.splice (v.row cs) := by
  rw [Builder.splice_eq_flatMap, Builder.splice_eq_flatMap]
  induction cs with
  | nil => simp
  | cons n cs ih =>
    rw [List.flatMap_cons, row_append, ih]
    cases ho : v.omits n.label with
    | true =>
      have hnot : Builder.dissolves n = false := by
        rw [Builder.dissolves, Node.isLeaf, v.omits_leaf _ ho, Bool.not_true, Bool.and_false]
      rw [hnot, if_neg Bool.false_ne_true, row_singleton, node_omitted ho, row_cons_omitted ho]
      rfl
    | false =>
      rw [row_cons_kept ho, List.flatMap_cons, dissolves_seen]
      split
      · rw [children_seen]
      · rw [row_singleton, node_kept ho]

variable {t : Tables} {shape : Shape} {p p' : Position}

/-- The node of a symbol looks the same wherever it stands, if its children do. -/
theorem row_wrap (s : SymbolId) (h : v.row cs = v.row cs') :
    v.row [Builder.wrap t shape s p cs] = v.row [Builder.wrap t shape s p' cs'] := by
  have hseen : ∀ (q : Position) (ns : List Node), v.seen (Builder.wrap t shape s q ns) =
      .mk (v.read { symbol := t.nameOf (Builder.substitute t shape s).1
                    id := (Builder.substitute t shape s).1
                    collapsed := Builder.isCollapsed t s
                    substituteFor := (Builder.substitute t shape s).2
                    position := .start
                    length := 0 })
        (v.row (if shape.transform then Builder.splice ns else ns)) := by
    intro q ns
    have hwrap : Builder.wrap t shape s q ns = Node.updateSpan (.mk
        { symbol := t.nameOf (Builder.substitute t shape s).1
          id := (Builder.substitute t shape s).1
          collapsed := Builder.isCollapsed t s
          substituteFor := (Builder.substitute t shape s).2
          position := q
          length := 0 }
        (if shape.transform then Builder.splice ns else ns)) := rfl
    rw [hwrap, seen_updateSpan rfl, seen, Node.label, Node.children]
    congr 1
    exact (v.read_inner _ .start 0 rfl).symm
  rw [row_singleton, row_singleton, node_kept (omits_inner (Builder.isLeaf_wrap ..)),
    node_kept (omits_inner (Builder.isLeaf_wrap ..)), hseen, hseen]
  split
  · rw [row_splice, row_splice, h]
  · rw [h]

/-- The node of a rule looks the same if its children do. A rule of one symbol has to see all of
them, as it may give way to a single child. -/
theorem row_ruleNode {rule : RuleId} (h : v.row cs = v.row cs')
    (hone : ∀ r, t.rule? rule = some r → r.rhs.length = 1 → v.Keeps cs ∧ v.Keeps cs') :
    v.row [Builder.ruleNode t shape rule p cs] = v.row [Builder.ruleNode t shape rule p' cs'] := by
  have hwrap : ∀ s, v.row [Builder.wrap t shape s p cs] = v.row [Builder.wrap t shape s p' cs'] :=
    fun s => row_wrap s h
  cases known : t.rule? rule with
  | none => simpa only [Builder.ruleNode, known] using hwrap t.start
  | some r =>
    by_cases hlen : r.rhs.length = 1
    · obtain ⟨hcs, hcs'⟩ := hone r known hlen
      rw [row_keeps hcs, row_keeps hcs'] at h
      simp only [Builder.ruleNode, known]
      -- as many children are seen as there are
      have hcount : cs.length = cs'.length := by simpa using congrArg List.length h
      rcases cs with - | ⟨only, - | ⟨second, rest⟩⟩ <;>
        rcases cs' with - | ⟨only', - | ⟨second', rest'⟩⟩
      case nil.nil | cons.cons.cons.cons => exact hwrap r.lhs
      case cons.nil.cons.nil =>
        rw [List.map_singleton, List.map_singleton, List.cons.injEq] at h
        have hpromoted : Builder.isPromoted only = Builder.isPromoted only' := by
          rw [← isPromoted_seen (v := v), h.1, isPromoted_seen]
        dsimp only
        rw [hpromoted]
        split
        · rw [row_keeps hcs, row_keeps hcs', List.map_singleton, List.map_singleton, h.1]
        · exact hwrap r.lhs
      all_goals simp at hcount
    · have hplain : ∀ (q : Position) (ns : List Node),
          Builder.ruleNode t shape rule q ns = Builder.wrap t shape r.lhs q ns := by
        intro q ns
        rw [Builder.ruleNode, known]
        dsimp only
        split
        · rw [decide_eq_false hlen, Bool.and_false, Bool.false_and, if_neg Bool.false_ne_true]
        · rfl
      rw [hplain, hplain]
      exact hwrap r.lhs

/-- The node of a rule is not left out, if a rule of one symbol sees its children. -/
theorem omits_ruleNode {rule : RuleId}
    (hone : ∀ r, t.rule? rule = some r → r.rhs.length = 1 → v.Keeps cs) :
    v.omits (Builder.ruleNode t shape rule p cs).label = false := by
  have hwrap : ∀ s, v.omits (Builder.wrap t shape s p cs).label = false :=
    fun s => omits_inner (Builder.isLeaf_wrap ..)
  rw [Builder.ruleNode]
  split
  · exact hwrap t.start
  · next r known =>
    split
    · next only =>
      split
      · next hpromoted =>
        simp only [Bool.and_eq_true, decide_eq_true_eq] at hpromoted
        exact hone r known hpromoted.1.2 only List.mem_cons_self
      · exact hwrap r.lhs
    · exact hwrap r.lhs

/-! ### The row of the builder -/

/-- Of the trees that count, the last one of a row is not left out. -/
theorem keeps_takeBack_one (ns : List Node) :
    v.Keeps (Builder.takeBack 1 (ns.dropWhile fun n => !n.isStructural)).1.reverse := by
  cases hback : ns.dropWhile fun n => !n.isStructural with
  | nil => simp [Builder.takeBack, Keeps]
  | cons n rest =>
    have hs := Node.structural_of_dropWhile hback
    rw [Builder.takeBack, hs, if_pos rfl, Builder.takeBack_zero]
    exact keeps_singleton.2 (omits_structural hs)

/-- Reductions of rows that look the same look the same. -/
theorem row_reduce {rule : RuleId} {nodes nodes' : Array Node}
    (h : v.row nodes.toList = v.row nodes'.toList) :
    v.row (Builder.reduce t shape rule p nodes).toList =
      v.row (Builder.reduce t shape rule p' nodes').toList := by
  cases hcount : (t.rule? rule).elim 0 fun r => r.rhs.length with
  | zero =>
    have hnode : v.row [Builder.ruleNode t shape rule p []] =
        v.row [Builder.ruleNode t shape rule p' []] :=
      row_ruleNode rfl fun _ _ _ => ⟨keeps_nil, keeps_nil⟩
    simp only [Builder.reduce, hcount, Array.toList_push, row_append, h, hnode]
  | succ count =>
    have hback : ∀ ns, v.row (ns.reverse.dropWhile fun n => !n.isStructural) =
        (v.row ns).reverse.dropWhile fun n => !n.isStructural := by
      intro ns
      rw [row_dropWhile, row_reverse]
    have hsame := takeBack_row (v := v) (count + 1)
      (nodes.toList.reverse.dropWhile fun n => !n.isStructural)
    rw [hback, h, ← hback, takeBack_row, Prod.mk.injEq] at hsame
    rw [Builder.toList_reduce_eq p hcount rfl, Builder.toList_reduce_eq p' hcount rfl,
      row_append, row_append, row_append, row_append, row_reverse, row_reverse, row_reverse,
      row_reverse, row_takeWhile, row_takeWhile, row_reverse, row_reverse, h, hsame.2]
    congr 2
    refine row_ruleNode (by rw [row_reverse, row_reverse, hsame.1]) fun r known hone => ?_
    rw [known, Option.elim_some, hone] at hcount
    rw [← hcount]
    exact ⟨keeps_takeBack_one _, keeps_takeBack_one _⟩

/-! ### The root -/

/-- Whether some tree counts in the derivation is seen. -/
theorem any_structural_row (ns : List Node) :
    (v.row ns).any Node.isStructural = ns.any Node.isStructural := by
  induction ns with
  | nil => rw [row_nil]
  | cons n ns ih =>
    cases ho : v.omits n.label with
    | true =>
      have hs : n.isStructural = false := by rw [Node.isStructural, v.omits_hidden _ ho]; rfl
      rw [row_cons_omitted ho, List.any_cons, hs, Bool.false_or, ih]
    | false => rw [row_cons_kept ho, List.any_cons, List.any_cons, isStructural_seen, ih]

/-- The first tree that counts is not left out. -/
theorem omits_of_dropWhile {rest : List Node}
    (h : (ns.dropWhile fun n => !n.isStructural) = n :: rest) :
    v.omits n.label = false :=
  omits_structural (Node.structural_of_dropWhile h)

/-- A root with the trees around it has all that is seen of them, whether it takes any in or not. -/
theorem row_absorb {core : Node} (hcore : core.isLeaf = false) (before after : List Node) :
    v.row [if before.isEmpty && after.isEmpty then core else Builder.absorb core before after] =
      [.mk (v.seen core).label (v.row before ++ (v.seen core).children ++ v.row after)] := by
  split
  · next hempty =>
    rw [Bool.and_eq_true, List.isEmpty_iff, List.isEmpty_iff] at hempty
    rw [hempty.1, hempty.2, row_singleton, node_kept (omits_inner hcore), row_nil, List.nil_append,
      List.append_nil]
    rfl
  · have hleaf : (Node.mk core.label (before ++ core.children ++ after)).isLeaf = false := hcore
    rw [row_singleton, Builder.absorb,
      node_kept (omits_inner (by rw [Node.isLeaf_updateSpan, hleaf])), seen_updateSpan hleaf, seen,
      Node.children, row_append, row_append]
    rfl

/-- The roots of rows that look the same look the same. -/
theorem row_root {nodes nodes' : List Node} (h : v.row nodes = v.row nodes') :
    v.row [Builder.root t shape p nodes] = v.row [Builder.root t shape p' nodes'] := by
  have hdrop := congrArg (List.dropWhile fun n => !n.isStructural) h
  have htake := congrArg (List.takeWhile fun n => !n.isStructural) h
  rw [← row_dropWhile, ← row_dropWhile] at hdrop
  rw [← row_takeWhile, ← row_takeWhile] at htake
  cases hns : nodes.dropWhile fun n => !n.isStructural with
  | nil =>
    cases hns' : nodes'.dropWhile fun n => !n.isStructural with
    | nil =>
      simp only [Builder.root, hns, hns']
      exact row_wrap t.start h
    | cons core' after' =>
      rw [hns, hns', row_cons_kept (omits_of_dropWhile hns'), row_nil] at hdrop
      cases hdrop
  | cons core after =>
    cases hns' : nodes'.dropWhile fun n => !n.isStructural with
    | nil =>
      rw [hns, hns', row_cons_kept (omits_of_dropWhile hns), row_nil] at hdrop
      cases hdrop
    | cons core' after' =>
      rw [hns, hns', row_cons_kept (omits_of_dropWhile hns),
        row_cons_kept (omits_of_dropWhile hns'), List.cons.injEq] at hdrop
      obtain ⟨hcore, hafter⟩ := hdrop
      have hleaf : core.isLeaf = core'.isLeaf := by
        rw [← isLeaf_seen (v := v), hcore, isLeaf_seen]
      simp only [Builder.root, hns, hns']
      rw [hleaf, ← any_structural_row (v := v) after, ← any_structural_row (v := v) after', hafter]
      split
      · exact row_wrap t.start h
      · next hinner =>
        rw [Bool.or_eq_true, not_or, Bool.not_eq_true] at hinner
        rw [row_absorb (hleaf.trans hinner.1), row_absorb hinner.1, htake, hcore, hafter]

/-- What is seen of two trees agrees: they look the same, and where one is missing nothing is seen
below the root of the other one. -/
structure Agree (v : View) (o o' : Option Node) : Prop where
  same : ∀ n ∈ o, ∀ n' ∈ o', v.row [n] = v.row [n']
  left : o = none → ∀ n' ∈ o', v.row n'.children = []
  right : o' = none → ∀ n ∈ o, v.row n.children = []

end View

namespace Builder

variable {t : Tables} {shape : Shape} {p : Position} {nodes : List Node} {n : Node}

/-- The root of a row is an inner node. -/
theorem isLeaf_root (p : Position) (nodes : List Node) : (root t shape p nodes).isLeaf = false := by
  rcases @root_cases t shape p nodes with
    ⟨-, before, core, after, -, hcore, -, -, ⟨-, -, hroot⟩ | hroot⟩ | ⟨-, hroot⟩
  · rw [hroot, hcore]
  · rw [hroot, absorb, Node.isLeaf_updateSpan]
    exact hcore
  · rw [hroot, isLeaf_wrap]

/-- A tree has something below its root. -/
theorem children_ne_nil_of_finish (h : finish t shape p nodes = some n) :
    n.isLeaf = false ∧ n.children ≠ [] := by
  have hroot := root_of_finish h
  have hleaf : n.isLeaf = false := by rw [hroot, isLeaf_root]
  refine ⟨hleaf, fun hnil => ?_⟩
  cases nodes with
  | nil => cases h
  | cons first rest =>
    rw [finish.eq_2 _ _ _ _ (by simp), ← hroot, hleaf, hnil] at h
    cases h

/-- There is no tree where nothing is below the root. -/
theorem children_root_of_finish (h : finish t shape p nodes = none) :
    (root t shape p nodes).children = [] := by
  cases nodes with
  | nil =>
    simp only [root, List.dropWhile_nil]
    rw [children_wrap]
    split <;> rfl
  | cons first rest =>
    rw [finish.eq_2 _ _ _ _ (by simp), isLeaf_root, Bool.not_false, Bool.and_true] at h
    split at h
    · next hempty => exact List.isEmpty_iff.1 hempty
    · cases h

end Builder

namespace View

variable {v : View} {t : Tables} {shape : Shape}

theorem row_children_eq {n n' : Node} (hn : n.isLeaf = false) (hn' : n'.isLeaf = false)
    (h : v.row [n] = v.row [n']) : v.row n.children = v.row n'.children := by
  rw [row_singleton, row_singleton, node_kept (omits_inner hn), node_kept (omits_inner hn'),
    List.cons.injEq] at h
  rw [← children_seen, ← children_seen, h.1]

/-- The trees of rows that look the same agree. -/
theorem agree_finish {nodes nodes' : List Node} (p p' : Position) (h : v.row nodes = v.row nodes') :
    v.Agree (Builder.finish t shape p nodes) (Builder.finish t shape p' nodes') := by
  have hroot : v.row [Builder.root t shape p nodes] = v.row [Builder.root t shape p' nodes'] :=
    row_root h
  have hchildren :=
    row_children_eq (Builder.isLeaf_root p nodes) (Builder.isLeaf_root p' nodes') hroot
  constructor
  · intro n hn n' hn'
    rw [Builder.root_of_finish hn, Builder.root_of_finish hn', hroot]
  · intro hnone n' hn'
    rw [Builder.root_of_finish hn', ← hchildren, Builder.children_root_of_finish hnone, row_nil]
  · intro hnone n hn
    rw [Builder.root_of_finish hn, hchildren, Builder.children_root_of_finish hnone, row_nil]

end View

end TableParser
