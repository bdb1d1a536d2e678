import TableParser.Proofs.Tree.Agreement
/-!
Nodes that give way to their children.

A collapsed inner node gives way to its children where another node is put over it
(`Builder.splice`), and a node over a single child is left out where the child can stand for it. So
of a list whose rules are collapsed nothing is seen but its entries, however deep its nodes lie in
each other:

    row       Entry  Entries( Entry  Entries( Entry ) )
    spliced   Entry  Entry  Entry

Main statements: `splice_ruleNode` and `Fronts.fold`.
-/

namespace TableParser

@[simp] theorem Node.collapsed_updateSpan (n : Node) :
    n.updateSpan.label.collapsed = n.label.collapsed := by
  cases n with
  | mk l cs => rw [updateSpan]; split <;> rfl

@[simp] theorem Node.collapsed_branch (symbol : String) (id : SymbolId) (collapsed : Bool)
    (substituteFor : Option String) (position : Position) (cs : List Node) :
    (branch symbol id collapsed substituteFor position cs).label.collapsed = collapsed := by
  rw [branch, collapsed_updateSpan]
  rfl

namespace Builder

variable {t : Tables} {rule : RuleId} {r : Rule} {p : Position} {n : Node} {cs : List Node}

theorem splice_cons (n : Node) (ns : List Node) : splice (n :: ns) = splice [n] ++ splice ns := by
  simp only [splice_eq_flatMap, List.flatMap_cons, List.flatMap_nil, List.append_nil]

theorem splice_singleton (n : Node) : splice [n] = if dissolves n then n.children else [n] := by
  simp only [splice_eq_flatMap, List.flatMap_cons, List.flatMap_nil, List.append_nil]

theorem dissolves_wrap (s : SymbolId) (p : Position) (cs : List Node) :
    dissolves (wrap t {} s p cs) = isCollapsed t s := by
  rw [dissolves, isLeaf_wrap, Bool.not_false, Bool.and_true]
  exact Node.collapsed_branch ..

/-- The node of a rule can take the place of a rule over it. -/
theorem isPromoted_ruleNode (rule : RuleId) (p : Position) (cs : List Node) :
    isPromoted (ruleNode t {} rule p cs) = true := by
  have hwrap : ∀ s, isPromoted (wrap t {} s p cs) = true :=
    fun s => by rw [isPromoted, isLeaf_wrap]; rfl
  rw [ruleNode]
  split
  · exact hwrap _
  · split
    · split
      · next h => exact (Bool.and_eq_true_iff.1 h).2
      · exact hwrap _
    · exact hwrap _

/-- A rule of more or fewer symbols than one has a node of its own. -/
theorem ruleNode_eq_wrap (known : t.rule? rule = some r) (h : r.rhs.length ≠ 1) :
    ruleNode t {} rule p cs = wrap t {} r.lhs p cs := by
  rw [ruleNode, known]
  dsimp only
  split
  · rw [decide_eq_false h, Bool.and_false, Bool.false_and, if_neg Bool.false_ne_true]
  · rfl

/-- A rule of one symbol is left out where its child stands for it. -/
theorem ruleNode_promoted (known : t.rule? rule = some r) (h : r.rhs.length = 1)
    (hn : isPromoted n = true) :
    ruleNode t {} rule p [n] = n := by
  rw [ruleNode, known]
  dsimp only
  rw [decide_eq_true h, hn]
  rfl

/-- A collapsed rule gives way to what its children give. -/
theorem splice_ruleNode (known : t.rule? rule = some r) (h : isCollapsed t r.lhs = true) :
    splice [ruleNode t {} rule p cs] = splice cs := by
  have hwrap : splice [wrap t {} r.lhs p cs] = splice cs := by
    rw [splice_singleton, dissolves_wrap, if_pos h, children_wrap]
    rfl
  rw [ruleNode, known]
  dsimp only
  split
  · split
    · rfl
    · exact hwrap
  · exact hwrap

/-- Nodes that do not give way stay as they are. -/
theorem splice_eq_self {ns : List Node} (h : ∀ n ∈ ns, dissolves n = false) : splice ns = ns := by
  induction ns with
  | nil => rfl
  | cons n ns ih =>
    rw [List.forall_mem_cons] at h
    rw [splice_cons, ih h.2, splice_singleton, if_neg (by simp [h.1])]
    rfl

theorem splice_append (as bs : List Node) : splice (as ++ bs) = splice as ++ splice bs := by
  simp only [splice_eq_flatMap, List.flatMap_append]

/-! ### Nodes at the front of a row -/

/-- Up to the last tree that counts, a row starts with some nodes once it is spliced. -/
def Fronts (done nodes : List Node) : Prop :=
  ∀ front after, nodes = front ++ after → (∀ n ∈ after, n.isStructural = false) →
    done <+: splice front

/-- What a row starts with and ends in a tree that counts is not cut by leaving out trees at the end
that do not. -/
theorem prefix_of_structural {init rest front after : List Node} {last : Node}
    (h : init ++ last :: rest = front ++ after) (hlast : last.isStructural = true)
    (hafter : ∀ n ∈ after, n.isStructural = false) : init ++ [last] <+: front := by
  rw [List.append_cons, List.append_eq_append_iff] at h
  rcases h with ⟨between, hfront, -⟩ | ⟨between, hinit, hrest⟩
  · exact ⟨between, hfront.symm⟩
  · rcases List.eq_nil_or_concat between with rfl | ⟨more, last', rfl⟩
    · exact ⟨[], by rw [hinit, List.append_nil, List.append_nil]⟩
    · rw [List.concat_eq_append, ← List.append_assoc] at hinit
      obtain ⟨-, hsame⟩ := List.append_inj' hinit rfl
      obtain rfl := List.singleton_inj.1 hsame
      have hnot := hafter last (by rw [hrest]; simp)
      rw [hlast] at hnot
      cases hnot

namespace Fronts

variable {done nodes before core after : List Node}

theorem isPrefix (h : Fronts done nodes) : done <+: splice nodes :=
  h nodes [] (List.append_nil nodes).symm (List.forall_mem_nil _)

/-- Nodes that count and do not give way stand at the front of what they start. -/
theorem of_append (hdone : ∀ n ∈ done, n.isStructural = true ∧ dissolves n = false)
    (more : List Node) :
    Fronts done (done ++ more) := by
  intro front after h hafter
  have hself := splice_eq_self fun n hn => (hdone n hn).2
  rcases List.eq_nil_or_concat done with rfl | ⟨init, last, rfl⟩
  · exact List.nil_prefix
  · rw [List.concat_eq_append] at h hdone hself ⊢
    rw [List.append_assoc] at h
    obtain ⟨between, rfl⟩ := prefix_of_structural h (hdone last (by simp)).1 hafter
    rw [splice_append, hself]
    exact List.prefix_append ..

theorem push (h : Fronts done nodes) (n : Node) : Fronts done (nodes ++ [n]) := by
  intro front after heq hafter
  rcases List.eq_nil_or_concat after with rfl | ⟨init, last, rfl⟩
  · rw [← heq.trans (List.append_nil front), splice_append]
    exact h.isPrefix.trans (List.prefix_append ..)
  · rw [List.concat_eq_append] at heq hafter
    rw [← List.append_assoc] at heq
    exact h front init (List.append_inj' heq rfl).1 fun m hm => hafter m (List.mem_append_left _ hm)

/-- A collapsed rule over the last trees that count leaves the nodes at the front. -/
theorem fold (h : Fronts done (before ++ core ++ after))
    (hafter : ∀ n ∈ after, n.isStructural = false) (known : t.rule? rule = some r)
    (hcollapsed : isCollapsed t r.lhs = true)
    (hcount : core.countP Node.isStructural = r.rhs.length) (p : Position) :
    Fronts done (before ++ [ruleNode t {} rule p core] ++ after) := by
  intro front after' heq hafter'
  rw [List.append_assoc, List.singleton_append] at heq
  obtain ⟨between, rfl⟩ :=
    prefix_of_structural heq (isStructural_ruleNode {} known p hcount) hafter'
  rw [splice_append, splice_append, splice_ruleNode known hcollapsed, ← splice_append]
  exact (h _ _ rfl hafter).trans (List.prefix_append ..)

end Fronts

end Builder

end TableParser
