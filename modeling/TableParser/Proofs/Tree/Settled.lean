import TableParser.Proofs.Tree.Root
import TableParser.Proofs.Tree.Splice
/-!
Entries that are done stay at the front.

A predictive engine opens a rule of the start symbol and, in it, one rule after the other for a list
of entries. When some entries are done, their nodes stand at the front of the row and the rules of
the list are open. Whatever events come then, new rules are opened behind these nodes, the rules of
the list are closed over them without a trace, and the rule of the start symbol is closed over the
whole row. From then on the entries are the first children of the first node:

    frames    Entries  Entries  Config    Config
    row       Entry  Entry  …             Entry  Entries( Entry  … )    Config( Entry  Entry  … )  …

Main statements: `Settled.feed` and `children_of_finish`.
-/

namespace TableParser.Builder

variable {t : Tables} {done nodes : List Node} {frames outer : List OpenRule}
  {frame : OpenRule} {n : Node}

/-- The nodes of some entries stand at the front of the row under the rules of a list, or at the
front of the children of the first node of the row. -/
inductive Settled (t : Tables) (done : List Node) : List OpenRule → List Node → Prop where
  /-- The rules of the list are open in a rule of the start symbol. -/
  | listed {lists : List OpenRule} {nodes : List Node} {rule : RuleId} {r : Rule} {p : Position}
      (collapsed : ∀ f ∈ lists, ∃ r, t.rule? f.rule = some r ∧ isCollapsed t r.lhs = true)
      (known : t.rule? rule = some r) (start : r.lhs = t.start) (length : r.rhs.length ≠ 1)
      (front : done <+: splice nodes) : Settled t done (lists ++ [⟨rule, 0, p⟩]) nodes
  /-- A later rule is open. -/
  | inside {outer : List OpenRule} {before inside : List Node} {rule : RuleId} {p : Position}
      (outside : Settled t done outer before) :
      Settled t done (⟨rule, before.length, p⟩ :: outer) (before ++ inside)
  /-- The rule of the start symbol is closed. -/
  | closed {frames : List OpenRule} {root : Node} {after : List Node}
      (bases : ∀ f ∈ frames, 0 < f.base) (inner : root.isLeaf = false)
      (counts : root.isStructural = true) (front : done <+: root.children) :
      Settled t done frames (root :: after)

namespace Settled

theorem push (h : Settled t done frames nodes) (n : Node) :
    Settled t done frames (nodes ++ [n]) := by
  cases h with
  | listed collapsed known start length front =>
    refine .listed collapsed known start length ?_
    rw [splice_append]
    exact front.trans (List.prefix_append ..)
  | inside outside =>
    rw [List.append_assoc]
    exact .inside outside
  | closed bases inner counts front => exact .closed bases inner counts front

/-- A rule is opened at the end of the row. -/
theorem enter (h : Settled t done frames nodes) (rule : RuleId) (p : Position) :
    Settled t done (⟨rule, nodes.length, p⟩ :: frames) nodes := by
  have hinside : Settled t done (⟨rule, nodes.length, p⟩ :: frames) (nodes ++ []) := .inside h
  rwa [List.append_nil] at hinside

/-- The innermost rule is closed. -/
theorem leave (h : Settled t done (frame :: outer) nodes) : Settled t done outer
    (nodes.take frame.base ++
      [ruleNode t {} frame.rule frame.position (nodes.drop frame.base)]) := by
  generalize hframes : frame :: outer = frames at h
  cases h with
  | @listed lists _ rule r p collapsed known start length front =>
    cases lists with
    | nil =>
      obtain ⟨rfl, rfl⟩ := List.cons.inj hframes
      rw [List.take_zero, List.drop_zero, List.nil_append, ruleNode_eq_wrap known length]
      refine .closed (List.forall_mem_nil _) (isLeaf_wrap ..) (isStructural_wrap ..) ?_
      rw [children_wrap]
      exact front
    | cons list lists =>
      obtain ⟨rfl, rfl⟩ := List.cons.inj hframes
      obtain ⟨⟨r', known', hcollapsed⟩, collapsed⟩ := List.forall_mem_cons.1 collapsed
      refine .listed collapsed known start length ?_
      rwa [splice_append, splice_ruleNode known' hcollapsed, ← splice_append, List.take_append_drop]
  | inside outside =>
    obtain ⟨rfl, rfl⟩ := List.cons.inj hframes
    rw [List.take_left, List.drop_left]
    exact outside.push _
  | @closed _ root after bases inner counts front =>
    subst hframes
    obtain ⟨hbase, bases⟩ := List.forall_mem_cons.1 bases
    obtain ⟨base, hbase⟩ := Nat.exists_eq_add_of_lt hbase
    rw [hbase, Nat.zero_add, List.take_succ_cons, List.cons_append]
    exact .closed bases inner counts front

/-- Whatever comes, short of a reduction, the entries stay. -/
theorem feed {b : Builder} (h : Settled t done b.frames b.nodes.toList) {e : Event}
    (he : ∀ rule, e ≠ .reduce rule) :
    Settled t done (feed t {} b e).frames (feed t {} b e).nodes.toList := by
  cases e with
  | initial | accept | endDocument => exact h
  | terminal | shift | error =>
    rw [Builder.feed, Array.toList_push]
    exact h.push _
  | nonTerminal rule =>
    have henter := h.enter rule b.last
    rw [Array.length_toList] at henter
    exact henter
  | endNonTerminal =>
    rw [Builder.feed]
    cases hframes : b.frames with
    | nil =>
      rw [hframes] at h
      rwa [hframes]
    | cons frame outer =>
      rw [hframes] at h
      dsimp only
      rw [toList_close]
      exact h.leave
  | reduce rule => exact absurd rfl (he rule)

/-- When no rule is open, the entries are the first children of the first node. -/
theorem exists_root (h : Settled t done [] nodes) : ∃ root after, nodes = root :: after ∧
    root.isLeaf = false ∧ root.isStructural = true ∧ done <+: root.children := by
  generalize hframes : ([] : List OpenRule) = frames at h
  cases h with
  | @listed lists => cases lists <;> cases hframes
  | inside => cases hframes
  | closed _ inner counts front => exact ⟨_, _, rfl, inner, counts, front⟩

end Settled

/-- A single inner node that counts gives the tree its symbol. -/
theorem id_of_finish {shape : Shape} {core tree : Node} {p : Position}
    (hcore : nodes.filter Node.isStructural = [core]) (inner : core.isLeaf = false)
    (h : finish t shape p nodes = some tree) : tree.label.id = core.label.id := by
  rw [root_of_finish h]
  rcases @root_cases t shape p nodes with
    ⟨-, before, core', after, rfl, -, hbefore, hafter, hroot⟩ | ⟨hnot, -⟩
  · obtain rfl := Node.eq_of_between hbefore hafter hcore
    rcases hroot with ⟨-, -, hroot⟩ | hroot
    · rw [hroot]
    · rw [hroot, absorb, Node.id_updateSpan]
      rfl
  · exact absurd ⟨core, hcore, inner⟩ hnot

/-- The tree of a row with one inner node that counts at its front has the children of this node
first. -/
theorem children_of_finish {root tree : Node} {after : List Node} {p : Position}
    (inner : root.isLeaf = false) (counts : root.isStructural = true)
    (hafter : ∀ n ∈ after, n.isStructural = false)
    (h : finish t {} p (root :: after) = some tree) : tree.children = root.children ++ after := by
  have hroot : Builder.root t {} p (root :: after) =
      if after.isEmpty then root else absorb root [] after := by
    have hnone : after.any Node.isStructural = false := by simpa using hafter
    rw [Builder.root, List.dropWhile_cons_of_neg (by simp [counts]),
      List.takeWhile_cons_of_neg (by simp [counts])]
    simp [inner, hnone]
  rw [root_of_finish h, hroot]
  cases after with
  | nil => exact (List.append_nil _).symm
  | cons =>
    rw [if_neg (by simp), absorb, Node.children_updateSpan]
    rfl

end TableParser.Builder
