import TableParser.Grammar.Script
import TableParser.Proofs.Tree.Spelling
import TableParser.Proofs.Tree.Splice
/-!
Collapsed nodes do not stay below a root.

A collapsed inner node gives way to its children as soon as another node is put over it. Its
children can take its place as they are, since they were spliced when it was built:

    row        Entry   Entries( Entry  Entry )     below Entries: nothing that gives way
    wrapped    List( Entry  Entry  Entry )         below List: what was below Entries, and Entry

A node comes to its parent in several ways: it is wrapped, it is left out for its only child, it
stays in the row and ends up in the root, or its rule is closed when there are no more events. In
all of them what is below a tree of the row is free of nodes that give way (`Tidy.flat`). Only the
root itself can be collapsed.

Main statement: `uncollapsed_below_root`.
-/

namespace TableParser.Builder

open Node (preorderAll preorderAll_append preorderAll_cons)

variable {t : Tables} {shape : Shape} {n : Node} {ns : List Node}

/-- Nothing below a node gives way to its children. -/
def Flat (n : Node) : Prop := ∀ m ∈ preorderAll n.children, dissolves m = false

/-- Nothing below a tree of the row gives way, and if it is not a leaf it counts. -/
structure Tidy (n : Node) : Prop where
  flat : Flat n
  structural : n.isLeaf = false → n.isStructural = true

/-- One level is enough. -/
theorem not_dissolves_splice (h : ∀ n ∈ ns, Flat n) :
    ∀ m ∈ preorderAll (splice ns), dissolves m = false := by
  rw [splice_eq_flatMap]
  induction ns with
  | nil => simp
  | cons n rest ih =>
    rw [List.forall_mem_cons] at h
    rw [List.flatMap_cons, preorderAll_append, List.forall_mem_append]
    refine ⟨?_, ih h.2⟩
    split
    · exact h.1
    · next hn =>
      rw [preorderAll_cons, List.append_nil, List.forall_mem_cons]
      exact ⟨Bool.eq_false_iff.2 hn, h.1⟩

/-- Trees of the row that do not count are leaves, so they do not give way either. -/
theorem not_dissolves_of_other (h : ∀ n ∈ ns, Tidy n) (hother : ∀ n ∈ ns, n.isStructural = false) :
    ∀ m ∈ preorderAll ns, dissolves m = false := by
  have hkept : ∀ n ∈ ns, dissolves n = false := by
    intro n hn
    cases hleaf : n.isLeaf with
    | true => rw [dissolves, hleaf, Bool.not_true, Bool.and_false]
    | false =>
      have hcounts := (h n hn).structural hleaf
      rw [hother n hn] at hcounts
      cases hcounts
  rw [← splice_eq_self hkept]
  exact not_dissolves_splice fun n hn => (h n hn).flat

theorem tidy_leafOf {ev : Event} (h : n ∈ leafOf t shape ev) : Tidy n where
  flat := by
    rw [Flat, (isLeaf_of_leafOf h).2]
    simp
  structural hinner := by
    rw [(isLeaf_of_leafOf h).1] at hinner
    cases hinner

section Transformed

variable (htransform : shape.transform = true)

include htransform

theorem flat_wrap (s : SymbolId) (p : Position) (h : ∀ c ∈ ns, Flat c) :
    Flat (wrap t shape s p ns) := by
  rw [Flat, children_wrap, if_pos htransform]
  exact not_dissolves_splice h

theorem tidy_wrap (s : SymbolId) (p : Position) (h : ∀ c ∈ ns, Tidy c) :
    Tidy (wrap t shape s p ns) where
  flat := flat_wrap htransform s p fun c hc => (h c hc).flat
  structural _ := isStructural_wrap s p ns

theorem tidy_ruleNode (rule : RuleId) (p : Position) (h : ∀ c ∈ ns, Tidy c) :
    Tidy (ruleNode t shape rule p ns) := by
  rw [ruleNode]
  split
  · exact tidy_wrap htransform _ p h
  · split
    · next only =>
      split
      · exact h only (List.mem_singleton_self only)
      · exact tidy_wrap htransform _ p h
    · exact tidy_wrap htransform _ p h

/-- The root of a row keeps what its trees have below them, and takes in leaves alone. -/
theorem flat_root (p : Position) (h : ∀ n ∈ ns, Tidy n) : Flat (root t shape p ns) := by
  rcases @root_cases t shape p ns with
    ⟨-, before, core, after, rfl, -, hbefore, hafter, hroot⟩ | ⟨-, hroot⟩
  · rw [List.forall_mem_append, List.forall_mem_append, List.forall_mem_singleton] at h
    obtain ⟨⟨htidy, hcore⟩, htidy'⟩ := h
    rcases hroot with ⟨-, -, hroot⟩ | hroot
    · rw [hroot]
      exact hcore.flat
    · rw [hroot, Flat, absorb, Node.children_updateSpan, Node.children, preorderAll_append,
        preorderAll_append, List.forall_mem_append, List.forall_mem_append]
      exact ⟨⟨not_dissolves_of_other htidy hbefore, hcore.flat⟩,
        not_dissolves_of_other htidy' hafter⟩
  · rw [hroot]
    exact flat_wrap htransform t.start p fun n hn => (h n hn).flat

end Transformed

/-- In a transformed tree no collapsed inner node lies below the root, whatever the events are. -/
theorem uncollapsed_below_root (t : Tables) (trim : Bool) {events : List Event} {root : Node}
    (h : build t ⟨trim, true⟩ events = some root) :
    ∀ m ∈ preorderAll root.children, m.isLeaf = false → m.label.collapsed = false := by
  have hrow : ∀ n ∈ row t ⟨trim, true⟩ events, Tidy n :=
    forall_row (fun rule p _ => tidy_ruleNode rfl rule p) (fun _ _ => tidy_leafOf) events
  obtain ⟨p, rfl⟩ := eq_root_of_build h
  have hflat : Flat (root t ⟨trim, true⟩ p (row t ⟨trim, true⟩ events)) := flat_root rfl p hrow
  intro m hm hinner
  have hkept := hflat m hm
  rwa [dissolves, hinner, Bool.not_false, Bool.and_true] at hkept

/-- Two names, the second in a statement of a list that is opened and never closed. -/
def unclosed : List Event :=
  [.terminal ⟨Script.symbol, "a", .start⟩, .nonTerminal ⟨2⟩, .nonTerminal ⟨4⟩, .nonTerminal ⟨10⟩,
    .terminal ⟨Script.symbol, "b", ⟨1, 3, 2⟩⟩]

theorem uncollapsed_below_root_unclosed :
    ∃ root, build Script.tables ⟨false, true⟩ unclosed = some root ∧
    (preorderAll root.children).map (fun m => m.label.symbol) = ["Symbol", "Statement", "Symbol"] ∧
    ∀ m ∈ preorderAll root.children, m.isLeaf = false → m.label.collapsed = false := by
  obtain ⟨root, hroot, hnames⟩ : ∃ root, build Script.tables ⟨false, true⟩ unclosed = some root ∧
      (preorderAll root.children).map (fun m => m.label.symbol) =
        ["Symbol", "Statement", "Symbol"] :=
    ⟨_, rfl, rfl⟩
  exact ⟨root, hroot, hnames, uncollapsed_below_root Script.tables false hroot⟩

end TableParser.Builder
