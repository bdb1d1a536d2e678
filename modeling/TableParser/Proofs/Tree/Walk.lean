import TableParser.Tree.Node
/-!
Walks over trees by their plain reading.

A walk keeps the trees still to visit on a list; it meets the nodes in the order of `preorderAll`.
So searching, selecting and joining the input of the leaves are the ordinary list functions on that
order. `leavesOf` are the leaves of several trees.

Main statements: `walk_eq`, `firstIn_eq`, `select_eq` and `sourceText_eq`.
-/

namespace TableParser.Node

/-! ### The order of a walk -/

theorem preorder_eq (n : Node) : preorder n = n :: preorderAll n.children := by
  cases n with
  | mk l cs => rw [preorder, children]

@[simp] theorem preorderAll_nil : preorderAll [] = [] := by rw [preorderAll]

theorem preorderAll_append (a b : List Node) :
    preorderAll (a ++ b) = preorderAll a ++ preorderAll b := by
  induction a with
  | nil => rw [preorderAll]; rfl
  | cons n a ih => rw [List.cons_append, preorderAll, ih, preorderAll, List.append_assoc]

theorem preorderAll_cons (n : Node) (rest : List Node) :
    preorderAll (n :: rest) = n :: preorderAll (n.children ++ rest) := by
  rw [preorderAll, preorder_eq, preorderAll_append, List.cons_append]

theorem preorderAll_singleton (n : Node) : preorderAll [n] = preorder n := by
  rw [preorderAll, preorderAll, List.append_nil]

/-- A walk meets the nodes in order. -/
theorem walk_eq {α : Type} (f : α → Node → α) (acc : α) (pending : List Node) :
    walk f acc pending = (preorderAll pending).foldl f acc := by
  fun_induction walk f acc pending with
  | case1 => rw [preorderAll]; rfl
  | case2 acc n rest ih => rw [ih, preorderAll_cons, List.foldl_cons]

/-- A search finds the first node in order. -/
theorem firstIn_eq (p : Node → Bool) (pending : List Node) :
    firstIn p pending = (preorderAll pending).find? p := by
  fun_induction firstIn p pending with
  | case1 => rw [preorderAll]; rfl
  | case2 n rest h => rw [preorderAll_cons, List.find?_cons_of_pos h]
  | case3 n rest h ih => rw [ih, preorderAll_cons, List.find?_cons_of_neg h]

/-- Selecting keeps the order. -/
theorem select_eq (p : Node → Bool) (n : Node) : select p n = (preorder n).filter p := by
  have h : ∀ (l acc : List Node),
      (l.foldl (fun acc m => if p m then m :: acc else acc) acc).reverse =
        acc.reverse ++ l.filter p := by
    intro l
    induction l with
    | nil => intro acc; simp
    | cons m l ih => intro acc; rw [List.foldl_cons, ih]; by_cases hm : p m = true <;> simp [hm]
  rw [select, walk_eq, h, preorderAll_singleton]
  rfl

variable {ns : List Node} {m n c : Node}

theorem mem_preorderAll (h : m ∈ ns) : m ∈ preorderAll ns := by
  obtain ⟨before, after, rfl⟩ := List.append_of_mem h
  rw [preorderAll_append, preorderAll_cons]
  exact List.mem_append_right _ List.mem_cons_self

/-- The children of the nodes of some trees are among these nodes. -/
theorem child_mem_preorderAll (hc : c ∈ m.children) :
    ∀ ns : List Node, m ∈ preorderAll ns → c ∈ preorderAll ns
  | [], h => by rw [preorderAll_nil] at h; cases h
  | n :: rest, h => by
    rw [preorderAll_cons, List.mem_cons] at h ⊢
    rcases h with rfl | h
    · exact .inr (mem_preorderAll (List.mem_append_left _ hc))
    · exact .inr (child_mem_preorderAll hc _ h)
termination_by ns => sizeOf ns
decreasing_by exact sizeOf_visit n rest

/-- The nodes of a tree among some trees are among the nodes of these. -/
theorem mem_preorderAll_of_mem {k : Node} (hk : k ∈ preorder m) :
    ∀ ns : List Node, m ∈ preorderAll ns → k ∈ preorderAll ns
  | [], h => by rw [preorderAll_nil] at h; cases h
  | n :: rest, h => by
    rw [preorderAll_cons, List.mem_cons] at h
    rcases h with rfl | h
    · rw [preorderAll]
      exact List.mem_append_left _ hk
    · rw [preorderAll_cons]
      exact List.mem_cons_of_mem _ (mem_preorderAll_of_mem hk _ h)
termination_by ns => sizeOf ns
decreasing_by exact sizeOf_visit n rest

/-! ### Inner nodes -/

/-- Every inner node of some trees has a property. -/
def AllInner (P : Node → Prop) (ns : List Node) : Prop :=
  ∀ m ∈ preorderAll ns, m.isLeaf = false → P m

variable {P : Node → Prop}

theorem allInner_nil : AllInner P [] := by
  simp [AllInner]

theorem allInner_append {a b : List Node} : AllInner P (a ++ b) ↔ AllInner P a ∧ AllInner P b := by
  simp only [AllInner, preorderAll_append, List.mem_append]
  constructor
  · exact fun h => ⟨fun m hm => h m (.inl hm), fun m hm => h m (.inr hm)⟩
  · rintro ⟨ha, hb⟩ m (hm | hm)
    · exact ha m hm
    · exact hb m hm

theorem allInner_singleton : AllInner P [n] ↔ (n.isLeaf = false → P n) ∧ AllInner P n.children := by
  rw [AllInner, preorderAll_singleton, preorder_eq, List.forall_mem_cons]
  rfl

theorem allInner_leaf (h : n.isLeaf = true) (hchildren : n.children = []) : AllInner P [n] := by
  rw [allInner_singleton, hchildren]
  exact ⟨fun hinner => absurd (h.symm.trans hinner) Bool.noConfusion, allInner_nil⟩

/-! ### Leaves -/

/-- The leaves of several trees. -/
def leavesOf (ns : List Node) : List Node := (preorderAll ns).filter isLeaf

/-- The input that the leaves of several trees stand for. -/
def textOf (ns : List Node) : String :=
  String.join ((leavesOf ns).map fun n => n.label.value.getD "")

theorem leaves_eq (n : Node) : n.leaves = leavesOf [n] := by
  rw [leaves, select_eq, leavesOf, preorderAll_singleton]

@[simp] theorem leavesOf_nil : leavesOf [] = [] := by rw [leavesOf, preorderAll]; rfl

@[simp] theorem leavesOf_append (a b : List Node) :
    leavesOf (a ++ b) = leavesOf a ++ leavesOf b := by
  rw [leavesOf, preorderAll_append, List.filter_append]
  rfl

theorem leavesOf_cons (n : Node) (rest : List Node) :
    leavesOf (n :: rest) = leavesOf [n] ++ leavesOf rest :=
  leavesOf_append [n] rest

/-- An inner node has the leaves of its children. -/
theorem leavesOf_inner {n : Node} (h : n.isLeaf = false) : leavesOf [n] = leavesOf n.children := by
  rw [leavesOf, preorderAll_singleton, preorder_eq, List.filter_cons_of_neg (by simp [h])]
  rfl

/-- A leaf has itself and the leaves below it. -/
theorem leavesOf_leaf {n : Node} (h : n.isLeaf = true) :
    leavesOf [n] = n :: leavesOf n.children := by
  rw [leavesOf, preorderAll_singleton, preorder_eq, List.filter_cons_of_pos h]
  rfl

@[simp] theorem textOf_nil : textOf [] = "" := by simp [textOf]

/-- The input of a tree is that of its leaves. -/
theorem sourceText_eq (n : Node) : n.sourceText = textOf [n] := by
  have h : ∀ (l : List Node) (acc : String),
      l.foldl (fun text m => text ++ m.label.value.getD "") acc =
        acc ++ String.join ((l.filter isLeaf).map fun n => n.label.value.getD "") := by
    intro l
    induction l with
    | nil => intro acc; simp
    | cons m l ih =>
      intro acc
      rw [List.foldl_cons, ih]
      cases hm : m.label.value <;> simp [isLeaf, hm, String.append_assoc]
  rw [sourceText, walk_eq, h, textOf, leavesOf]
  simp

end TableParser.Node
