import Mathlib.Data.List.Forall2
import TableParser.Proofs.Tree.Walk
import TableParser.Tree.Display
/-!
The order of a tree.

A node is known by its address, the way down to it by the numbers of the children. The addresses of
a tree stand in dictionary order, so each node comes once, before the nodes below it and before
those to its right. A walk meets the nodes in this order, a search finds the first of them, and a
printed tree has them as its lines, indented by the length of the address.

    Config                  []
      Scalar                [0]
        Symbol "a"          [0, 0]
        StatementTail       [0, 1]
      Scalar                [1]

Two trees are compared node by node, from a list of pairs still to compare, and are alike only if
they are the same.

Main statement: `walks_agree`.
-/

namespace TableParser.Node

/-! ### Addresses -/

mutual

/-- The addresses of the nodes of a tree, each before those below it. -/
def addresses : Node → List (List Nat)
  | mk _ cs => [] :: addressesFrom 0 cs

/-- The addresses of the nodes of several trees that are numbered from `i` on. -/
def addressesFrom (i : Nat) : List Node → List (List Nat)
  | [] => []
  | n :: rest => (addresses n).map (List.cons i) ++ addressesFrom (i + 1) rest

end

/-- The node with an address. -/
def at? (n : Node) : List Nat → Option Node
  | [] => some n
  | i :: p => n.children[i]?.bind fun c => c.at? p

/-- Dictionary order. -/
def Before : List Nat → List Nat → Prop := List.Lex fun i j => i < j

section Addresses

variable {n : Node} {ns : List Node} {p q : List Nat} {i : Nat}

theorem addresses_eq (n : Node) : n.addresses = [] :: addressesFrom 0 n.children := by
  cases n
  rw [addresses, children]

theorem mem_addressesFrom : q ∈ addressesFrom i ns ↔
    ∃ j c p, ns[j]? = some c ∧ p ∈ c.addresses ∧ q = (i + j) :: p := by
  induction ns generalizing i with
  | nil => simp [addressesFrom]
  | cons n ns ih =>
    rw [addressesFrom, List.mem_append, List.mem_map, ih]
    constructor
    · rintro (⟨p, hp, rfl⟩ | ⟨j, c, p, hc, hp, rfl⟩)
      · exact ⟨0, n, p, rfl, hp, rfl⟩
      · exact ⟨j + 1, c, p, hc, hp, by rw [Nat.add_assoc, Nat.add_comm 1 j]⟩
    · rintro ⟨j, c, p, hc, hp, rfl⟩
      cases j with
      | zero =>
        cases hc
        exact .inl ⟨p, hp, rfl⟩
      | succ j => exact .inr ⟨j, c, p, hc, hp, by rw [Nat.add_assoc, Nat.add_comm 1 j]⟩

theorem isSome_at?_cons :
    (n.at? (i :: p)).isSome = true ↔ ∃ c, n.children[i]? = some c ∧ (c.at? p).isSome = true := by
  rw [at?]
  cases n.children[i]? <;> simp

/-- The addresses of a tree are those with a node. -/
theorem mem_addresses : p ∈ n.addresses ↔ (n.at? p).isSome = true := by
  induction p generalizing n with
  | nil => simp [addresses_eq, at?]
  | cons i p ih =>
    rw [addresses_eq, List.mem_cons, mem_addressesFrom, isSome_at?_cons]
    simp only [reduceCtorEq, false_or, Nat.zero_add, List.cons.injEq]
    constructor
    · rintro ⟨j, c, p', hc, hp, rfl, rfl⟩
      exact ⟨c, hc, ih.1 hp⟩
    · rintro ⟨c, hc, hp⟩
      exact ⟨i, c, p, hc, ih.2 hp, rfl, rfl⟩

end Addresses

mutual

/-- The addresses of a tree are in order. -/
theorem addresses_ordered : ∀ n : Node, n.addresses.Pairwise Before
  | mk _ cs => by
    rw [addresses, List.pairwise_cons]
    refine ⟨fun q hq => ?_, addressesFrom_ordered cs 0⟩
    obtain ⟨j, c, p, -, -, rfl⟩ := mem_addressesFrom.1 hq
    exact .nil

theorem addressesFrom_ordered : ∀ (ns : List Node) (i : Nat), (addressesFrom i ns).Pairwise Before
  | [], _ => .nil
  | n :: rest, i => by
    rw [addressesFrom, List.pairwise_append, List.pairwise_map]
    refine ⟨(addresses_ordered n).imp fun h => .cons h, addressesFrom_ordered rest (i + 1),
      fun p hp q hq => ?_⟩
    obtain ⟨p, -, rfl⟩ := List.mem_map.1 hp
    obtain ⟨j, c, q, -, -, rfl⟩ := mem_addressesFrom.1 hq
    exact .rel (by omega)

end

mutual

/-- The depth of a node is the length of its address. -/
theorem depths_eq : ∀ (n : Node) (d : Nat),
    (depths d n).map (fun q => (q.1, some q.2)) = n.addresses.map fun p => (d + p.length, n.at? p)
  | mk l cs, d => by
    have hbelow := depthsAll_eq cs (mk l cs) [] d (by rw [children, List.nil_append])
    rw [depths, addresses, List.map_cons, List.map_cons, hbelow]
    rfl

/-- The same for the last children of a node. -/
theorem depthsAll_eq :
    ∀ (ns : List Node) (n : Node) (before : List Node) (d : Nat), n.children = before ++ ns →
    (depthsAll (d + 1) ns).map (fun q => (q.1, some q.2)) =
      (addressesFrom before.length ns).map fun p => (d + p.length, n.at? p)
  | [], _, _, _, _ => by rw [depthsAll, addressesFrom, List.map_nil, List.map_nil]
  | c :: rest, n, before, d, h => by
    have hchild : n.children[before.length]? = some c := by
      rw [h, List.getElem?_append_right (Nat.le_refl _), Nat.sub_self, List.getElem?_cons_zero]
    have hrest := depthsAll_eq rest n (before ++ [c]) d (by rw [h, List.append_assoc]; rfl)
    rw [List.length_append, List.length_singleton] at hrest
    rw [depthsAll, addressesFrom, List.map_append, List.map_append, depths_eq c, hrest,
      List.map_map]
    congr 1
    refine List.map_congr_left fun p _ => ?_
    rw [Function.comp_apply, at?, hchild, List.length_cons, Option.bind_some]
    congr 1
    omega

end

mutual

theorem map_depths : ∀ (n : Node) (d : Nat), (depths d n).map Prod.snd = n.preorder
  | mk l cs, d => by rw [depths, preorder, List.map_cons, map_depthsAll]

theorem map_depthsAll : ∀ (ns : List Node) (d : Nat), (depthsAll d ns).map Prod.snd = preorderAll ns
  | [], _ => by rw [depthsAll, preorderAll, List.map_nil]
  | n :: rest, d => by rw [depthsAll, preorderAll, List.map_append, map_depths, map_depthsAll]

end

/-- The nodes in order are those at the addresses in order. -/
theorem map_preorder (n : Node) : n.preorder.map some = n.addresses.map n.at? := by
  have h := congrArg (List.map Prod.snd) (depths_eq n 0)
  rw [List.map_map, List.map_map] at h
  rw [← map_depths n 0, List.map_map]
  exact h

/-- The depths of the nodes in order are the lengths of the addresses in order. -/
theorem map_fst_depths (n : Node) : (depths 0 n).map Prod.fst = n.addresses.map List.length := by
  have h := congrArg (List.map Prod.fst) (depths_eq n 0)
  rw [List.map_map, List.map_map] at h
  refine h.trans (List.map_congr_left fun p _ => ?_)
  exact Nat.zero_add _

theorem depths_eq_zip (n : Node) : depths 0 n = (n.addresses.map List.length).zip n.preorder :=
  List.zip_of_prod (map_fst_depths n) (map_depths n 0)

/-! ### Printing -/

theorem depths_cons (n : Node) (d : Nat) : depths d n = (d, n) :: depthsAll (d + 1) n.children := by
  cases n
  rw [depths, children]

theorem depthsAll_eq_flatMap (ns : List Node) (d : Nat) :
    depthsAll d ns = ns.flatMap (depths d) := by
  induction ns with
  | nil => rw [depthsAll, List.flatMap_nil]
  | cons n ns ih => rw [depthsAll, ih, List.flatMap_cons]

/-- The pending nodes are met with those below them, one tree after the other. -/
theorem outlineFrom_eq (done pending : List (Nat × Node)) :
    outlineFrom done pending = done.reverse ++ pending.flatMap fun q => depths q.1 q.2 := by
  fun_induction outlineFrom done pending with
  | case1 done => rw [List.flatMap_nil, List.append_nil]
  | case2 done depth n rest ih =>
    rw [ih, List.flatMap_append, List.flatMap_map, List.flatMap_cons, depths_cons,
      depthsAll_eq_flatMap, List.reverse_cons, List.append_assoc]
    rfl

theorem outline_eq (n : Node) : n.outline = depths 0 n := by
  rw [outline, outlineFrom_eq, List.reverse_nil, List.nil_append, List.flatMap_singleton]

/-- A tree has no more levels than a number that is greater than the length of every address. -/
theorem levels_le_iff {n : Node} {k : Nat} : n.levels ≤ k ↔ ∀ p ∈ n.addresses, p.length < k := by
  have hfold : ∀ (l : List Nat) (most : Nat),
      l.foldl (fun most d => max most (d + 1)) most ≤ k ↔ most ≤ k ∧ ∀ d ∈ l, d < k := by
    intro l
    induction l with
    | nil => simp
    | cons d l ih =>
      intro most
      rw [List.foldl_cons, ih, List.forall_mem_cons, Nat.max_le, and_assoc]
      exact Iff.rfl
  have hlevels :
      n.levels = (n.addresses.map List.length).foldl (fun most d => max most (d + 1)) 0 := by
    rw [← map_fst_depths, List.foldl_map, levels, outline_eq]
  rw [hlevels, hfold, List.forall_mem_map]
  simp only [Nat.zero_le, true_and]

/-- A tree has one level more than the trees below its root. -/
theorem levels_le_succ_iff {n : Node} {k : Nat} :
    n.levels ≤ k + 1 ↔ ∀ c ∈ n.children, c.levels ≤ k := by
  simp only [levels_le_iff, addresses_eq n, List.forall_mem_cons, mem_addressesFrom]
  constructor
  · rintro ⟨-, h⟩ c hc p hp
    obtain ⟨j, hj⟩ := List.mem_iff_getElem?.1 hc
    exact Nat.lt_of_succ_lt_succ (h _ ⟨j, c, p, hj, hp, rfl⟩)
  · rintro h
    refine ⟨Nat.succ_pos k, ?_⟩
    rintro _ ⟨j, c, p, hj, hp, rfl⟩
    exact Nat.succ_lt_succ (h c (List.mem_of_getElem? hj) p hp)

theorem levels_pos (n : Node) : 0 < n.levels := by
  refine Nat.pos_of_ne_zero fun hzero => ?_
  have hroot : ([] : List Nat) ∈ n.addresses := by
    rw [addresses_eq]
    exact List.mem_cons_self
  exact absurd (levels_le_iff.1 (Nat.le_of_eq hzero) [] hroot) (Nat.not_lt_zero _)

/-- A line is indented by two spaces for each level above it. -/
theorem line_eq (n : Node) (depth : Nat) : n.line depth = "".pushn ' ' (2 * depth) ++ n.line 0 := by
  have hzero : "".pushn ' ' (2 * 0) = "" := rfl
  rw [line, line, hzero]
  simp only [String.append_assoc, String.empty_append]

/-- A printed tree has a line for each node, in order. -/
theorem display_eq (n : Node) : n.display = String.join ((n.addresses.zip n.preorder).map fun q =>
    "".pushn ' ' (2 * q.1.length) ++ q.2.line 0) := by
  have hlines : (depths 0 n).map (fun q => q.2.line q.1) = (n.addresses.zip n.preorder).map fun q =>
      "".pushn ' ' (2 * q.1.length) ++ q.2.line 0 := by
    rw [depths_eq_zip, List.zip_map_left, List.map_map]
    exact List.map_congr_left fun q _ => line_eq q.2 q.1.length
  rw [← hlines, display, outline_eq, String.join, List.foldl_map]

/-! ### Comparing -/

theorem eq_iff (a b : Node) : a = b ↔ a.label = b.label ∧ a.children = b.children := by
  cases a
  cases b
  rw [mk.injEq, label, label, children, children]

/-- Two lists are the same if they are as long and the same place by place. -/
theorem eq_iff_zip (as bs : List Node) :
    as = bs ↔ as.length = bs.length ∧ ∀ q ∈ as.zip bs, q.1 = q.2 := by
  rw [← List.forall₂_eq_eq_eq, List.forall₂_iff_zip]
  simp only [Prod.forall]

/-- The pending pairs are alike if both trees of each are the same. -/
theorem sameAll_iff (pending : List (Node × Node)) :
    sameAll pending = true ↔ ∀ q ∈ pending, q.1 = q.2 := by
  fun_induction sameAll pending with
  | case1 => simp
  | case2 a b rest h ih =>
    rw [ih, List.forall_mem_append, List.forall_mem_cons, eq_iff a b, eq_iff_zip]
    simp only [h.1, h.2, true_and]
  | case3 a b rest h =>
    rw [List.forall_mem_cons, eq_iff a b, eq_iff_zip]
    constructor
    · intro hbad
      cases hbad
    · exact fun hall => absurd ⟨hall.1.1, hall.1.2.1⟩ h

mutual

theorem identical_iff : ∀ a b : Node, identical a b = true ↔ a = b
  | mk l cs, mk l' cs' => by
    rw [identical, Bool.and_eq_true, decide_eq_true_iff, identicalAll_iff cs cs', mk.injEq]

theorem identicalAll_iff : ∀ as bs : List Node, identicalAll as bs = true ↔ as = bs
  | [], [] => by simp [identicalAll]
  | [], b :: bs => by simp [identicalAll]
  | a :: as, [] => by simp [identicalAll]
  | a :: as, b :: bs => by
    rw [identicalAll, Bool.and_eq_true, identical_iff a b, identicalAll_iff as bs, List.cons.injEq]

end

/-- Two trees are alike if they are the same. -/
theorem same_iff (a b : Node) : same a b = true ↔ a = b := by
  rw [same, sameAll_iff, List.forall_mem_singleton]

/-! ### All walks -/

/-- The walks over pending nodes are the plain recursions. The nodes of a tree in order are those at
its addresses in dictionary order; every walk goes over them, every search finds the first of them,
and a printed tree shows them with the length of the address as depth. Trees are alike only if they
are the same. -/
theorem walks_agree :
    (∀ n : Node, n.addresses.Pairwise Before ∧ (∀ p, p ∈ n.addresses ↔ (n.at? p).isSome = true) ∧
      n.preorder.map some = n.addresses.map n.at?) ∧
    (∀ {α : Type} (f : α → Node → α) (acc : α) (n : Node), walk f acc [n] =
      n.preorder.foldl f acc) ∧
    (∀ (p : Node → Bool) (n : Node), firstIn p [n] = n.preorder.find? p) ∧
    (∀ (symbol : String) (n : Node), n.findAll symbol =
      n.preorder.filter (fun m => m.label.symbol == symbol) ∧
      n.find symbol = (n.findAll symbol).head?) ∧
    (∀ n : Node, n.errors = n.preorder.filter (fun m => m.label.error) ∧
      (n.hasErrors = true ↔ n.errors ≠ [])) ∧
    (∀ n : Node, n.display = String.join ((n.addresses.zip n.preorder).map fun q =>
      "".pushn ' ' (2 * q.1.length) ++ q.2.line 0)) ∧
    (∀ a b : Node, (a == b) = identical a b ∧ ((a == b) = true ↔ a = b)) := by
  have hfirst : ∀ (p : Node → Bool) (n : Node), firstIn p [n] = (select p n).head? := by
    intro p n
    rw [firstIn_eq, select_eq, preorderAll_singleton, List.head?_filter]
  refine ⟨fun n => ⟨addresses_ordered n, fun p => mem_addresses, map_preorder n⟩, ?_, ?_, ?_, ?_,
    display_eq, ?_⟩
  · intro α f acc n
    rw [walk_eq, preorderAll_singleton]
  · intro p n
    rw [firstIn_eq, preorderAll_singleton]
  · exact fun symbol n => ⟨select_eq _ n, hfirst _ n⟩
  · intro n
    refine ⟨select_eq _ n, ?_⟩
    rw [hasErrors, hfirst, List.isSome_head?]
    rfl
  · intro a b
    have hsame : (a == b) = true ↔ a = b := same_iff a b
    exact ⟨Bool.eq_iff_iff.2 (hsame.trans (identical_iff a b).symm), hsame⟩

end TableParser.Node
