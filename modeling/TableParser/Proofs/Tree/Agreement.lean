import TableParser.Proofs.Engine.Completeness
import TableParser.Proofs.Tree.Leaves
/-!
Both engines give the same tree.

The trees of a derivation make a row of nodes: hidden leaves stand before the next node that is
opened, and a node without anything below it stands where the last leaf before it ended
(`Forest.row`). Opening and closing nodes builds this row. So does shifting and reducing: a
reduction takes the nodes at the roots below it with the hidden leaves between them, and leaves
those at the end where they are.

Main statement: `Builder.build_agree`.
-/

namespace TableParser

namespace Builder

variable {t : Tables} {shape : Shape} {showHidden : Bool}

/-! ### What a reduction takes -/

section Reduce

variable {nodes : Array Node}

theorem structuralEnd_of_hidden {n : Nat} : ∀ {k : Nat},
    (∀ i < k, nodes[n + i]?.any Node.isStructural = false) →
      structuralEnd nodes (n + k) = structuralEnd nodes n
  | 0, _ => rfl
  | k + 1, h => by
    rw [← Nat.add_assoc, structuralEnd, h k (by omega), if_neg Bool.false_ne_true]
    exact structuralEnd_of_hidden fun i hi => h i (by omega)

theorem structuralStart_zero (n : Nat) : structuralStart nodes 0 n = n := by
  cases n <;> rfl

theorem structuralStart_succ {count n : Nat} :
    structuralStart nodes (count + 1) (n + 1) =
      if nodes[n]?.any Node.isStructural then structuralStart nodes count n
      else structuralStart nodes (count + 1) n := by
  rw [structuralStart]

/-- Counting back over trees the first of which is structural comes to that one. -/
theorem structuralStart_of_count (before more after : List Node) {first : Node}
    (hfirst : first.isStructural = true) {k : Nat} (hk : k ≤ more.length + 1) :
    structuralStart (before ++ first :: more ++ after).toArray
      (((first :: more).take k).countP Node.isStructural) (before.length + k) = before.length := by
  induction k with
  | zero => exact structuralStart_zero _
  | succ k ih =>
    have ih := ih (by omega)
    obtain ⟨n, hn⟩ : ∃ n, (first :: more)[k]? = some n :=
      ⟨(first :: more)[k], List.getElem?_eq_getElem (by rw [List.length_cons]; omega)⟩
    have hget : (before ++ first :: more ++ after).toArray[before.length + k]? = some n := by
      rw [List.getElem?_toArray, List.append_assoc, List.getElem?_append_right (by omega),
        List.getElem?_append_left (by rw [List.length_cons]; omega), Nat.add_sub_cancel_left, hn]
    rw [List.take_add_one, hn, Option.toList_some, List.countP_append, List.countP_singleton,
      ← Nat.add_assoc]
    cases hs : n.isStructural with
    | true => rw [if_pos rfl, structuralStart_succ, hget, Option.any_some, hs, if_pos rfl, ih]
    | false =>
      -- a tree that is not structural is not the first, so some are still to be counted
      obtain ⟨k, rfl⟩ : ∃ k', k = k' + 1 := by
        cases k with
        | zero => cases hn; rw [hs] at hfirst; cases hfirst
        | succ k => exact ⟨k, rfl⟩
      rw [List.take_succ_cons, List.countP_cons_of_pos hfirst] at ih ⊢
      rw [if_neg Bool.false_ne_true, Nat.add_zero, structuralStart_succ, hget, Option.any_some, hs,
        if_neg Bool.false_ne_true, ih]

/-- The last structural tree is the last one before those that are not. -/
theorem structuralEnd_of_last {init after : List Node} {last : Node}
    (hlast : last.isStructural = true) (hafter : ∀ n ∈ after, n.isStructural = false) :
    structuralEnd (init ++ [last] ++ after).toArray (init ++ [last] ++ after).length =
      init.length + 1 := by
  rw [List.length_append, List.length_append, List.length_singleton, structuralEnd_of_hidden]
  · have hget : (init ++ [last] ++ after).toArray[init.length]? = some last := by
      rw [List.getElem?_toArray, List.append_assoc, List.getElem?_append_right (Nat.le_refl _),
        Nat.sub_self]
      rfl
    rw [structuralEnd, hget, Option.any_some, hlast, if_pos rfl]
  · intro i hi
    rw [List.getElem?_toArray, List.getElem?_append_right (by simp),
      List.getElem?_eq_getElem (by simpa using hi), Option.any_some]
    exact hafter _ (List.getElem_mem _)

/-- A reduction takes the last structural trees of the row, as many as its rule has symbols, and
what is between them, and leaves the other trees at the end. -/
theorem reduce_eq {rule : RuleId} {r : Rule} (known : t.rule? rule = some r) (p : Position)
    {before after core : List Node} (hfirst : core.head?.any Node.isStructural = true)
    (hlast : core.getLast?.any Node.isStructural = true)
    (hcount : core.countP Node.isStructural = r.rhs.length)
    (hafter : ∀ n ∈ after, n.isStructural = false) :
    reduce t shape rule p (before ++ core ++ after).toArray =
      (before ++ [ruleNode t shape rule p core] ++ after).toArray := by
  have hstop : structuralEnd (before ++ core ++ after).toArray
      (before ++ core ++ after).toArray.size = (before ++ core).length := by
    obtain ⟨last, hcore, hlast'⟩ := (Option.any_eq_true _ _).1 hlast
    obtain ⟨init, rfl⟩ := List.getLast?_eq_some_iff.1 hcore
    rw [List.size_toArray, ← List.append_assoc, structuralEnd_of_last hlast' hafter]
    simp [Nat.add_assoc]
  have hstart : structuralStart (before ++ core ++ after).toArray r.rhs.length
      (before ++ core).length = before.length := by
    obtain ⟨first, hcore, hfirst'⟩ := (Option.any_eq_true _ _).1 hfirst
    obtain ⟨more, rfl⟩ := List.head?_eq_some_iff.1 hcore
    have := structuralStart_of_count before more after hfirst' (Nat.le_refl _)
    rwa [← List.length_cons (a := first), List.take_length, hcount, ← List.length_append] at this
  have hpos : r.rhs.length ≠ 0 := by
    obtain ⟨first, hcore, hfirst'⟩ := (Option.any_eq_true _ _).1 hfirst
    obtain ⟨more, rfl⟩ := List.head?_eq_some_iff.1 hcore
    rw [← hcount, List.countP_cons_of_pos hfirst']
    omega
  rw [reduce, known, Option.elim_some]
  split
  · next h => exact absurd h hpos
  · dsimp only
    rw [hstop, hstart, between_eq, between_eq, List.toList_toArray, List.take_left, List.drop_left,
      List.size_toArray, List.take_length, List.drop_left]
    apply Array.toList_inj.1
    simp

end Reduce

/-! ### Places of nodes -/

theorem isStructural_wrap (s : SymbolId) (p : Position) (cs : List Node) :
    (wrap t shape s p cs).isStructural = true := by
  have hhidden : (wrap t shape s p cs).label.hidden = false := Node.hidden_branch ..
  rw [Node.isStructural, error_wrap, hhidden]
  rfl

end Builder

/-! ### Rows -/

/-- The leaves of hidden tokens that are shown. -/
def shownLeaves (t : Tables) (shape : Shape) (showHidden : Bool) (g : List Token) : List Node :=
  if showHidden then g.map (Builder.leaf t shape) else []

/-- Where the last leaf ended, after hidden tokens that are shown. -/
def shownStop (showHidden : Bool) (g : List Token) (p : Position) : Position :=
  if showHidden then g.foldl (fun _ tok => tok.stop) p else p

/-- The row of nodes for some trees after hidden tokens, where the last leaf before them ended at
`p`, and where the last leaf among them ended. -/
def Forest.row (t : Tables) (shape : Shape) (showHidden : Bool) :
    Forest → List Token → Position → List Node × Position
  | .nil, _, p => ([], p)
  | .leaf c rest, g, _ =>
    let later := rest.row t shape showHidden c.trivia c.token.stop
    (shownLeaves t shape showHidden g ++ Builder.leaf t shape c.token :: later.1, later.2)
  | .node rule children rest, g, p =>
    let start := shownStop showHidden g p
    let below := children.row t shape showHidden [] start
    let later := rest.row t shape showHidden (children.left []) below.2
    (shownLeaves t shape showHidden g ++ Builder.ruleNode t shape rule start below.1 :: later.1,
      later.2)

section Row

variable {t : Tables} {shape : Shape} {showHidden : Bool}

@[simp] theorem shownLeaves_nil : shownLeaves t shape showHidden [] = [] := by
  cases showHidden <;> rfl

@[simp] theorem shownStop_nil (p : Position) : shownStop showHidden [] p = p := by
  cases showHidden <;> rfl

theorem shownLeaves_append (g g' : List Token) : shownLeaves t shape showHidden (g ++ g') =
    shownLeaves t shape showHidden g ++ shownLeaves t shape showHidden g' := by
  cases showHidden <;> simp [shownLeaves]

theorem shownStop_append (g g' : List Token) (p : Position) : shownStop showHidden (g ++ g') p =
    shownStop showHidden g' (shownStop showHidden g p) := by
  cases showHidden <;> simp [shownStop]

/-- Showing hidden tokens adds their leaves. -/
theorem Builder.foldl_shownAs {event : Token → Event} (hevent : event = .terminal ∨ event = .shift)
    (g : List Token) (nodes : List Node) (frames : List OpenRule) (p : Position) :
    (shownAs event showHidden g).foldl (feed t shape) ⟨nodes.toArray, frames, p⟩ =
      ⟨(nodes ++ shownLeaves t shape showHidden g).toArray, frames, shownStop showHidden g p⟩ := by
  cases showHidden with
  | false => simp [shownAs, shownLeaves, shownStop]
  | true =>
    induction g generalizing nodes p with
    | nil => simp [shownAs, shownLeaves, shownStop]
    | cons tok g ih =>
      have hfeed : feed t shape ⟨nodes.toArray, frames, p⟩ (event tok) =
          ⟨(nodes ++ [leaf t shape tok]).toArray, frames, tok.stop⟩ := by
        rcases hevent with rfl | rfl <;> simp [feed]
      have := ih (nodes ++ [leaf t shape tok]) tok.stop
      simp only [shownAs, shownLeaves, shownStop, if_true, List.map_cons, List.foldl_cons] at this ⊢
      rw [hfeed, this]
      simp

/-- Opening and closing nodes builds the row. -/
theorem Builder.foldl_opened (f : Forest) : ∀ (g : List Token) (nodes : List Node)
    (frames : List OpenRule) (p : Position),
    (f.opened showHidden g).foldl (feed t shape) ⟨nodes.toArray, frames, p⟩ =
      ⟨(nodes ++ (f.row t shape showHidden g p).1).toArray, frames,
        (f.row t shape showHidden g p).2⟩ := by
  induction f with
  | nil => intro g nodes frames p; simp [Forest.opened, Forest.row]
  | leaf c rest ih =>
    intro g nodes frames p
    rw [Forest.opened, List.foldl_append, foldl_shownAs (.inl rfl), List.foldl_cons, feed,
      List.push_toArray, ih]
    simp [Forest.row]
  | node rule children rest ihc ihr =>
    intro g nodes frames p
    have hclose : ∀ before below : List Node, ∀ q : Position,
        close t shape (before ++ below).toArray ⟨rule, before.length, q⟩ =
          (before ++ [ruleNode t shape rule q below]).toArray := by
      intro before below q
      apply Array.toList_inj.1
      rw [toList_close, List.toList_toArray, List.take_left, List.drop_left]
    rw [Forest.opened, List.foldl_append, foldl_shownAs (.inl rfl), List.foldl_cons, feed,
      List.foldl_append, ihc, List.foldl_cons, feed, List.size_toArray]
    dsimp only
    rw [hclose, ihr]
    simp [Forest.row]

/-! ### Structural nodes of a row -/

theorem Builder.isStructural_leaf {tok : Token} (hvisible : t.isHidden tok.symbol = false)
    (hok : tok.symbol ≠ t.error) : (leaf t shape tok).isStructural = true := by
  simp [Node.isStructural, leaf, Node.label, hvisible, hok]

theorem isStructural_shownLeaves {g : List Token} (hg : ∀ tok ∈ g, t.isHidden tok.symbol = true) :
    ∀ n ∈ shownLeaves t shape showHidden g, n.isStructural = false := by
  intro n hn
  cases showHidden with
  | false => cases hn
  | true =>
    obtain ⟨tok, htok, rfl⟩ := List.mem_map.1 hn
    simp [Node.isStructural, Builder.leaf, Node.label, hg tok htok]

/-- The node of a rule is structural where the trees below it are those of its right side. -/
theorem Builder.isStructural_ruleNode (shape : Shape) {rule : RuleId} {r : Rule}
    (known : t.rule? rule = some r) (p : Position) {cs : List Node}
    (hcount : cs.countP Node.isStructural = r.rhs.length) :
    (ruleNode t shape rule p cs).isStructural = true := by
  rw [ruleNode, known]
  dsimp only
  split
  · next only =>
    split
    · next hpromoted =>
      -- a promoted tree is the one tree of the right side
      simp only [Bool.and_eq_true, decide_eq_true_eq] at hpromoted
      rw [hpromoted.1.2, List.countP_singleton] at hcount
      cases hs : only.isStructural with
      | true => rfl
      | false => rw [hs] at hcount; cases hcount
    · exact isStructural_wrap ..
  · exact isStructural_wrap ..

namespace Forest

variable {f : Forest} {α : List SymbolId}

/-- A row has one structural node for each root. -/
theorem Derived.countP_row (h : Derived t f α) (hok : ∀ c ∈ f.cells, c.symbol ≠ t.error) :
    ∀ {g : List Token} {p : Position}, (∀ tok ∈ g, t.isHidden tok.symbol = true) →
      (f.row t shape showHidden g p).1.countP Node.isStructural = α.length := by
  have hshown : ∀ {g : List Token}, (∀ tok ∈ g, t.isHidden tok.symbol = true) →
      (shownLeaves t shape showHidden g).countP Node.isStructural = 0 := by
    intro g hg
    rw [List.countP_eq_zero]
    intro n hn
    simp [isStructural_shownLeaves hg n hn]
  induction h with
  | nil => intro g p _; rfl
  | @leaf cell _ _ proper _ later =>
    intro g p hg
    rw [cells, List.forall_mem_cons] at hok
    have hleaf : (Builder.leaf t shape cell.token).isStructural = true :=
      Builder.isStructural_leaf proper.visible hok.1
    rw [row, List.countP_append, hshown hg, List.countP_cons_of_pos hleaf,
      later hok.2 proper.hidden, Nat.zero_add, List.length_cons]
  | @node rule r children _ _ known dbelow _ below later =>
    intro g p hg
    rw [cells, List.forall_mem_append] at hok
    have hbelow : (children.row t shape showHidden [] (shownStop showHidden g p)).1.countP
        Node.isStructural = r.rhs.length := below hok.1 (by simp)
    have hnode := Builder.isStructural_ruleNode shape known (shownStop showHidden g p) hbelow
    rw [row, List.countP_append, hshown hg, List.countP_cons_of_pos hnode,
      later hok.2 (dbelow.left_hidden (by simp)), Nat.zero_add, List.length_cons]

/-- A row without hidden leaves at the front starts with a structural node. -/
theorem Derived.head_row (h : Derived t f α) (hok : ∀ c ∈ f.cells, c.symbol ≠ t.error) (hα : α ≠ [])
    (p : Position) : (f.row t shape showHidden [] p).1.head?.any Node.isStructural = true := by
  cases h with
  | nil => exact absurd rfl hα
  | leaf proper _ =>
    rw [cells, List.forall_mem_cons] at hok
    rw [row, shownLeaves_nil]
    exact Builder.isStructural_leaf proper.visible hok.1
  | node known below _ =>
    rw [cells, List.forall_mem_append] at hok
    rw [row, shownLeaves_nil]
    exact Builder.isStructural_ruleNode shape known _ (below.countP_row hok.1 (by simp))

/-- A row ends with a structural node. -/
theorem Derived.last_row (h : Derived t f α) (hok : ∀ c ∈ f.cells, c.symbol ≠ t.error) :
    ∀ {g : List Token} {p : Position}, α ≠ [] →
      (f.row t shape showHidden g p).1.getLast?.any Node.isStructural = true := by
  have hlast : ∀ {n : Node} {before later : List Node}, n.isStructural = true →
      (later ≠ [] → later.getLast?.any Node.isStructural = true) →
        (before ++ n :: later).getLast?.any Node.isStructural = true := by
    intro n before later hn hlater
    cases later with
    | nil => simpa using hn
    | cons n' later =>
      obtain ⟨last, hlast, hs⟩ := (Option.any_eq_true _ _).1 (hlater (by simp))
      rw [List.getLast?_append, List.getLast?_cons_cons, hlast, Option.some_or]
      exact hs
  induction h with
  | nil => intro g p hα; exact absurd rfl hα
  | @leaf cell rest α proper derived later =>
    intro g p _
    rw [cells, List.forall_mem_cons] at hok
    refine hlast (Builder.isStructural_leaf proper.visible hok.1) fun hne => later hok.2 ?_
    rintro rfl
    cases derived
    exact hne rfl
  | @node rule r children rest α known dbelow derived _ later =>
    intro g p _
    rw [cells, List.forall_mem_append] at hok
    refine hlast (Builder.isStructural_ruleNode shape known _ (dbelow.countP_row hok.1 (by simp)))
      fun hne => later hok.2 ?_
    rintro rfl
    cases derived
    exact hne rfl

/-- Hidden tokens before a row that is not empty stand at its front. -/
theorem row_pending (hf : f ≠ .nil) (g : List Token) (p : Position) :
    f.row t shape showHidden g p =
        (shownLeaves t shape showHidden g ++
            (f.row t shape showHidden [] (shownStop showHidden g p)).1,
          (f.row t shape showHidden [] (shownStop showHidden g p)).2) ∧
      f.left g = f.left [] := by
  cases f with
  | nil => exact absurd rfl hf
  | leaf c rest => simp [row, left]
  | node rule children rest => simp [row, left]

/-- Hidden tokens before a row and those after it end where they end on their own. -/
theorem shownStop_row (f : Forest) (g : List Token) (p : Position) :
    shownStop showHidden (f.left g) (f.row t shape showHidden g p).2 =
      shownStop showHidden (f.left [])
        (f.row t shape showHidden [] (shownStop showHidden g p)).2 := by
  cases f <;> simp [row, left]

/-- Trees without leaves leave everything where it is. -/
theorem row_of_empty (h : f.cells = []) (p : Position) :
    f.left [] = [] ∧ (f.row t shape showHidden [] p).2 = p := by
  induction f generalizing p with
  | nil => exact ⟨rfl, rfl⟩
  | leaf c rest => cases h
  | node rule children rest ihc ihr =>
    rw [cells, List.append_eq_nil_iff] at h
    rw [left, row, shownStop_nil, (ihc h.1 p).1, (ihc h.1 p).2]
    exact ihr h.2 p

/-- Trees with leaves make a row with leaves. -/
theorem leavesOf_row (h : f.cells ≠ []) (g : List Token) (p : Position) :
    Node.leavesOf (f.row t shape showHidden g p).1 ≠ [] := by
  induction f generalizing g p with
  | nil => exact absurd rfl h
  | leaf c rest =>
    rw [row, Node.leavesOf_append, Node.leavesOf_cons, Node.leavesOf_leaf rfl]
    simp
  | node rule children rest ihc ihr =>
    rw [row, Node.leavesOf_append, Node.leavesOf_cons, Builder.leavesOf_ruleNode]
    rw [cells, ne_eq, List.append_eq_nil_iff, Decidable.not_and_iff_not_or_not] at h
    rcases h with h | h
    · simp [ihc h]
    · simp [ihr h]

end Forest

/-! ### Shifting and reducing -/

namespace Builder

/-- A reduction after a row puts the node of the rule over it. The hidden leaves before the row and
after it stay. -/
theorem reduce_row {rule : RuleId} {r : Rule} (known : t.rule? rule = some r) {children : Forest}
    (h : children.Derived t r.rhs) (hok : ∀ c ∈ children.cells, c.symbol ≠ t.error) (g : List Token)
    (nodes : List Node) (p : Position) :
    reduce t shape rule
        (shownStop showHidden (children.left g) (children.row t shape showHidden g p).2)
        (nodes ++ (children.row t shape showHidden g p).1 ++
          shownLeaves t shape showHidden (children.left g)).toArray =
      (nodes ++ shownLeaves t shape showHidden g ++
        [ruleNode t shape rule (shownStop showHidden g p)
          (children.row t shape showHidden [] (shownStop showHidden g p)).1] ++
        shownLeaves t shape showHidden (children.left [])).toArray := by
  by_cases hnil : children = .nil
  · subst hnil
    have hrhs : r.rhs = [] := by
      generalize r.rhs = α at h
      cases h
      rfl
    simp [reduce, known, hrhs, Forest.left, Forest.row]
  · have hrhs : r.rhs ≠ [] := by
      intro hrhs
      rw [hrhs] at h
      cases h
      exact hnil rfl
    have hhidden : ∀ tok ∈ children.left [], t.isHidden tok.symbol = true :=
      h.left_hidden (by simp)
    obtain ⟨hrow, hleft⟩ := @Forest.row_pending t shape showHidden children hnil g p
    rw [hrow, hleft, ← List.append_assoc, reduce_eq known _ (h.head_row hok hrhs _)
      (h.last_row hok hrhs) (h.countP_row hok (by simp)) (isStructural_shownLeaves hhidden)]
    -- the place differs only where there are leaves, and there it does not matter
    by_cases hcells : children.cells = []
    · obtain ⟨hnone, hstop⟩ :=
        @Forest.row_of_empty t shape showHidden children hcells (shownStop showHidden g p)
      rw [hnone, hstop, shownStop_nil]
    · rw [ruleNode_position rule _ _ (Forest.leavesOf_row hcells [] _)]

/-- Shifting and reducing builds the same row. Of the hidden tokens that are not shown yet when
nodes are opened and closed, the first ones (`early`) are shown by now. -/
theorem foldl_reduced {f : Forest} {α : List SymbolId} (h : f.Derived t α)
    (hok : ∀ c ∈ f.cells, c.symbol ≠ t.error) : ∀ (early g : List Token) (nodes : List Node)
      (frames : List OpenRule) (p : Position),
      ∃ early', f.left (early ++ g) = early' ++ f.kept g ∧
        (f.reduced showHidden g).foldl (feed t shape)
            ⟨(nodes ++ shownLeaves t shape showHidden early).toArray, frames,
              shownStop showHidden early p⟩ =
          ⟨(nodes ++ (f.row t shape showHidden (early ++ g) p).1 ++
              shownLeaves t shape showHidden early').toArray, frames,
            shownStop showHidden early' (f.row t shape showHidden (early ++ g) p).2⟩ := by
  induction h with
  | nil =>
    intro early g nodes frames p
    exact ⟨early, rfl, by simp [Forest.reduced, Forest.row]⟩
  | @leaf cell rest α proper derived later =>
    intro early g nodes frames p
    rw [Forest.cells, List.forall_mem_cons] at hok
    obtain ⟨early', hleft, hfold⟩ := later hok.2 [] cell.trivia
      (nodes ++ shownLeaves t shape showHidden (early ++ g) ++ [leaf t shape cell.token]) frames
      cell.token.stop
    refine ⟨early', hleft, ?_⟩
    rw [Forest.reduced, List.foldl_append, foldl_shownAs (.inr rfl), List.foldl_cons, feed,
      List.push_toArray, List.append_assoc nodes, ← shownLeaves_append]
    simp only [shownLeaves_nil, shownStop_nil, List.append_nil, List.nil_append] at hfold
    rw [hfold]
    simp [Forest.row]
  | @node rule r children rest α known dbelow dlater below later =>
    intro early g nodes frames p
    rw [Forest.cells, List.forall_mem_append] at hok
    obtain ⟨early₁, hleft₁, hfold₁⟩ := below hok.1 early g nodes frames p
    obtain ⟨early', hleft, hfold⟩ := later hok.2 (children.left []) []
      (nodes ++ shownLeaves t shape showHidden (early ++ g) ++
        [ruleNode t shape rule (shownStop showHidden (early ++ g) p)
          (children.row t shape showHidden [] (shownStop showHidden (early ++ g) p)).1]) frames
      (children.row t shape showHidden [] (shownStop showHidden (early ++ g) p)).2
    rw [List.append_nil] at hleft hfold
    refine ⟨early', hleft, ?_⟩
    rw [Forest.reduced, List.foldl_append, hfold₁, List.foldl_append, foldl_shownAs (.inr rfl),
      List.append_assoc _ (shownLeaves t shape showHidden early₁), ← shownLeaves_append,
      ← shownStop_append, ← hleft₁, List.foldl_cons, feed]
    dsimp only
    rw [reduce_row known dbelow hok.1, Forest.shownStop_row, hfold]
    simp [Forest.row]

/-- Both ways to read the trees of a derivation build the same tree. -/
theorem build_agree {f : Forest} {α : List SymbolId} (h : f.Derived t α)
    (hok : ∀ c ∈ f.cells, c.symbol ≠ t.error) (g : List Token) :
    build t shape (f.reduced showHidden g ++ shownAs .shift showHidden (f.kept g) ++ [.accept]) =
      build t shape (f.opened showHidden g ++ shownAs .terminal showHidden (f.left g)) := by
  have hopened : (f.opened showHidden g ++ shownAs .terminal showHidden (f.left g)).foldl
      (feed t shape) {} = ⟨((f.row t shape showHidden g .start).1 ++
        shownLeaves t shape showHidden (f.left g)).toArray, [],
        shownStop showHidden (f.left g) (f.row t shape showHidden g .start).2⟩ := by
    rw [List.foldl_append, show ({} : Builder) = ⟨([] : List Node).toArray, [], .start⟩ from rfl,
      foldl_opened, foldl_shownAs (.inl rfl), List.nil_append]
  have hreduced : (f.reduced showHidden g ++ shownAs .shift showHidden (f.kept g) ++
      [Event.accept]).foldl (feed t shape) {} = ⟨((f.row t shape showHidden g .start).1 ++
        shownLeaves t shape showHidden (f.left g)).toArray, [],
        shownStop showHidden (f.left g) (f.row t shape showHidden g .start).2⟩ := by
    obtain ⟨early, hleft, hfold⟩ := foldl_reduced h hok [] g [] [] .start
    simp only [shownLeaves_nil, shownStop_nil, List.nil_append] at hleft hfold
    rw [List.foldl_append, List.foldl_append,
      show ({} : Builder) = ⟨([] : List Node).toArray, [], .start⟩ from rfl, hfold,
      foldl_shownAs (.inr rfl), List.append_assoc, ← shownLeaves_append,
      ← shownStop_append, ← hleft]
    rfl
  rw [build, build, hopened, hreduced]

end Builder

end Row

end TableParser
