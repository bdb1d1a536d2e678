import TableParser.Proofs.Script.Document
import TableParser.Proofs.Script.Spans
import TableParser.Proofs.Tree.Settled
/-!
Statements that are done, on the stack of the shift-reduce engine.

When some statements of a document are done, the stack spells them from its bottom up, and their
nodes stand at the front of the row (`Stacked.standing`). What is read then comes on top of them.
They are taken off only by the rules for a list, from the last one down and with nothing else on top
(`Stacked.listed`), and what is left at last is the node of the document (`Stacked.closed`):

    stack   Statement Statement x y   Statement Statements                  Config
    row     Statement Statement x y   Statement Statements( Statement … )   Config( Statement … )

Main statements: `stacked_step` and `Stacked.prefix_of_finish`.
-/

namespace TableParser.Script

open ShiftReduceTable Builder

variable {done nodes before core after : List Node} {xs : List SymbolId} {n first : Node}

/-! ### The rules of a list -/

/-- A rule of a list that goes on. -/
def IsListRule (r : Rule) : Prop :=
  r.rhs = [statement, statements] ∧ (r.lhs = config ∨ r.lhs = statements)

instance (r : Rule) : Decidable (IsListRule r) := inferInstanceAs (Decidable (_ ∧ _))

/-- Only the rules of a list start with a statement. -/
theorem isListRule_of_head : ∀ r ∈ rules, r.rhs.head? = some statement → IsListRule r := by
  decide

/-- Over a list that goes on, a state reduces by a rule of a list or does nothing. -/
theorem list_rows : ∀ e ∈ arcs stateRows, e.2.1 = statement → ∀ e' ∈ arcs stateRows, e'.1 = e.2.2 →
    e'.2.1 = statements → ∀ row ∈ stateRows[e'.2.2.toNat]?, ∀ p ∈ row.actions,
      p.2 = .reduce ⟨0⟩ ∨ p.2 = .reduce ⟨2⟩ := by
  decide

/-- Over a document there is nothing to do but to accept it. -/
theorem document_rows : ∀ e ∈ arcs stateRows, e.2.1 = config →
    ∀ row ∈ stateRows[e.2.2.toNat]?, ∀ p ∈ row.actions, p.2 = .accept := by
  decide

/-- A document lies over the initial state alone, and a list does not. -/
theorem initial_arcs :
    ∀ e ∈ arcs stateRows, (e.2.1 = config → e.1 = 0) ∧ (e.2.1 = statements → e.1 ≠ 0) := by
  decide

section Stack

variable {states below : List StateId} {s top : StateId} {a : SymbolId} {action : Action}
  {rule : RuleId} {r : Rule}

/-- Over the initial state nothing is spelled. -/
theorem spells_initial (h : shiftReduce.Spells xs (0 :: below)) : xs = [] := by
  generalize hstates : (0 : StateId) :: below = states at h
  cases h with
  | start => rfl
  | move _ leads =>
    cases hstates
    exact absurd rfl (accept_rows.2.2 _ (mem_arcs_of_leads leads))

theorem action_listed (h : shiftReduce.Spells (statements :: statement :: xs) (top :: below))
    (haction : shiftReduce.action? top a = some action) :
    action = .reduce ⟨0⟩ ∨ action = .reduce ⟨2⟩ := by
  cases h with
  | move path leads =>
    cases path with
    | move _ leads' =>
      obtain ⟨row, hrow, hmem⟩ := mem_of_action? haction
      exact list_rows _ (mem_arcs_of_leads leads') rfl _ (mem_arcs_of_leads leads) rfl rfl
        row hrow _ hmem

theorem action_closed (h : shiftReduce.Spells (config :: xs) (top :: below))
    (haction : shiftReduce.action? top a = some action) : action = .accept := by
  cases h with
  | move _ leads =>
    obtain ⟨row, hrow, hmem⟩ := mem_of_action? haction
    exact document_rows _ (mem_arcs_of_leads leads) rfl row hrow _ hmem

/-- A rule that reaches down to a statement is one of a list, with nothing else on top. -/
theorem isListRule_of_take (known : tables.rule? rule = some r) {k : Nat}
    (htake : (xs ++ List.replicate (k + 1) statement).take r.rhs.length = r.rhs.reverse)
    (hdeep : xs.length < r.rhs.length) : IsListRule r ∧ xs = [statements] := by
  obtain ⟨j, hj⟩ : ∃ j, (List.replicate (k + 1) statement).take (r.rhs.length - xs.length) =
      List.replicate (j + 1) statement := by
    obtain ⟨j, hj⟩ := Nat.exists_eq_add_of_lt hdeep
    rw [hj, Nat.add_assoc, Nat.add_sub_cancel_left, List.take_replicate, Nat.add_min_add_right]
    exact ⟨min j k, rfl⟩
  have hrhs : r.rhs = List.replicate (j + 1) statement ++ xs.reverse := by
    rw [List.take_append, List.take_of_length_le hdeep.le, hj] at htake
    rw [← List.reverse_reverse r.rhs, ← htake, List.reverse_append, List.reverse_replicate]
  have hlist := isListRule_of_head r (mem_rules known) (by rw [hrhs]; rfl)
  refine ⟨hlist, ?_⟩
  rw [hlist.1, List.replicate_succ, List.cons_append, List.cons.injEq] at hrhs
  cases j with
  | zero => exact List.reverse_inj.1 hrhs.2.symm
  | succ j => cases hrhs.2

end Stack

/-! ### The row beside the stack -/

/-- Some statements stand at the bottom of the stack and at the front of the row. -/
inductive Stacked (done : List Node) : List SymbolId → List Node → Prop where
  /-- Nothing has been done with them yet. -/
  | standing {xs : List SymbolId} {more : List Node}
      (count : more.countP Node.isStructural = xs.length) :
      Stacked done (xs ++ List.replicate done.length statement) (done ++ more)
  /-- The last of them are in a list. -/
  | listed {k : Nat} {first : Node} {more : List Node} (front : Fronts done (first :: more))
      (counts : first.isStructural = true) (count : more.countP Node.isStructural = k + 1) :
      Stacked done (statements :: List.replicate (k + 1) statement) (first :: more)
  /-- All of them are in the document. -/
  | closed {root : Node} {after : List Node} (inner : root.isLeaf = false)
      (counts : root.isStructural = true) (others : ∀ n ∈ after, n.isStructural = false)
      (front : done <+: root.children) :
      Stacked done [config] (root :: after)

/-- Nodes of statements. -/
def AreEntries (done : List Node) : Prop :=
  ∀ n ∈ done, n.isStructural = true ∧ dissolves n = false ∧ n.label.id ≠ config

namespace Stacked

variable {k : Nat} {more : List Node} {rule : RuleId} {r : Rule} {s target : StateId}
  {states below : List StateId}

/-- A node that does not count comes to the end of the row. -/
theorem push (h : Stacked done xs nodes) (hn : n.isStructural = false) :
    Stacked done xs (nodes ++ [n]) := by
  have hcount : ∀ more : List Node, (more ++ [n]).countP Node.isStructural =
      more.countP Node.isStructural := by
    intro more
    rw [List.countP_append, List.countP_cons_of_neg (by simp [hn]), List.countP_nil, Nat.add_zero]
  cases h with
  | standing count =>
    rw [List.append_assoc]
    exact .standing ((hcount _).trans count)
  | listed front counts count => exact .listed (front.push n) counts ((hcount _).trans count)
  | closed inner counts others front =>
    refine .closed inner counts (List.forall_mem_append.2 ⟨others, ?_⟩) front
    rwa [List.forall_mem_singleton]

/-- A rule of a list takes the last statement into the list, or makes the list the document. -/
theorem fold (front : Fronts done (first :: more)) (counts : first.isStructural = true)
    (count : more.countP Node.isStructural = k + 1)
    (hspells : shiftReduce.Spells (List.replicate k statement) (s :: below))
    (known : tables.rule? rule = some r) (hrule : IsListRule r)
    (goes : shiftReduce.goto? s r.lhs = some target)
    (hnodes : first :: more = before ++ core ++ after) (hcore : core.countP Node.isStructural = 2)
    (hafter : ∀ n ∈ after, n.isStructural = false) (p : Position) :
    Stacked done (r.lhs :: List.replicate k statement)
      (before ++ [ruleNode tables {} rule p core] ++ after) := by
  obtain ⟨hrhs, hlhs⟩ := hrule
  have hlength : r.rhs.length = 2 := by rw [hrhs]; rfl
  have hnone : after.countP Node.isStructural = 0 := List.countP_eq_zero.2 (by simpa using hafter)
  have hall : before.countP Node.isStructural = k := by
    have hcount := congrArg (List.countP Node.isStructural) hnodes
    rw [List.countP_append, List.countP_append, hcore, hnone, List.countP_cons_of_pos counts,
      count] at hcount
    omega
  obtain ⟨honly, hnever⟩ := initial_arcs _ (mem_arcs_of_leads (.inr goes))
  rcases hlhs with hlhs | hlhs
  · -- the stack is down to its bottom, so the row has nothing before the list
    obtain rfl : s = 0 := honly hlhs
    obtain rfl : k = 0 := by simpa using spells_initial hspells
    obtain rfl : before = [] := by
      cases before with
      | nil => rfl
      | cons first' before =>
        obtain ⟨rfl, -⟩ := List.cons.inj hnodes
        rw [List.countP_cons_of_pos counts] at hall
        cases hall
    rw [hlhs, ruleNode_eq_wrap known (by rw [hlength]; decide)]
    refine .closed (isLeaf_wrap ..) (isStructural_wrap ..) hafter ?_
    rw [children_wrap]
    exact front core after hnodes hafter
  · cases k with
    | zero =>
      cases hspells
      exact absurd rfl (hnever hlhs)
    | succ k =>
      cases before with
      | nil => cases hall
      | cons first' before =>
        obtain ⟨rfl, -⟩ := List.cons.inj hnodes
        rw [List.countP_cons_of_pos counts] at hall
        have hnode := isStructural_ruleNode {} known p (hcore.trans hlength.symm)
        rw [hnodes] at front
        have hfront := front.fold hafter known (by rw [hlhs]; decide) (hcore.trans hlength.symm) p
        rw [List.cons_append, List.cons_append] at hfront ⊢
        rw [hlhs]
        refine .listed hfront counts ?_
        rw [List.countP_append, List.countP_append, List.countP_cons_of_pos hnode,
          List.countP_nil, hnone]
        omega

/-- A reduction above the statements leaves them where they are. -/
theorem above (hentries : AreEntries done) {more : List Node}
    (hnodes : done ++ more = before ++ core ++ after)
    (hdepth : core.countP Node.isStructural ≤ more.countP Node.isStructural)
    (hafter : ∀ n ∈ after, n.isStructural = false) : ∃ before', before = done ++ before' ∧
      more = before' ++ core ++ after := by
  rw [List.append_assoc, List.append_eq_append_iff] at hnodes
  rcases hnodes with ⟨before', hbefore, hmore⟩ | ⟨between, hdone, hcore⟩
  · exact ⟨before', hbefore, by rw [hmore, List.append_assoc]⟩
  · -- otherwise what is taken and left behind it has the end of the statements as well
    have hnone : after.countP Node.isStructural = 0 := List.countP_eq_zero.2 (by simpa using hafter)
    have hcount := congrArg (List.countP Node.isStructural) hcore
    have hbetween : between.countP Node.isStructural = between.length :=
      List.countP_eq_length.2 fun n hn => (hentries n (hdone ▸ List.mem_append_right _ hn)).1
    rw [List.countP_append, List.countP_append, hnone, hbetween] at hcount
    obtain rfl : between = [] := List.length_eq_zero_iff.1 (by omega)
    rw [List.append_nil] at hdone
    exact ⟨[], by rw [hdone, List.append_nil], hcore.symm⟩

/-- There is one node that counts for each symbol of the stack. -/
theorem countP_eq (hentries : AreEntries done) (h : Stacked done xs nodes) :
    nodes.countP Node.isStructural = xs.length := by
  cases h with
  | standing count =>
    have hdone : done.countP Node.isStructural = done.length :=
      List.countP_eq_length.2 fun n hn => (hentries n hn).1
    rw [List.countP_append, hdone, count, List.length_append, List.length_replicate, Nat.add_comm]
  | listed _ counts count =>
    rw [List.countP_cons_of_pos counts, count, List.length_cons, List.length_replicate]
  | closed _ counts others =>
    rw [List.countP_cons_of_pos counts, List.countP_eq_zero.2 (by simpa using others)]
    rfl

/-- A reduction keeps the statements. -/
theorem reduce (hentries : AreEntries done) (hne : done ≠ []) (h : Stacked done xs nodes)
    {top : StateId} {rest : List StateId} {a : SymbolId}
    (hspells : shiftReduce.Spells xs (top :: rest))
    (action : shiftReduce.action? top a = some (.reduce rule)) (known : tables.rule? rule = some r)
    (exposed : (top :: rest).drop r.rhs.length = s :: below)
    (goes : shiftReduce.goto? s r.lhs = some target) (hnodes : nodes = before ++ core ++ after)
    (hcore : core.countP Node.isStructural = r.rhs.length)
    (hafter : ∀ n ∈ after, n.isStructural = false) (p : Position) :
    Stacked done (r.lhs :: xs.drop r.rhs.length)
      (before ++ [ruleNode tables {} rule p core] ++ after) := by
  obtain ⟨-, hdrop⟩ := hspells.exposed exposed
  have hlist : ∀ {r' : Rule}, IsListRule r' → r'.rhs.length = 2 := fun h => by rw [h.1]; rfl
  cases h with
  | @standing xs more count =>
    by_cases hdepth : r.rhs.length ≤ xs.length
    · obtain ⟨before', rfl, rfl⟩ :=
        above hentries hnodes (by rw [hcore, count]; exact hdepth) hafter
      have hnode := isStructural_ruleNode {} known p hcore
      rw [List.drop_append_of_le_length hdepth, ← List.cons_append, List.append_assoc,
        List.append_assoc]
      refine .standing ?_
      rw [List.countP_append, List.countP_append, hcore] at count
      rw [List.countP_append, List.countP_append, List.countP_cons_of_pos hnode, List.countP_nil,
        List.length_cons, List.length_drop]
      omega
    · -- a rule that reaches down to the statements is one of the list
      obtain ⟨first, later, rfl⟩ := List.exists_cons_of_ne_nil hne
      have htake := Script.closed.take_eq_rhs hspells action known
      obtain ⟨hrule, rfl⟩ := isListRule_of_take known htake (Nat.lt_of_not_le hdepth)
      have hfront : Fronts (first :: later) (first :: later ++ more) :=
        .of_append (fun n hn => ⟨(hentries n hn).1, (hentries n hn).2.1⟩) more
      have hcount : (later ++ more).countP Node.isStructural = later.length + 1 := by
        rw [List.countP_append, count,
          List.countP_eq_length.2 fun n hn => (hentries n (List.mem_cons_of_mem _ hn)).1]
        rfl
      rw [hlist hrule] at hdrop hcore ⊢
      exact fold hfront (hentries first List.mem_cons_self).1 hcount hdrop known hrule goes hnodes
        hcore hafter p
  | listed front counts count =>
    have hrule : IsListRule r := by
      rcases action_listed hspells action with h | h
      · obtain rfl : rule = ⟨0⟩ := Action.reduce.inj h
        obtain rfl : _ = r := Option.some.inj known
        decide
      · obtain rfl : rule = ⟨2⟩ := Action.reduce.inj h
        obtain rfl : _ = r := Option.some.inj known
        decide
    rw [hlist hrule] at hdrop hcore ⊢
    exact fold front counts count hdrop known hrule goes hnodes hcore hafter p
  | closed => cases action_closed hspells action

end Stacked

open ShiftReduce in
/-- A step keeps the statements that are done. -/
theorem stacked_step {m : ShiftReduce} {b : Builder} {showHidden : Bool}
    (hentries : AreEntries done) (hne : done ≠ [])
    (hlast : m.input.last.symbol = tables.endOfStream)
    (h : ∃ xs, shiftReduce.Spells xs m.states ∧ Stacked done xs b.nodes.toList) :
    ∃ xs, shiftReduce.Spells xs (m.step tables shiftReduce showHidden).2.states ∧
      Stacked done xs (feed tables {} b (m.step tables shiftReduce showHidden).1).nodes.toList := by
  obtain ⟨xs, hspells, hstacked⟩ := h
  obtain ⟨e, m', hstep, hmoves⟩ := exists_moves tables shiftReduce showHidden m
  rw [hstep]
  cases hmoves with
  | rest | accept => exact ⟨xs, hspells, hstacked⟩
  | hidden _ next =>
    obtain ⟨-, hhidden, -⟩ := TokenStream.nextHidden_some next
    refine ⟨xs, hspells, ?_⟩
    rw [Builder.feed, Array.toList_push]
    exact hstacked.push (isStructural_hidden hhidden)
  | skip =>
    refine ⟨xs, hspells, ?_⟩
    rw [Builder.feed, Array.toList_push]
    exact hstacked.push rfl
  | giveUp running next action hole =>
    exact absurd (givesUp_of_hole running next action hole) (not_givesUp closed ⟨xs, hspells⟩)
  | @shift input target _ next action =>
    have hstructural := isStructural_shifted {} quiet hlast next action
    refine ⟨_, spells_shift hspells action, ?_⟩
    obtain ⟨below, hs⟩ := exists_below hspells
    rw [hs] at hspells
    rw [Builder.feed, Array.toList_push]
    generalize b.nodes.toList = nodes at hstacked
    cases hstacked with
    | standing count =>
      rw [List.append_assoc, ← List.cons_append]
      refine .standing ?_
      rw [List.countP_append, count, List.countP_cons_of_pos hstructural]
      rfl
    | listed => rcases action_listed hspells action with h | h <;> cases h
    | closed => cases action_closed hspells action
  | @reduce input rule r s target below _ _ action known exposed goes =>
    obtain ⟨hroom, hdrop⟩ := hspells.exposed exposed
    rw [← hstacked.countP_eq hentries] at hroom
    obtain ⟨before, core, after, hnodes, hreduce, hcore, hafter⟩ :=
      exists_reduce {} known b.last hroom
    obtain ⟨rest, hs⟩ := exists_below hspells
    rw [hs] at hspells exposed
    refine ⟨_, hdrop.move (.inr goes), ?_⟩
    rw [Builder.feed, hreduce]
    exact hstacked.reduce hentries hne hspells action known exposed goes hnodes hcore hafter b.last

/-- In a tree of the start symbol the statements that are done are the first children. -/
theorem Stacked.prefix_of_finish (hentries : AreEntries done) (hne : done ≠ [])
    (h : Stacked done xs nodes) {p : Position} {tree : Node} (hid : tree.label.id = config)
    (htree : finish tables {} p nodes = some tree) :
    done <+: tree.children := by
  -- a row that is not under one node goes under a new one
  have hrow : done <+: splice nodes → ¬ Rooted nodes → done <+: tree.children := by
    intro hfront hnot
    rcases @root_cases tables {} p nodes with ⟨hrooted, -⟩ | ⟨-, hroot⟩
    · exact absurd hrooted hnot
    · rw [root_of_finish htree, hroot, children_wrap]
      exact hfront
  cases h with
  | @standing xs more count =>
    have hfront : Fronts done (done ++ more) :=
      .of_append (fun n hn => ⟨(hentries n hn).1, (hentries n hn).2.1⟩) more
    refine hrow hfront.isPrefix ?_
    -- one node under which the row could go would be that of a statement
    rintro ⟨core, hcore, inner⟩
    have hself : done.filter Node.isStructural = done :=
      List.filter_eq_self.2 fun n hn => (hentries n hn).1
    have hmem : core ∈ done := by
      have hcore' := hcore
      rw [List.filter_append, hself] at hcore'
      obtain ⟨first, later, rfl⟩ := List.exists_cons_of_ne_nil hne
      exact (List.cons.inj hcore').1 ▸ List.mem_cons_self
    exact (hentries core hmem).2.2 ((id_of_finish hcore inner htree).symm.trans hid)
  | listed front counts count =>
    refine hrow front.isPrefix ?_
    rintro ⟨core, hcore, -⟩
    have hlength := congrArg List.length hcore
    rw [← List.countP_eq_length_filter, List.countP_cons_of_pos counts, count] at hlength
    cases hlength
  | closed inner counts others front =>
    rw [children_of_finish inner counts others htree]
    exact front.trans (List.prefix_append ..)

end TableParser.Script
