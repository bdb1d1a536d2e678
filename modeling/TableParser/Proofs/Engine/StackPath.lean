import TableParser.Proofs.Engine.Moves
import TableParser.Proofs.Grammar.Cell
/-!
The state stack as a path of the automaton.

An automaton state leads to another one by a shift or a goto. The stack of a shift-reduce engine is
a path from the initial state, and the symbols along it are what the stack stands for (`Spells`).
The table alone cannot tell which states lie below a given one, but its arcs, followed backwards,
list all that can (`backward`). A table is `Closed` when, along each of these, every reduction finds
the right side of its rule and a goto after it. On a closed table no step leaves the path and no
document is given up, whatever errors were recovered from.

Main statements: `ShiftReduce.isPath_step` and `ShiftReduce.not_givesUp`.
-/

namespace TableParser

namespace ShiftReduceTable

variable {table : ShiftReduceTable} {xs : List SymbolId} {s : StateId} {below : List StateId}

/-! ### Paths -/

/-- A state leads to another one over a symbol by a shift or a goto. -/
def Leads (table : ShiftReduceTable) (s : StateId) (x : SymbolId) (s' : StateId) : Prop :=
  table.action? s x = some (.shift s') ∨ table.goto? s x = some s'

/-- A stack of states, last one on top, is a path from the initial state over symbols, last one
first. -/
inductive Spells (table : ShiftReduceTable) : List SymbolId → List StateId → Prop where
  | start : Spells table [] [table.initial]
  | move {xs : List SymbolId} {s : StateId} {below : List StateId} {x : SymbolId} {s' : StateId}
      (path : Spells table xs (s :: below)) (leads : table.Leads s x s') :
      Spells table (x :: xs) (s' :: s :: below)

/-- A stack of states is a path of the automaton from its initial state. -/
def IsPath (table : ShiftReduceTable) (states : List StateId) : Prop :=
  ∃ xs, table.Spells xs states

theorem Spells.exists_top {states : List StateId} (h : table.Spells xs states) :
    ∃ s below, states = s :: below := by
  cases h with
  | start => exact ⟨_, _, rfl⟩
  | move => exact ⟨_, _, rfl⟩

theorem Spells.length_eq {states : List StateId} (h : table.Spells xs states) :
    states.length = xs.length + 1 := by
  induction h with
  | start => rfl
  | move _ _ ih => simpa using ih

theorem Spells.getLast {states : List StateId} (h : table.Spells xs states) :
    states.getLast? = some table.initial := by
  induction h with
  | start => rfl
  | move _ _ ih => rw [List.getLast?_cons_cons]; exact ih

/-- What is under the top of a path is a path. -/
theorem Spells.drop {states : List StateId} (h : table.Spells xs states) :
    ∀ {n : Nat}, n < states.length → table.Spells (xs.drop n) (states.drop n) := by
  induction h with
  | start =>
    intro n hn
    obtain rfl : n = 0 := by simpa using hn
    exact .start
  | move path leads ih =>
    intro n hn
    cases n with
    | zero => exact .move path leads
    | succ n => exact ih (by simpa using hn)

/-- A state under the top of a path, as a reduction exposes it. -/
theorem Spells.exposed {states : List StateId} (h : table.Spells xs states) {n : Nat}
    (hdrop : states.drop n = s :: below) :
    n ≤ xs.length ∧ table.Spells (xs.drop n) (s :: below) := by
  have hlt : n < states.length := by
    refine Nat.lt_of_not_le fun hle => ?_
    rw [List.drop_eq_nil_of_le hle] at hdrop
    cases hdrop
  refine ⟨?_, hdrop ▸ h.drop hlt⟩
  rw [h.length_eq] at hlt
  omega

/-! ### Ways back -/

/-- An arc of the automaton: a state, a symbol, and the state that it leads to. -/
abbrev Arc := StateId × SymbolId × StateId

/-- The arcs that a row writes down. -/
def rowArcs (s : StateId) (row : StateRow) : List Arc :=
  (row.actions.filterMap fun p =>
    match p.2 with
    | .shift target => some (s, p.1, target)
    | _ => none) ++ row.gotos.map fun p => (s, p.1, p.2)

/-- The arcs that numbered rows write down. -/
def arcs (rows : List StateRow) : List Arc :=
  rows.zipIdx.flatMap fun r => rowArcs (UInt32.ofNat r.2) r.1

theorem mem_arcs_of_leads {nonTerminals terminals : Nat} {initial : StateId} {rows : List StateRow}
    {x : SymbolId} {s' : StateId} (h : (ofRows nonTerminals terminals initial rows).Leads s x s') :
    (s, x, s') ∈ arcs rows := by
  rw [arcs, List.mem_flatMap]
  rcases h with h | h
  · obtain ⟨row, hr, hmem⟩ := mem_of_action? h
    refine ⟨(row, s.toNat), List.mem_zipIdx_iff_getElem?.2 hr, ?_⟩
    rw [rowArcs, List.mem_append, List.mem_filterMap, UInt32.ofNat_toNat]
    exact .inl ⟨_, hmem, rfl⟩
  · obtain ⟨row, hr, hmem⟩ := mem_of_goto? h
    refine ⟨(row, s.toNat), List.mem_zipIdx_iff_getElem?.2 hr, ?_⟩
    rw [rowArcs, List.mem_append, List.mem_map, UInt32.ofNat_toNat]
    exact .inr ⟨_, hmem, rfl⟩

/-- The reductions that numbered rows write down, by state and rule. -/
def reductions (rows : List StateRow) : List (StateId × RuleId) :=
  rows.zipIdx.flatMap fun r => (r.1.actions.filterMap fun p =>
    match p.2 with
    | .reduce rule => some (UInt32.ofNat r.2, rule)
    | _ => none).eraseDups

theorem mem_reductions {nonTerminals terminals : Nat} {initial : StateId} {rows : List StateRow}
    {a : SymbolId} {rule : RuleId}
    (h : (ofRows nonTerminals terminals initial rows).action? s a = some (.reduce rule)) :
    (s, rule) ∈ reductions rows := by
  obtain ⟨row, hr, hmem⟩ := mem_of_action? h
  rw [reductions, List.mem_flatMap]
  refine ⟨(row, s.toNat), List.mem_zipIdx_iff_getElem?.2 hr, ?_⟩
  rw [List.mem_eraseDups, List.mem_filterMap]
  exact ⟨_, hmem, by rw [UInt32.ofNat_toNat]⟩

/-- The ways to go back some arcs from a state: the symbols and states passed, nearest first. -/
def backward (es : List Arc) : Nat → StateId → List (List (SymbolId × StateId))
  | 0, _ => [[]]
  | n + 1, s => (es.filter fun e => e.2.2 = s).flatMap fun e =>
    (backward es n e.1).map fun p => (e.2.1, e.1) :: p

/-- The state that a way back ends in. -/
def exposed (s : StateId) (p : List (SymbolId × StateId)) : StateId :=
  (p.map Prod.snd).getLastD s

/-- A path shows one of the ways back from its top. -/
theorem mem_backward {es : List Arc}
    (hes : ∀ {s x s'}, table.Leads s x s' → (s, x, s') ∈ es) :
    ∀ {n : Nat} {xs : List SymbolId} {s : StateId} {below : List StateId},
      table.Spells xs (s :: below) → n ≤ below.length →
        ∃ p ∈ backward es n s, p.map Prod.fst = xs.take n ∧ p.map Prod.snd = below.take n
  | 0, _, _, _, _, _ => ⟨[], by simp [backward], by simp, by simp⟩
  | n + 1, _, s, below, h, hn => by
    cases h with
    | start => simp at hn
    | @move xs s₀ below x _ path leads =>
      obtain ⟨p, hp, hsyms, hstates⟩ := mem_backward hes path (n := n) (by simpa using hn)
      refine ⟨(x, s₀) :: p, ?_, by simp [hsyms], by simp [hstates]⟩
      rw [backward, List.mem_flatMap]
      refine ⟨(s₀, x, s), ?_, List.mem_map.2 ⟨p, hp, rfl⟩⟩
      rw [List.mem_filter]
      exact ⟨hes leads, by simp⟩

/-- A reduction that finds its right side whatever lies below: no way back comes to the bottom of
the stack too early, and each spells the right side and ends in a state with a goto. -/
structure SafeReduction (initial : StateId) (goto? : StateId → SymbolId → Option StateId)
    (es : List Arc) (s : StateId) (r : Rule) : Prop where
  deep : ∀ k < r.rhs.length, ∀ p ∈ backward es k s, exposed s p ≠ initial
  spells : ∀ p ∈ backward es r.rhs.length s,
    p.map Prod.fst = r.rhs.reverse ∧ (goto? (exposed s p) r.lhs).isSome = true

instance (initial : StateId) (goto? : StateId → SymbolId → Option StateId) (es : List Arc)
    (s : StateId) (r : Rule) : Decidable (SafeReduction initial goto? es s r) :=
  decidable_of_iff (_ ∧ _) ⟨fun h => ⟨h.1, h.2⟩, fun h => ⟨h.deep, h.spells⟩⟩

/-- A table whose reductions all find their right sides and a goto after them. -/
structure Closed (t : Tables) (table : ShiftReduceTable) (es : List Arc) : Prop where
  arcs : ∀ {s x s'}, table.Leads s x s' → (s, x, s') ∈ es
  safe : ∀ {s a rule}, table.action? s a = some (.reduce rule) →
    ∃ r, t.rule? rule = some r ∧ SafeReduction table.initial table.goto? es s r

/-- The state under a way back of a path. -/
theorem exposed_of_take {p : List (SymbolId × StateId)} {n : Nat}
    (hp : p.map Prod.snd = below.take n) (hn : n ≤ below.length) :
    ∃ rest, (s :: below).drop n = exposed s p :: rest := by
  rw [exposed, hp]
  cases n with
  | zero => exact ⟨below, rfl⟩
  | succ n =>
    have hlt : n < below.length := by omega
    refine ⟨below.drop (n + 1), ?_⟩
    rw [List.drop_succ_cons, List.drop_eq_getElem_cons hlt, List.take_succ_eq_append_getElem hlt,
      List.getLastD_eq_getLast?, List.getLast?_concat, Option.getD_some]

/-- A safe reduction stays above the bottom of the stack. -/
theorem SafeReduction.length_le {es : List Arc} {r : Rule}
    (hes : ∀ {s x s'}, table.Leads s x s' → (s, x, s') ∈ es)
    (safe : SafeReduction table.initial table.goto? es s r) (h : table.Spells xs (s :: below)) :
    r.rhs.length ≤ below.length := by
  refine Nat.le_of_not_lt fun hlt => ?_
  obtain ⟨p, hp, -, hstates⟩ := mem_backward hes h (n := below.length) (Nat.le_refl _)
  obtain ⟨rest, hrest⟩ := exposed_of_take (s := s) hstates (Nat.le_refl _)
  -- the way back over the whole stack ends at its bottom, which is the initial state
  have hlast := h.getLast
  rw [← List.take_append_drop below.length (s :: below), hrest] at hlast
  have hnil : rest = [] := by
    have := congrArg List.length hrest
    simpa [List.length_drop] using this
  rw [hnil, List.getLast?_concat, Option.some.injEq] at hlast
  exact safe.deep _ hlt p hp hlast

/-- A safe reduction on a path: its right side is on top, and what is below has a goto. -/
theorem SafeReduction.of_spells {es : List Arc} {r : Rule}
    (hes : ∀ {s x s'}, table.Leads s x s' → (s, x, s') ∈ es)
    (safe : SafeReduction table.initial table.goto? es s r) (h : table.Spells xs (s :: below)) :
    ∃ s₀ rest target, (s :: below).drop r.rhs.length = s₀ :: rest ∧
      xs.take r.rhs.length = r.rhs.reverse ∧ table.Spells (xs.drop r.rhs.length) (s₀ :: rest) ∧
      table.goto? s₀ r.lhs = some target := by
  have hn := safe.length_le hes h
  obtain ⟨p, hp, hsyms, hstates⟩ := mem_backward hes h hn
  obtain ⟨rest, hrest⟩ := exposed_of_take (s := s) hstates hn
  obtain ⟨hspell, hgoto⟩ := safe.spells p hp
  obtain ⟨target, htarget⟩ := Option.isSome_iff_exists.1 hgoto
  have hpath := h.drop (n := r.rhs.length) (by rw [List.length_cons]; omega)
  rw [hrest] at hpath
  exact ⟨_, rest, target, hrest, hsyms ▸ hspell, hpath, htarget⟩

/-- On a closed table the symbols that a reduction takes off a path are the right side of its
rule. -/
theorem Closed.take_eq_rhs {t : Tables} {es : List Arc} {a : SymbolId} {rule : RuleId} {r : Rule}
    (closed : Closed t table es) (h : table.Spells xs (s :: below))
    (action : table.action? s a = some (.reduce rule)) (known : t.rule? rule = some r) :
    xs.take r.rhs.length = r.rhs.reverse := by
  obtain ⟨r', known', safe⟩ := closed.safe action
  obtain rfl : r = r' := Option.some.inj (known.symm.trans known')
  obtain ⟨-, -, -, -, htake, -⟩ := safe.of_spells closed.arcs h
  exact htake

end ShiftReduceTable

namespace ShiftReduce

open ShiftReduceTable

variable {t : Tables} {table : ShiftReduceTable} {showHidden : Bool} {m : ShiftReduce}
  {es : List Arc} {xs : List SymbolId}

/-- The state that acts is on top of the path. -/
theorem exists_below (h : table.Spells xs m.states) : ∃ below, m.states = m.top table :: below := by
  obtain ⟨s, below, hm⟩ := h.exists_top
  exact ⟨below, by rw [ShiftReduce.top, hm, List.headD_cons]⟩

/-- A shift goes on along the path. -/
theorem spells_shift (h : table.Spells xs m.states) {a : SymbolId} {target : StateId}
    (action : table.action? (m.top table) a = some (.shift target)) :
    table.Spells (a :: xs) (target :: m.states) := by
  obtain ⟨below, hm⟩ := exists_below h
  rw [hm] at h ⊢
  exact h.move (.inl action)

/-- The next step gives the document up: it is a reduction, and the reduction gives up. -/
def GivesUp (t : Tables) (table : ShiftReduceTable) (showHidden : Bool) (m : ShiftReduce) : Prop :=
  m.phase = .running ∧ ∃ input rule, m.input.nextHidden t showHidden = (none, input) ∧
    table.action? (m.top table) input.current.symbol = some (.reduce rule) ∧
    ∃ m' : ShiftReduce, ShiftReduce.reduce t table rule { m with input } = m'.giveUp

/-- On a path, every reduction that the state on top may make finds its right side and a goto. -/
theorem reduction_of_isPath (closed : Closed t table es) (h : table.IsPath m.states)
    {a : SymbolId} {rule : RuleId} (ha : table.action? (m.top table) a = some (.reduce rule)) :
    ∃ r s below target, t.rule? rule = some r ∧ r.rhs.length < m.states.length ∧
      m.states.drop r.rhs.length = s :: below ∧ table.goto? s r.lhs = some target := by
  obtain ⟨xs, h⟩ := h
  obtain ⟨below, hm⟩ := exists_below h
  obtain ⟨r, hr, safe⟩ := closed.safe ha
  rw [hm] at h
  obtain ⟨s₀, rest, target, hdrop, -, -, hgoto⟩ := safe.of_spells closed.arcs h
  have hn := safe.length_le closed.arcs h
  exact ⟨r, s₀, rest, target, hr, by rw [hm, List.length_cons]; omega, hm ▸ hdrop, hgoto⟩

/-- On a path no document is given up. -/
theorem not_givesUp (closed : Closed t table es) (h : table.IsPath m.states) :
    ¬ m.GivesUp t table showHidden := by
  rintro ⟨-, input, rule, -, ha, m', hm'⟩
  obtain ⟨r, s, below, target, hr, -, hdrop, hgoto⟩ := reduction_of_isPath closed h ha
  rw [ShiftReduce.reduce, hr] at hm'
  simp [hdrop, hgoto, giveUp] at hm'

/-- A step from a path leads to a path. -/
theorem isPath_step (closed : Closed t table es) (h : table.IsPath m.states) :
    table.IsPath (m.step t table showHidden).2.states := by
  obtain ⟨e, m', hstep, hmoves⟩ := exists_moves t table showHidden m
  rw [hstep]
  cases hmoves with
  | rest | hidden | accept | skip => exact h
  | shift _ _ action =>
    obtain ⟨xs, h⟩ := h
    exact ⟨_, spells_shift h action⟩
  | reduce _ _ _ _ exposed goes =>
    obtain ⟨xs, h⟩ := h
    obtain ⟨-, hpath⟩ := h.exposed exposed
    exact ⟨_, hpath.move (.inr goes)⟩
  | giveUp _ next action hole =>
    obtain ⟨r, s, below, target, hr, -, hdrop, hgoto⟩ := reduction_of_isPath closed h action
    have := hole r hr
    simp [hdrop, hgoto] at this

end ShiftReduce

end TableParser
