import TableParser.Proofs.Grammar.Derivation
/-!
What a derivation tree can start with.

`FirstSets` says for each symbol whether it may be erased and which terminals its words may start
with. When this agrees with the rules, a row of derivation trees before a terminal `a` starts with
one of the terminals `begins α a`, where `α` are the symbols at the roots.

Main statement: `FirstSets.ahead_mem_begins`.
-/

namespace TableParser

/-- Which symbols may be erased, and the terminals that words of a symbol may start with. -/
structure FirstSets where
  nullable : SymbolId → Bool
  first : SymbolId → List SymbolId

namespace FirstSets

variable {f : FirstSets} {α : List SymbolId} {a b x : SymbolId}

/-- The terminals that words of several symbols may start with. -/
def firstOf (f : FirstSets) : List SymbolId → List SymbolId
  | [] => []
  | x :: α => f.first x ++ if f.nullable x then f.firstOf α else []

/-- The terminals that words of several symbols may start with before a terminal. -/
def begins (f : FirstSets) (α : List SymbolId) (a : SymbolId) : List SymbolId :=
  f.firstOf α ++ if α.all f.nullable then [a] else []

theorem mem_begins_nil : b ∈ f.begins [] a ↔ b = a := by
  simp [begins, firstOf]

theorem mem_begins_cons :
    b ∈ f.begins (x :: α) a ↔ b ∈ f.first x ∨ f.nullable x = true ∧ b ∈ f.begins α a := by
  rw [begins, begins, firstOf, List.all_cons]
  cases f.nullable x <;> simp

/-- The sets agree with the rules: a terminal starts with itself, and a left side starts with what
the right side does. -/
structure Correct (f : FirstSets) (t : Tables) : Prop where
  terminal : ∀ {s}, t.isNonTerminal s = false → s ∈ f.first s
  nullable : ∀ {rule r}, t.rule? rule = some r → r.rhs.all f.nullable = true →
    f.nullable r.lhs = true
  first : ∀ {rule r}, t.rule? rule = some r → ∀ b ∈ f.firstOf r.rhs, b ∈ f.first r.lhs

end FirstSets

/-- The symbol of the first leaf of some trees, or of what comes after them. -/
def Forest.ahead (f : Forest) (a : SymbolId) : SymbolId := f.word.headD a

theorem Forest.ahead_leaf (c : Cell) (rest : Forest) (a : SymbolId) :
    (Forest.leaf c rest).ahead a = c.symbol := rfl

theorem Forest.ahead_node (rule : RuleId) (children rest : Forest) (a : SymbolId) :
    (Forest.node rule children rest).ahead a = children.ahead (rest.ahead a) := by
  rw [ahead, ahead, ahead, word, word, word, cells, List.map_append]
  cases children.cells <;> rfl

/-- Derivation trees start with what their roots may start with. -/
theorem FirstSets.ahead_mem_begins {f : FirstSets} {t : Tables} (correct : f.Correct t)
    {trees : Forest} {α : List SymbolId} (h : trees.Derived t α) :
    ∀ a, trees.ahead a ∈ f.begins α a := by
  induction h with
  | nil => intro a; exact mem_begins_nil.2 rfl
  | leaf proper _ _ =>
    intro a
    rw [Forest.ahead_leaf, mem_begins_cons]
    exact .inl (correct.terminal proper.terminal)
  | @node rule r children rest α known _ _ below later =>
    intro a
    have hbelow := below (rest.ahead a)
    rw [Forest.ahead_node, mem_begins_cons]
    rw [begins, List.mem_append] at hbelow
    rcases hbelow with hfirst | hnull
    · exact .inl (correct.first known _ hfirst)
    · split at hnull
      · next hall =>
        rw [List.mem_singleton] at hnull
        rw [hnull]
        exact .inr ⟨correct.nullable known hall, later a⟩
      · cases hnull

end TableParser
