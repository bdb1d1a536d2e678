import Mathlib.Logic.Relation
import TableParser.Token.Stream
/-!
Derivations, and derivation trees over the tokens of an input.

A string of symbols derives another one by rewriting left sides of rules into right sides. A
sentence is what the start symbol derives. The tokens of an input are cut into cells: a token that
counts in the derivation, with the hidden tokens after it. A `Forest` is a row of trees whose leaves
are cells, and `Forest.Derived` says that its inner nodes are applications of rules. Every
derivation of the symbols of some cells has a forest over these cells.

Main statements: `Forest.exists_of_derives` and `Cell.exists_cut`.
-/

namespace TableParser

/-! ### Derivations -/

namespace Tables

/-- One step of a derivation. -/
inductive Rewrites (t : Tables) : List SymbolId → List SymbolId → Prop where
  | rule {rule : RuleId} {r : Rule} (known : t.rule? rule = some r) (before after : List SymbolId) :
      Rewrites t (before ++ r.lhs :: after) (before ++ r.rhs ++ after)

/-- A derivation: any number of steps. -/
def Derives (t : Tables) : List SymbolId → List SymbolId → Prop :=
  Relation.ReflTransGen t.Rewrites

/-- What the start symbol derives and holds no symbol that could be rewritten. -/
def IsSentence (t : Tables) (word : List SymbolId) : Prop :=
  t.Derives [t.start] word ∧ ∀ s ∈ word, t.isNonTerminal s = false

variable {t : Tables} {α β γ : List SymbolId}

/-- A step in a derivation that goes on to `γ`. -/
theorem Derives.rewrite {rule : RuleId} {r : Rule} (known : t.rule? rule = some r)
    {before after : List SymbolId} (h : t.Derives (before ++ r.rhs ++ after) γ) :
    t.Derives (before ++ r.lhs :: after) γ :=
  .head (.rule known before after) h

/-- A step at the end of a derivation. -/
theorem Derives.extend {rule : RuleId} {r : Rule} (known : t.rule? rule = some r)
    {before after : List SymbolId} (h : t.Derives α (before ++ r.lhs :: after)) :
    t.Derives α (before ++ r.rhs ++ after) :=
  .tail h (.rule known before after)

/-- A derivation goes on between symbols that stay. -/
theorem Derives.context (h : t.Derives α β) (before after : List SymbolId) :
    t.Derives (before ++ α ++ after) (before ++ β ++ after) := by
  induction h with
  | refl => exact .refl
  | tail _ step ih =>
    cases step with
    | @rule _ r known b a =>
      have ih' : t.Derives (before ++ α ++ after) ((before ++ b) ++ r.lhs :: (a ++ after)) := by
        simpa using ih
      simpa using ih'.extend known

/-- A derivation goes on beside a symbol that stays. -/
theorem Derives.append_right (h : t.Derives α β) (x : SymbolId) : t.Derives (α ++ [x]) (β ++ [x]) :=
  h.context [] [x]

/-- Symbols that no right side brings in do not appear. -/
theorem Derives.not_mem {x : SymbolId} (hx : ∀ {rule r}, t.rule? rule = some r → x ∉ r.rhs)
    (h : t.Derives α β) (hα : x ∉ α) : x ∉ β := by
  induction h with
  | refl => exact hα
  | tail _ step ih =>
    obtain ⟨known, before, after⟩ := step
    simp only [List.mem_append, List.mem_cons, not_or] at ih ⊢
    exact ⟨⟨ih.1, hx known⟩, ih.2.2⟩

end Tables

/-! ### Cells -/

/-- A token that counts in a derivation, and the hidden tokens between it and the next one. -/
structure Cell where
  token : Token
  trivia : List Token

namespace Cell

/-- The tokens of a cell. -/
def tokens (c : Cell) : List Token := c.token :: c.trivia

/-- The symbol of a cell. -/
def symbol (c : Cell) : SymbolId := c.token.symbol

/-- The token of the cell is a terminal that is not hidden, and those after it are hidden. -/
structure Proper (t : Tables) (c : Cell) : Prop where
  visible : t.isHidden c.symbol = false
  terminal : t.isNonTerminal c.symbol = false
  hidden : ∀ tok ∈ c.trivia, t.isHidden tok.symbol = true

/-- Tokens are cut into hidden ones at the front and cells. -/
theorem exists_cut {t : Tables} {ts : List Token}
    (hts : ∀ tok ∈ ts, t.isNonTerminal tok.symbol = false) :
    ∃ (trivia : List Token) (cells : List Cell),
    ts = trivia ++ cells.flatMap Cell.tokens ∧ (∀ tok ∈ trivia, t.isHidden tok.symbol = true) ∧
      (∀ c ∈ cells, c.Proper t) ∧
      (ts.filter fun tok => !t.isHidden tok.symbol).map Token.symbol = cells.map symbol := by
  induction ts with
  | nil => exact ⟨[], [], rfl, by simp, by simp, rfl⟩
  | cons tok ts ih =>
    rw [List.forall_mem_cons] at hts
    obtain ⟨trivia, cells, rfl, htrivia, hcells, hsymbols⟩ := ih hts.2
    cases hh : t.isHidden tok.symbol with
    | true =>
      refine ⟨tok :: trivia, cells, rfl, by simpa [hh] using htrivia, hcells, ?_⟩
      rw [List.filter_cons_of_neg (by simp [hh]), hsymbols]
    | false =>
      refine ⟨[], ⟨tok, trivia⟩ :: cells, rfl, by simp, ?_, ?_⟩
      · rw [List.forall_mem_cons]
        exact ⟨⟨hh, hts.1, htrivia⟩, hcells⟩
      · rw [List.filter_cons_of_pos (by simp [hh]), List.map_cons, hsymbols]
        rfl

end Cell

/-! ### Trees -/

/-- A row of derivation trees, by first tree and the trees after it. -/
inductive Forest where
  | nil
  | leaf (cell : Cell) (rest : Forest)
  | node (rule : RuleId) (children rest : Forest)

namespace Forest

variable {t : Tables} {α β : List SymbolId}

/-- The leaves of the trees. -/
def cells : Forest → List Cell
  | nil => []
  | leaf cell rest => cell :: rest.cells
  | node _ children rest => children.cells ++ rest.cells

/-- The tokens of the leaves. -/
def tokens (f : Forest) : List Token := f.cells.flatMap Cell.tokens

/-- The symbols of the leaves. -/
def word (f : Forest) : List SymbolId := f.cells.map Cell.symbol

/-- The trees apply rules, and the symbols at their roots are the given ones. -/
inductive Derived (t : Tables) : Forest → List SymbolId → Prop where
  | nil : Derived t nil []
  | leaf {cell : Cell} {rest : Forest} {α : List SymbolId} (proper : cell.Proper t)
      (later : Derived t rest α) : Derived t (leaf cell rest) (cell.symbol :: α)
  | node {rule : RuleId} {r : Rule} {children rest : Forest} {α : List SymbolId}
      (known : t.rule? rule = some r) (below : Derived t children r.rhs)
      (later : Derived t rest α) :
      Derived t (node rule children rest) (r.lhs :: α)

/-- A row of trees can be cut anywhere. -/
theorem Derived.split : ∀ {α : List SymbolId} {f : Forest}, Derived t f (α ++ β) →
    ∃ a b, Derived t a α ∧ Derived t b β ∧ f.cells = a.cells ++ b.cells
  | [], f, h => ⟨.nil, f, .nil, h, rfl⟩
  | x :: α, f, h => by
    cases h with
    | @leaf cell _ _ proper later =>
      obtain ⟨a, b, ha, hb, hcells⟩ := Derived.split later
      exact ⟨.leaf cell a, b, .leaf proper ha, hb, by rw [cells, cells, hcells]; rfl⟩
    | @node rule r children _ _ known below later =>
      obtain ⟨a, b, ha, hb, hcells⟩ := Derived.split later
      refine ⟨.node rule children a, b, .node known below ha, hb, ?_⟩
      rw [cells, cells, hcells, List.append_assoc]

/-- The trees over a right side go under a node of the rule. -/
theorem Derived.fold {rule : RuleId} {r : Rule} (known : t.rule? rule = some r)
    {after : List SymbolId} :
    ∀ {before : List SymbolId} {f : Forest}, Derived t f (before ++ r.rhs ++ after) →
      ∃ f', Derived t f' (before ++ r.lhs :: after) ∧ f'.cells = f.cells
  | [], f, h => by
    obtain ⟨a, b, ha, hb, hcells⟩ := h.split
    exact ⟨.node rule a b, .node known ha hb, by rw [cells, hcells]⟩
  | x :: before, f, h => by
    cases h with
    | @leaf cell _ _ proper later =>
      obtain ⟨f', hf', hcells⟩ := Derived.fold known later
      exact ⟨.leaf cell f', .leaf proper hf', by rw [cells, cells, hcells]⟩
    | @node rule' r' children _ _ known' below later =>
      obtain ⟨f', hf', hcells⟩ := Derived.fold known later
      exact ⟨.node rule' children f', .node known' below hf', by rw [cells, cells, hcells]⟩

/-- The cells alone are a row of trees. -/
theorem exists_of_cells {cells : List Cell} (h : ∀ c ∈ cells, c.Proper t) :
    ∃ f, Derived t f (cells.map Cell.symbol) ∧ f.cells = cells := by
  induction cells with
  | nil => exact ⟨.nil, .nil, rfl⟩
  | cons c cells ih =>
    rw [List.forall_mem_cons] at h
    obtain ⟨f, hf, hcells⟩ := ih h.2
    exact ⟨.leaf c f, .leaf h.1 hf, by rw [Forest.cells, hcells]⟩

/-- A derivation of the symbols of some cells has trees over these cells. -/
theorem exists_of_derives {cells : List Cell} (hcells : ∀ c ∈ cells, c.Proper t)
    (h : t.Derives α (cells.map Cell.symbol)) : ∃ f, Derived t f α ∧ f.cells = cells := by
  induction h using Relation.ReflTransGen.head_induction_on with
  | refl => exact exists_of_cells hcells
  | head step _ ih =>
    obtain ⟨known, before, after⟩ := step
    obtain ⟨f, hf, hcells⟩ := ih
    obtain ⟨f', hf', hcells'⟩ := hf.fold known
    exact ⟨f', hf', hcells'.trans hcells⟩

end Forest

end TableParser
