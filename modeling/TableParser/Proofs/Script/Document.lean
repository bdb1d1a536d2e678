import Mathlib.Data.List.Forall2
import TableParser.Proofs.Script.Agreement
import TableParser.Proofs.Tree.Splice
/-!
The statements of a document.

The rules have symbols for lists and for what is left of a statement after its first scalar. A
reader sees less: a document is a row of statements, and there are four kinds of them.

    a        b = 1      c = { d }            { e }
    plain    setting    group over (plain)   braces over (plain)

The nodes of these symbols give way to their children, or are left out because a single child stands
for them, so the row of trees that a derivation makes holds, once it is spliced, one node for each
statement.

Main statements: `Document.exists_of_derived`, `Document.unique` and `Document.isSentence`.
-/

namespace TableParser

namespace Tables

variable {t : Tables} {α β v w : List SymbolId}

/-- Two derivations side by side. -/
theorem Derives.append (h : t.Derives α v) (h' : t.Derives β w) : t.Derives (α ++ β) (v ++ w) := by
  have hfirst := h.context [] β
  have hsecond := h'.context v []
  rw [List.append_nil, List.append_nil] at hsecond
  exact hfirst.trans hsecond

/-- The left side of a rule derives what its right side does. -/
theorem Derives.of_rule {rule : RuleId} {r : Rule} (known : t.rule? rule = some r)
    (h : t.Derives r.rhs w) :
    t.Derives [r.lhs] w :=
  Derives.rewrite known (by rwa [List.nil_append, List.append_nil])

end Tables

/-- The tokens of cells that are not hidden are those that the cells are named for. -/
theorem Cell.filter_tokens {t : Tables} {cells : List Cell} (h : ∀ c ∈ cells, c.Proper t) :
    (cells.flatMap Cell.tokens).filter (fun tok => !t.isHidden tok.symbol) =
      cells.map Cell.token := by
  induction cells with
  | nil => rfl
  | cons c cells ih =>
    rw [List.forall_mem_cons] at h
    have htrivia : c.trivia.filter (fun tok => !t.isHidden tok.symbol) = [] := by
      simpa using h.1.hidden
    have hvisible : t.isHidden c.token.symbol = false := h.1.visible
    rw [List.flatMap_cons, List.filter_append, ih h.2, Cell.tokens, List.map_cons]
    simp [hvisible, htrivia]

namespace Script

open Builder (splice splice_cons splice_singleton isPromoted ruleNode)

/-- A row of statements, by first statement and the statements after it. -/
inductive Document where
  | nil
  /-- A scalar by itself. -/
  | plain (scalar : Token) (rest : Document)
  /-- A scalar, an operator and a scalar. -/
  | setting (key operator value : Token) (rest : Document)
  /-- A scalar, an operator and statements in braces. -/
  | group (key operator opening : Token) (body : Document) (closing : Token) (rest : Document)
  /-- Statements in braces. -/
  | braces (opening : Token) (body : Document) (closing : Token) (rest : Document)

/-! ### Nodes of a document -/

/-- The leaf of a token. A date is a name that stands in for it. -/
def leaf (tok : Token) : Node :=
  .mk {
    symbol := if tok.symbol = date then "Symbol" else tables.nameOf tok.symbol
    id := if tok.symbol = date then symbol else tok.symbol
    value := some tok.text
    substituteFor := if tok.symbol = date then some "Date" else none
    position := tok.position
    length := tok.length } []

/-- The node of a statement over its parts. -/
def statementNode (parts : List Node) : Node :=
  .branch "Statement" statement false none .start parts

/-- The node of some statements in braces. -/
def blockNode (opening : Token) (body : List Node) (closing : Token) : Node :=
  .branch "Block" block false none .start (leaf opening :: body ++ [leaf closing])

namespace Document

/-- The tokens of the statements. -/
def tokens : Document → List Token
  | nil => []
  | plain v rest => v :: rest.tokens
  | setting k o v rest => k :: o :: v :: rest.tokens
  | group k o l body r rest => k :: o :: l :: (body.tokens ++ r :: rest.tokens)
  | braces l body r rest => l :: (body.tokens ++ r :: rest.tokens)

/-- The statements as nodes, one for each. -/
def nodes : Document → List Node
  | nil => []
  | plain v rest => statementNode [leaf v] :: rest.nodes
  | setting k o v rest => statementNode [leaf k, leaf o, leaf v] :: rest.nodes
  | group k o l body r rest =>
    statementNode [leaf k, leaf o, blockNode l body.nodes r] :: rest.nodes
  | braces l body r rest => blockNode l body.nodes r :: rest.nodes

/-- Every token stands where one of its kind has to. -/
def Proper : Document → Prop
  | nil => True
  | plain v rest => v.symbol ∈ scalars ∧ rest.Proper
  | setting k o v rest => k.symbol ∈ scalars ∧ o.symbol = specifier ∧
      v.symbol ∈ scalars ∧ rest.Proper
  | group k o l body r rest => k.symbol ∈ scalars ∧ o.symbol = specifier ∧ l.symbol = lbrace ∧
      body.Proper ∧ r.symbol = rbrace ∧ rest.Proper
  | braces l body r rest => l.symbol = lbrace ∧ body.Proper ∧ r.symbol = rbrace ∧ rest.Proper

/-- The statements of one document and then those of another. -/
def append : Document → Document → Document
  | nil, d => d
  | plain v rest, d => plain v (rest.append d)
  | setting k o v rest, d => setting k o v (rest.append d)
  | group k o l body r rest, d => group k o l body r (rest.append d)
  | braces l body r rest, d => braces l body r (rest.append d)

variable {a b : Document}

theorem tokens_append (a b : Document) : (a.append b).tokens = a.tokens ++ b.tokens := by
  induction a with
  | nil => rfl
  | plain | setting => simp only [append, tokens, List.cons_append, *]
  | group | braces => simp only [append, tokens, List.cons_append, List.append_assoc, *]

theorem nodes_append (a b : Document) : (a.append b).nodes = a.nodes ++ b.nodes := by
  induction a with
  | nil => rfl
  | plain | setting | group | braces => simp only [append, nodes, List.cons_append, *]

theorem nodes_eq_nil : a.nodes = [] ↔ a = nil := by
  cases a <;> simp [nodes]

theorem Proper.append (ha : a.Proper) (hb : b.Proper) : (a.append b).Proper := by
  induction a with
  | nil => exact hb
  | plain _ _ ih => exact ⟨ha.1, ih ha.2⟩
  | setting _ _ _ _ ih => exact ⟨ha.1, ha.2.1, ha.2.2.1, ih ha.2.2.2⟩
  | group _ _ _ _ _ _ _ ih =>
    obtain ⟨hk, ho, hl, hbody, hr, hrest⟩ := ha
    exact ⟨hk, ho, hl, hbody, hr, ih hrest⟩
  | braces _ _ _ _ _ ih => exact ⟨ha.1, ha.2.1, ha.2.2.1, ih ha.2.2.2⟩

end Document

/-- A document that is not empty starts with a token that opens a statement. -/
theorem Document.Proper.opens {doc : Document} (h : doc.Proper) (hne : doc ≠ .nil) :
    ∃ tok later, doc.tokens = tok :: later ∧ tok.symbol ∈ lbrace :: scalars := by
  cases doc with
  | nil => exact absurd rfl hne
  | plain | setting | group => exact ⟨_, _, rfl, List.mem_cons_of_mem _ h.1⟩
  | braces => exact ⟨_, _, rfl, List.mem_cons.2 (.inl h.1)⟩

/-! ### What each symbol stands for -/

section Reads

variable {x : SymbolId} {α : List SymbolId} {ts ts' : List Token} {ns ns' : List Node} {n : Node}
  {rule : RuleId} {r : Rule} {p : Position}

/-- Tokens and nodes of a scalar. -/
def IsScalar (ts : List Token) (ns : List Node) : Prop :=
  ∃ tok : Token, tok.symbol ∈ scalars ∧ ts = [tok] ∧ ns = [leaf tok]

/-- Tokens and nodes of statements in braces. -/
def IsBlock (ts : List Token) (ns : List Node) : Prop :=
  ∃ (opening : Token) (body : Document) (closing : Token), opening.symbol = lbrace ∧ body.Proper ∧
    closing.symbol = rbrace ∧ ts = opening :: (body.tokens ++ [closing]) ∧
    ns = [blockNode opening body.nodes closing]

/-- Tokens and nodes of statements. -/
def IsRow (ts : List Token) (ns : List Node) : Prop :=
  ∃ doc : Document, doc.Proper ∧ ts = doc.tokens ∧ ns = doc.nodes

/-- Tokens and nodes of what may follow the scalar that opens a statement. -/
def IsTail (ts : List Token) (ns : List Node) : Prop :=
  (ts = [] ∧ ns = []) ∨ ∃ (operator : Token) (ts' : List Token) (ns' : List Node),
    operator.symbol = specifier ∧
    (IsScalar ts' ns' ∨ IsBlock ts' ns') ∧ ts = operator :: ts' ∧ ns = leaf operator :: ns'

/-- The tokens and the nodes, once they are spliced, that a symbol can stand for. -/
def Reads (x : SymbolId) (ts : List Token) (ns : List Node) : Prop :=
  if x = config then ∃ (doc : Document) (p : Position), doc.Proper ∧ ts = doc.tokens ∧
    ns = [.branch "Config" config false none p doc.nodes]
  else if x = statements then IsRow ts ns
  else if x = statement then IsRow ts ns ∧ ns.length = 1
  else if x = statementTail then IsTail ts ns
  else if x = value then IsScalar ts ns ∨ IsBlock ts ns
  else if x = scalar then IsScalar ts ns
  else if x = block then IsBlock ts ns
  else ∃ tok : Token, tok.symbol = x ∧ ts = [tok] ∧ ns = [Builder.leaf tables {} tok]

/-- Tokens and nodes that a string of symbols can stand for. -/
def ReadsAll : List SymbolId → List Token → List Node → Prop
  | [], ts, ns => ts = [] ∧ ns = []
  | x :: α, ts, ns => ∃ ts₁ ns₁ ts₂ ns₂, ts = ts₁ ++ ts₂ ∧ ns = ns₁ ++ ns₂ ∧ Reads x ts₁ ns₁ ∧
      ReadsAll α ts₂ ns₂

theorem reads_terminal (h : tables.isNonTerminal x = false) :
    Reads x ts ns ↔ ∃ tok : Token, tok.symbol = x ∧ ts = [tok] ∧
      ns = [Builder.leaf tables {} tok] := by
  have hne : ∀ y : SymbolId, tables.isNonTerminal y = true → x ≠ y := by
    rintro y hy rfl
    exact Bool.false_ne_true (h.symm.trans hy)
  rw [Reads, if_neg (hne _ rfl), if_neg (hne _ rfl), if_neg (hne _ rfl), if_neg (hne _ rfl),
    if_neg (hne _ rfl), if_neg (hne _ rfl), if_neg (hne _ rfl)]

/-- The builder gives the leaf of a token that can stand in a document. -/
theorem leaf_eq {tok : Token} (h : tok.symbol ∈ lbrace :: rbrace :: specifier :: scalars) :
    Builder.leaf tables {} tok = leaf tok := by
  obtain ⟨s, text, p⟩ := tok
  simp only [scalars, List.mem_cons, List.not_mem_nil, or_false] at h
  rcases h with rfl | rfl | rfl | rfl | rfl | rfl | rfl | rfl <;> rfl

theorem IsRow.append (h : IsRow ts ns) (h' : IsRow ts' ns') : IsRow (ts ++ ts') (ns ++ ns') := by
  obtain ⟨a, ha, rfl, rfl⟩ := h
  obtain ⟨b, hb, rfl, rfl⟩ := h'
  exact ⟨a.append b, ha.append hb, (a.tokens_append b).symm, (a.nodes_append b).symm⟩

/-- A scalar and its tail are a statement. -/
theorem IsScalar.isRow (h : IsScalar ts ns) (h' : IsTail ts' ns') :
    IsRow (ts ++ ts') [statementNode (ns ++ ns')] := by
  obtain ⟨key, hkey, rfl, rfl⟩ := h
  rcases h' with ⟨rfl, rfl⟩ | ⟨operator, _, _, hop, ⟨v, hv, rfl, rfl⟩ | hblock, rfl, rfl⟩
  · exact ⟨.plain key .nil, ⟨hkey, trivial⟩, rfl, rfl⟩
  · exact ⟨.setting key operator v .nil, ⟨hkey, hop, hv, trivial⟩, rfl, rfl⟩
  · obtain ⟨l, body, r, hl, hbody, hr, rfl, rfl⟩ := hblock
    exact ⟨.group key operator l body r .nil, ⟨hkey, hop, hl, hbody, hr, trivial⟩, rfl, rfl⟩

/-- Statements in braces are a statement. -/
theorem IsBlock.isRow (h : IsBlock ts ns) : IsRow ts ns ∧ ns.length = 1 := by
  obtain ⟨l, body, r, hl, hbody, hr, rfl, rfl⟩ := h
  exact ⟨⟨.braces l body r .nil, ⟨hl, hbody, hr, trivial⟩, rfl, rfl⟩, rfl⟩

/-- A token of a kind of scalar is a scalar. -/
theorem isScalar_of_reads (hx : x ∈ scalars) (h : Reads x ts ns) : IsScalar ts ns := by
  have hkind : ∀ y ∈ scalars, tables.isNonTerminal y = false := by decide
  obtain ⟨tok, rfl, rfl, rfl⟩ := (reads_terminal (hkind x hx)).1 h
  have hplaced : tok.symbol ∈ lbrace :: rbrace :: specifier :: scalars :=
    List.mem_cons_of_mem _ (List.mem_cons_of_mem _ (List.mem_cons_of_mem _ hx))
  exact ⟨tok, hx, rfl, by rw [leaf_eq hplaced]⟩

theorem readsAll_singleton (h : ReadsAll [x] ts ns) : Reads x ts ns := by
  obtain ⟨ts, ns, _, _, rfl, rfl, hx, rfl, rfl⟩ := h
  rwa [List.append_nil, List.append_nil]

/-- The left side of a rule stands for what its right side does. -/
theorem reads_of_rule (hr : r ∈ rules) (h : ReadsAll r.rhs ts ns) (p : Position) :
    Reads r.lhs ts (if Builder.isCollapsed tables r.lhs = true ∨ r.rhs.length = 1 then ns
      else [.branch (tables.nameOf r.lhs) r.lhs false none p ns]) := by
  have hrow : ReadsAll [statement, statements] ts ns → IsRow ts ns := by
    rintro ⟨_, _, _, _, rfl, rfl, hfirst, hlater⟩
    exact IsRow.append hfirst.1 (readsAll_singleton hlater)
  simp only [rules, List.mem_cons, List.not_mem_nil, or_false] at hr
  rcases hr with rfl | rfl | rfl | rfl | rfl | rfl | rfl | rfl | rfl | rfl | rfl | rfl | rfl | rfl |
    rfl | rfl
  · obtain ⟨doc, hdoc, rfl, rfl⟩ := hrow h
    exact ⟨doc, p, hdoc, rfl, rfl⟩
  · obtain ⟨rfl, rfl⟩ := h
    exact ⟨.nil, p, trivial, rfl, rfl⟩
  · exact hrow h
  · obtain ⟨rfl, rfl⟩ := h
    exact ⟨.nil, trivial, rfl, rfl⟩
  · obtain ⟨_, ns, _, _, rfl, rfl, hscalar, htail⟩ := h
    refine ⟨?_, rfl⟩
    have hparts : ns ≠ [] := by
      obtain ⟨tok, -, -, rfl⟩ := hscalar
      exact List.cons_ne_nil (leaf tok) []
    rw [if_neg (by decide),
      Builder.branch_position p .start (List.append_ne_nil_of_left_ne_nil hparts _)]
    exact IsScalar.isRow hscalar (readsAll_singleton htail)
  · exact IsBlock.isRow (readsAll_singleton h)
  · obtain ⟨_, _, _, _, rfl, rfl, hop, hvalue⟩ := h
    obtain ⟨operator, hoperator, rfl, rfl⟩ := (reads_terminal rfl).1 hop
    rw [leaf_eq (by rw [hoperator]; decide)]
    exact .inr ⟨operator, _, _, hoperator, readsAll_singleton hvalue, rfl, rfl⟩
  · exact .inl h
  · exact .inl (readsAll_singleton h)
  · exact .inr (readsAll_singleton h)
  iterate 5 exact isScalar_of_reads (by decide) (readsAll_singleton h)
  · obtain ⟨_, _, _, _, rfl, rfl, hl, _, _, _, _, rfl, rfl, ⟨body, hbody, rfl, rfl⟩, hr⟩ := h
    obtain ⟨l, hopening, rfl, rfl⟩ := (reads_terminal rfl).1 hl
    obtain ⟨r, hclosing, rfl, rfl⟩ := (reads_terminal rfl).1 (readsAll_singleton hr)
    rw [leaf_eq (by rw [hopening]; decide), leaf_eq (by rw [hclosing]; decide), if_neg (by decide),
      Builder.branch_position p .start (by simp)]
    exact ⟨l, body, r, hopening, hbody, hclosing, rfl, rfl⟩

end Reads

/-! ### Trees of a derivation -/

section Trees

variable {f : Forest} {α : List SymbolId} {rule : RuleId} {r : Rule}

theorem mem_rules (known : tables.rule? rule = some r) : r ∈ rules :=
  List.mem_of_getElem? ((rule?_eq rule).symm.trans known)

theorem isCollapsed_terminal {s : SymbolId} (h : tables.isNonTerminal s = false) :
    Builder.isCollapsed tables s = false := by
  have hterminals : ∀ g ∈ symbols.drop 7, g.collapsed = false := by decide
  have hindex : 7 ≤ s.index := Nat.le_of_not_lt (of_decide_eq_false h)
  have hsymbol : tables.symbol? s = (symbols.drop 7)[s.index - 7]? := by
    rw [List.getElem?_drop, Nat.add_sub_cancel' hindex]
    exact List.getElem?_toArray
  rw [Builder.isCollapsed, hsymbol]
  cases hg : (symbols.drop 7)[s.index - 7]? with
  | none => rfl
  | some g => exact hterminals g (List.mem_of_getElem? hg)

/-- The node of a rule gives way to its children, or is left out for its only child, or stands for
its symbol. -/
theorem splice_node (known : tables.rule? rule = some r) {cs : List Node}
    (hcs : List.Forall₂ (fun x n => isPromoted n = tables.isNonTerminal x) r.rhs cs)
    (p : Position) :
    splice [ruleNode tables {} rule p cs] =
      if Builder.isCollapsed tables r.lhs = true ∨ r.rhs.length = 1 then splice cs
      else [.branch (tables.nameOf r.lhs) r.lhs false none p (splice cs)] := by
  have hrules : ∀ r ∈ rules, (Builder.isCollapsed tables r.lhs = true ∨
      ∀ x ∈ r.rhs, r.rhs = [x] → tables.isNonTerminal x = true) ∧
      Builder.substitute tables {} r.lhs = (r.lhs, none) := by decide
  obtain ⟨hunit, hsubstitute⟩ := hrules r (mem_rules known)
  by_cases hcollapsed : Builder.isCollapsed tables r.lhs = true
  · rw [if_pos (.inl hcollapsed), Builder.splice_ruleNode known hcollapsed]
  · by_cases hone : r.rhs.length = 1
    · rw [if_pos (.inr hone)]
      obtain ⟨x, hx⟩ := List.length_eq_one_iff.1 hone
      rw [hx] at hcs hunit
      obtain ⟨n, _, hn, hnil, rfl⟩ := List.forall₂_cons_left_iff.1 hcs
      rw [List.forall₂_nil_left_iff.1 hnil, Builder.ruleNode_promoted known hone]
      exact hn.trans (hunit.resolve_left hcollapsed x (List.mem_singleton_self x) rfl)
    · rw [if_neg (not_or.2 ⟨hcollapsed, hone⟩), Builder.ruleNode_eq_wrap known hone,
        splice_singleton, Builder.dissolves_wrap, if_neg hcollapsed, Builder.wrap, hsubstitute,
        eq_false_of_ne_true hcollapsed]
      rfl

/-- The row of a derivation has one tree for each symbol, with a node of its own where the symbol is
no terminal, and once it is spliced it is what the symbols stand for. -/
theorem readsAll_row (h : f.Derived tables α) (g : List Token) (p : Position) :
    List.Forall₂ (fun x n => isPromoted n = tables.isNonTerminal x) α
      (f.row tables {} false g p).1 ∧
      ReadsAll α (f.cells.map Cell.token) (splice (f.row tables {} false g p).1) := by
  induction h generalizing g p with
  | nil => exact ⟨.nil, rfl, rfl⟩
  | @leaf cell rest α proper _ later =>
    obtain ⟨hrooted, hreads⟩ := later cell.trivia cell.token.stop
    have hnot : isPromoted (Builder.leaf tables {} cell.token) = false :=
      isCollapsed_terminal proper.terminal
    refine ⟨.cons (hnot.trans proper.terminal.symm) hrooted, [cell.token], _, _, _, rfl,
      splice_cons .., ?_, hreads⟩
    rw [splice_singleton,
      if_neg (by simp [Builder.dissolves, Builder.leaf, Node.isLeaf, Node.label])]
    exact (reads_terminal proper.terminal).2 ⟨cell.token, rfl, rfl, rfl⟩
  | @node rule r children rest α known _ _ below later =>
    obtain ⟨hbelow, hchildren⟩ := below [] p
    obtain ⟨hrooted, hreads⟩ := later (children.left []) (children.row tables {} false [] p).2
    have hkind := (first_numbered _ (mem_numbered known)).1
    refine ⟨.cons ((Builder.isPromoted_ruleNode ..).trans hkind.symm) hrooted, _, _, _, _,
      List.map_append, splice_cons .., ?_, hreads⟩
    have hnode := splice_node known hbelow p
    have := reads_of_rule (mem_rules known) hchildren p
    rw [← hnode] at this
    exact this

/-- A derivation of a document has the statements of one below its root. -/
theorem Document.exists_of_derived (h : f.Derived tables [tables.start]) (g : List Token)
    (p : Position) :
    ∃ (doc : Document) (q : Position), doc.Proper ∧ f.cells.map Cell.token = doc.tokens ∧
      (f.row tables {} false g p).1 = [.branch "Config" config false none q doc.nodes] := by
  obtain ⟨hrooted, hreads⟩ := readsAll_row h g p
  have hreads := readsAll_singleton hreads
  generalize hα : [tables.start] = α at h
  cases h with
  | nil => cases hα
  | @leaf cell _ _ proper _ =>
    have hstart : cell.symbol = config := (List.cons.inj hα).1.symm
    have hterminal := proper.terminal
    rw [hstart] at hterminal
    cases hterminal
  | @node rule r children rest _ known _ later =>
    obtain ⟨hstart, rfl⟩ := List.cons.inj hα
    cases later
    obtain ⟨doc, q, hdoc, htokens, hnodes⟩ := hreads
    have hlength : ∀ r ∈ rules, r.lhs = config → r.rhs.length ≠ 1 := by decide
    have hroot : (Forest.node rule children .nil).row tables {} false g p =
        ([Builder.wrap tables {} r.lhs p (children.row tables {} false [] p).1],
          (children.row tables {} false [] p).2) := by
      rw [← Builder.ruleNode_eq_wrap known (hlength r (mem_rules known) hstart.symm)]
      rfl
    rw [hroot, ← hstart] at hnodes ⊢
    rw [splice_singleton, Builder.dissolves_wrap, if_neg (by decide)] at hnodes
    exact ⟨doc, q, hdoc, htokens, hnodes⟩

end Trees

namespace Document

variable {a b : Document} {v w : List Token}

/-- What stands after the statements of a document or of a block. -/
def Closes (w : List Token) : Prop := ∀ tok ∈ w.head?, tok.symbol = rbrace

/-- The kinds of first statements. -/
inductive Kind where
  | none | plain | setting | group | braces
  deriving DecidableEq

/-- The kind of the first statement. -/
def kind : Document → Kind
  | nil => .none
  | plain .. => .plain
  | setting .. => .setting
  | group .. => .group
  | braces .. => .braces

/-- The kind of statement that some symbols open. -/
def kindOf : List SymbolId → Kind
  | [] => .none
  | first :: later =>
    if first = rbrace then .none
    else if first = lbrace then .braces
    else if later.head? = some specifier then
      if later[1]? = some lbrace then .group else .setting
    else .plain

/-- The first tokens tell what kind of statement they open. -/
theorem kindOf_tokens (ha : a.Proper) (hv : Closes v) :
    kindOf ((a.tokens ++ v).map Token.symbol) = a.kind := by
  have hscalars : ∀ s ∈ scalars, s ≠ rbrace ∧ s ≠ lbrace ∧ s ≠ specifier := by decide
  -- no statement starts with an operator, and nothing after the last one does
  have hnext : ∀ {rest : Document}, rest.Proper →
      ((rest.tokens ++ v).map Token.symbol).head? ≠ some specifier := by
    intro rest hrest
    cases rest with
    | nil =>
      cases v with
      | nil => simp [tokens]
      | cons tok v => simp [tokens, hv tok rfl, show rbrace ≠ specifier by decide]
    | plain | setting | group => simpa [tokens] using (hscalars _ hrest.1).2.2
    | braces => simp [tokens, hrest.1, show lbrace ≠ specifier by decide]
  cases a with
  | nil =>
    cases v with
    | nil => rfl
    | cons tok v => simp [tokens, kindOf, kind, hv tok rfl]
  | plain scalar rest =>
    obtain ⟨hr, hl, -⟩ := hscalars _ ha.1
    rw [tokens, List.cons_append, List.map_cons, kindOf, if_neg hr, if_neg hl,
      if_neg (hnext ha.2), kind]
  | setting key operator value rest =>
    obtain ⟨hr, hl, -⟩ := hscalars _ ha.1
    have hvalue := (hscalars _ ha.2.2.1).2.1
    simp [tokens, kindOf, kind, hr, hl, hvalue, ha.2.1]
  | group key operator opening body closing rest =>
    obtain ⟨hr, hl, -⟩ := hscalars _ ha.1
    simp [tokens, kindOf, kind, hr, hl, ha.2.1, ha.2.2.1]
  | braces opening body closing rest =>
    simp [tokens, kindOf, kind, ha.1, show lbrace ≠ rbrace by decide]

theorem kind_eq (ha : a.Proper) (hb : b.Proper) (hv : Closes v) (hw : Closes w)
    (h : a.tokens ++ v = b.tokens ++ w) : a.kind = b.kind := by
  rw [← kindOf_tokens ha hv, h, kindOf_tokens hb hw]

/-- The tokens of a document are those of no other one. -/
theorem unique (ha : a.Proper) (hb : b.Proper) (hv : Closes v) (hw : Closes w)
    (h : a.tokens ++ v = b.tokens ++ w) : a = b ∧ v = w := by
  have hcloses : ∀ {tok : Token} {ts : List Token}, tok.symbol = rbrace → Closes (tok :: ts) := by
    rintro tok ts hsymbol _ ⟨⟩
    exact hsymbol
  induction a generalizing b v w with
  | nil =>
    have hkind := kind_eq ha hb hv hw h
    cases b <;> cases hkind
    exact ⟨rfl, h⟩
  | plain _ rest ih =>
    have hkind := kind_eq ha hb hv hw h
    cases b <;> cases hkind
    simp only [tokens, List.cons_append, List.cons.injEq] at h
    obtain ⟨rfl, h⟩ := h
    obtain ⟨rfl, rfl⟩ := ih ha.2 hb.2 hv hw h
    exact ⟨rfl, rfl⟩
  | setting _ _ _ rest ih =>
    have hkind := kind_eq ha hb hv hw h
    cases b <;> cases hkind
    simp only [tokens, List.cons_append, List.cons.injEq] at h
    obtain ⟨rfl, rfl, rfl, h⟩ := h
    obtain ⟨rfl, rfl⟩ := ih ha.2.2.2 hb.2.2.2 hv hw h
    exact ⟨rfl, rfl⟩
  | group _ _ _ body _ rest ihb ih =>
    have hkind := kind_eq ha hb hv hw h
    cases b <;> cases hkind
    simp only [tokens, List.cons_append, List.append_assoc, List.cons.injEq] at h
    obtain ⟨-, -, -, habody, har, harest⟩ := ha
    obtain ⟨-, -, -, hbbody, hbr, hbrest⟩ := hb
    obtain ⟨rfl, rfl, rfl, h⟩ := h
    obtain ⟨rfl, hclosing⟩ := ihb habody hbbody (hcloses har) (hcloses hbr) h
    obtain ⟨rfl, hlater⟩ := List.cons.inj hclosing
    obtain ⟨rfl, rfl⟩ := ih harest hbrest hv hw hlater
    exact ⟨rfl, rfl⟩
  | braces _ body _ rest ihb ih =>
    have hkind := kind_eq ha hb hv hw h
    cases b <;> cases hkind
    simp only [tokens, List.cons_append, List.append_assoc, List.cons.injEq] at h
    obtain ⟨-, habody, har, harest⟩ := ha
    obtain ⟨-, hbbody, hbr, hbrest⟩ := hb
    obtain ⟨rfl, h⟩ := h
    obtain ⟨rfl, hclosing⟩ := ihb habody hbbody (hcloses har) (hcloses hbr) h
    obtain ⟨rfl, hlater⟩ := List.cons.inj hclosing
    obtain ⟨rfl, rfl⟩ := ih harest hbrest hv hw hlater
    exact ⟨rfl, rfl⟩

end Document

/-! ### Sentences -/

namespace Document

variable {doc : Document}

/-- The symbols of the tokens. -/
def word (doc : Document) : List SymbolId := doc.tokens.map Token.symbol

theorem derives_scalar {s : SymbolId} (h : s ∈ scalars) : tables.Derives [scalar] [s] := by
  have hrules : ∀ s ∈ scalars, ∃ rule : RuleId, ruleAt rule = some ⟨scalar, [s]⟩ := by
    intro s hs
    simp only [scalars, List.mem_cons, List.not_mem_nil, or_false] at hs
    rcases hs with rfl | rfl | rfl | rfl | rfl
    exacts [⟨⟨10⟩, rfl⟩, ⟨⟨11⟩, rfl⟩, ⟨⟨12⟩, rfl⟩, ⟨⟨13⟩, rfl⟩, ⟨⟨14⟩, rfl⟩]
  obtain ⟨rule, hrule⟩ := hrules s h
  exact .of_rule ((rule?_eq rule).trans hrule) .refl

theorem derives_block {w : List SymbolId} (h : tables.Derives [statements] w) :
    tables.Derives [block] (lbrace :: w ++ [rbrace]) :=
  .of_rule (rule?_eq ⟨15⟩) (h.context [lbrace] [rbrace])

/-- A scalar and what follows it are a statement. -/
theorem derives_statement {s : SymbolId} {w : List SymbolId} (h : s ∈ scalars)
    (htail : tables.Derives [statementTail] w) : tables.Derives [statement] (s :: w) :=
  .of_rule (rule?_eq ⟨4⟩) ((derives_scalar h).append htail)

theorem derives_tail {w : List SymbolId} (h : tables.Derives [value] w) :
    tables.Derives [statementTail] (specifier :: w) :=
  .of_rule (rule?_eq ⟨6⟩) (by simpa using h.context [specifier] [])

/-- The statements of a document are derived from the symbol for them, and if there are any, from
the symbols for a first statement and the later ones. -/
theorem derives_word (h : doc.Proper) : tables.Derives [statements] doc.word ∧
    (doc = nil ∨ tables.Derives [statement, statements] doc.word) := by
  have hrow : ∀ {v : List SymbolId} {rest : Document}, tables.Derives [statement] v →
      tables.Derives [statements] rest.word → tables.Derives [statements] (v ++ rest.word) ∧
        tables.Derives [statement, statements] (v ++ rest.word) := fun hv hrest =>
    ⟨.of_rule (rule?_eq ⟨2⟩) (hv.append hrest), hv.append hrest⟩
  induction doc with
  | nil => exact ⟨.of_rule (rule?_eq ⟨3⟩) .refl, .inl rfl⟩
  | plain v rest ih =>
    obtain ⟨hall, hfirst⟩ := hrow (derives_statement h.1 (.of_rule (rule?_eq ⟨7⟩) .refl)) (ih h.2).1
    exact ⟨hall, .inr hfirst⟩
  | setting k o v rest ih =>
    obtain ⟨hk, ho, hv, hrest⟩ := h
    have hvalue : tables.Derives [value] [v.symbol] := .of_rule (rule?_eq ⟨8⟩) (derives_scalar hv)
    obtain ⟨hall, hfirst⟩ := hrow (derives_statement hk (derives_tail hvalue)) (ih hrest).1
    rw [← ho] at hall hfirst
    exact ⟨hall, .inr hfirst⟩
  | group k o l body r rest ihb ih =>
    obtain ⟨hk, ho, hl, hbody, hr, hrest⟩ := h
    have hvalue := Tables.Derives.of_rule (rule?_eq ⟨9⟩) (derives_block (ihb hbody).1)
    obtain ⟨hall, hfirst⟩ := hrow (derives_statement hk (derives_tail hvalue)) (ih hrest).1
    have hword : (group k o l body r rest).word =
        k.symbol :: specifier :: (lbrace :: body.word ++ [rbrace]) ++ rest.word := by
      simp [word, tokens, ho, hl, hr]
    rw [hword]
    exact ⟨hall, .inr hfirst⟩
  | braces l body r rest ihb ih =>
    obtain ⟨hl, hbody, hr, hrest⟩ := h
    obtain ⟨hall, hfirst⟩ :=
      hrow (.of_rule (rule?_eq ⟨5⟩) (derives_block (ihb hbody).1)) (ih hrest).1
    have hword : (braces l body r rest).word = lbrace :: body.word ++ [rbrace] ++ rest.word := by
      simp [word, tokens, hl, hr]
    rw [hword]
    exact ⟨hall, .inr hfirst⟩

theorem terminal_tokens (h : doc.Proper) :
    ∀ tok ∈ doc.tokens, tables.isNonTerminal tok.symbol = false := by
  have hscalars : ∀ s ∈ scalars, tables.isNonTerminal s = false := by decide
  have hother : tables.isNonTerminal specifier = false ∧ tables.isNonTerminal lbrace = false ∧
    tables.isNonTerminal rbrace = false := by decide
  induction doc with
  | nil => exact List.forall_mem_nil _
  | plain | setting | group | braces => simp_all [Proper, tokens, or_imp]

/-- The tokens of a document are a sentence. -/
theorem isSentence (h : doc.Proper) : tables.IsSentence doc.word := by
  refine ⟨?_, fun s hs => ?_⟩
  · rcases (derives_word h).2 with rfl | hfirst
    · exact .of_rule (rule?_eq ⟨1⟩) .refl
    · exact .of_rule (rule?_eq ⟨0⟩) hfirst
  · obtain ⟨tok, htok, rfl⟩ := List.mem_map.1 hs
    exact terminal_tokens h tok htok

end Document

/-! ### Documents that are read without an error -/

section Source

variable {strategy : Strategy} {source : String} {f : Forest} {g : List Token}

/-- The tokens of a source that are not hidden. -/
def visible (source : String) : List Token :=
  (TokenStream.ofSource tables source).shown tables false

/-- The tree of a row that is one inner node. -/
theorem finish_singleton {n : Node} (hleaf : n.isLeaf = false) (hstructural : n.isStructural = true)
    (p : Position) :
    Builder.finish tables {} p [n] = if n.children.isEmpty then none else some n := by
  have hroot : Builder.root tables {} p [n] = n := by
    rw [Builder.root, List.dropWhile_cons_of_neg (by simp [hstructural]),
      List.takeWhile_cons_of_neg (by simp [hstructural])]
    simp [hleaf]
  rw [Builder.finish.eq_2 _ _ _ _ (by simp), hroot, hleaf, Bool.not_false, Bool.and_true]

/-- The tree of a sentence is that of the row of its trees. -/
theorem build_eventsOf (hf : f.Derived tables [tables.start])
    (hok : ∀ c ∈ f.cells, c.symbol ≠ tables.error) (g : List Token) (strategy : Strategy) :
    Builder.build tables {} (eventsOf false f g strategy) =
      Builder.finish tables {} (f.row tables {} false g .start).2
        (f.row tables {} false g .start).1 := by
  have hopened : Builder.build tables {} (eventsOf false f g .predictive) =
      Builder.finish tables {} (f.row tables {} false g .start).2
        (f.row tables {} false g .start).1 := by
    rw [Builder.build, eventsOf, shownAs, if_neg Bool.false_ne_true, List.append_nil,
      show ({} : Builder) = ⟨([] : List Node).toArray, [], .start⟩ from rfl, Builder.foldl_opened]
    rfl
  cases strategy with
  | predictive => exact hopened
  | shiftReduce => exact (Builder.build_agree hf hok g).trans hopened

/-- The tokens of a source that is a row of trees after hidden tokens. -/
theorem visible_eq {α : List SymbolId}
    (hahead : (TokenStream.ofSource tables source).ahead = g ++ f.tokens)
    (hg : ∀ tok ∈ g, tables.isHidden tok.symbol = true) (hf : f.Derived tables α) :
    visible source = f.cells.map Cell.token := by
  have hnone : g.filter (fun tok => !tables.isHidden tok.symbol) = [] := by simpa using hg
  rw [visible, TokenStream.shown, hahead]
  simp only [Bool.false_or]
  rw [List.filter_append, hnone, List.nil_append, Forest.tokens, Cell.filter_tokens hf.proper]

/-- A source that is read without an error is a document, and its tree has the statements below the
root. -/
theorem exists_document (h : ReadsClean strategy false source) :
    ∃ (doc : Document) (q : Position), doc.Proper ∧ doc.tokens = visible source ∧
      parse tables strategy {} source =
        .ok (if doc.nodes.isEmpty then none
          else some (.branch "Config" config false none q doc.nodes)) := by
  obtain ⟨g, f, hahead, hg, hf, hok⟩ := exists_forest (sentence_of_readsClean h)
  obtain ⟨doc, q, hdoc, htokens, hrow⟩ := Document.exists_of_derived hf g .start
  refine ⟨doc, q, hdoc, ?_, ?_⟩
  · rw [visible_eq hahead hg hf, htokens]
  · have hstructural : (Node.branch "Config" config false none q doc.nodes).isStructural =
        true := by
      rw [Node.isStructural, Node.hidden_branch, Node.error_branch]
      rfl
    rw [parse_eventsOf hf hahead hg hok, build_eventsOf hf hok, hrow,
      finish_singleton (Node.isLeaf_branch ..) hstructural,
      Node.children_branch]

/-- A source whose tokens, less the hidden ones, are those of a document is read without an
error. -/
theorem readsClean_of_document {doc : Document} (h : doc.Proper)
    (htokens : doc.tokens = visible source) (strategy : Strategy) (showHidden : Bool) :
    ReadsClean strategy showHidden source := by
  refine readsClean_of_sentence ?_ strategy showHidden
  have hword : (TokenStream.ofSource tables source).word tables = doc.word := by
    rw [Document.word, htokens]; rfl
  rw [hword]
  exact Document.isSentence h

/-- The tree of a document has its statements below the root. -/
theorem parse_of_document {doc : Document} (h : doc.Proper) (htokens : doc.tokens = visible source)
    (strategy : Strategy) : ∃ q : Position, parse tables strategy {} source =
      .ok (if doc.nodes.isEmpty then none
        else some (.branch "Config" config false none q doc.nodes)) := by
  obtain ⟨other, q, hother, hsame, hparse⟩ :=
    exists_document (readsClean_of_document h htokens strategy false)
  have hclosed : Document.Closes [] := by rintro tok ⟨⟩
  obtain ⟨rfl, -⟩ := Document.unique hother h hclosed hclosed (by rw [hsame, htokens])
  exact ⟨q, hparse⟩

end Source

end Script

end TableParser
