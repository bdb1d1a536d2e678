import TableParser.Proofs.Script.Document
import TableParser.Proofs.Script.Spans
/-!
The shape of trees of documents.

A document that is read without an error has one tree, with these nodes in it and no others:

    Config       a row of Statement and Block
    Statement    scalar    or    scalar Specifier scalar    or    scalar Specifier Block
    Block        "{", a row of Statement and Block, "}"

A scalar is a leaf Symbol, String, Integer or Real; a date is a Symbol that says so. Each statement
of the document has one node, and they stand in the order of the source.

Main statement: `tree_follows_schema`.
-/

namespace TableParser

@[simp] theorem Node.substituteFor_branch (symbol : String) (id : SymbolId) (collapsed : Bool)
    (substituteFor : Option String) (position : Position) (cs : List Node) :
    (branch symbol id collapsed substituteFor position cs).label.substituteFor = substituteFor := by
  rw [branch, updateSpan]
  split <;> rfl

namespace Script

open Node (preorderAll preorderAll_append preorderAll_cons leavesOf)

variable {n : Node} {ns ms : List Node}

/-! ### The schema -/

/-- A leaf of one of some names. -/
def IsLeafOf (names : List String) (n : Node) : Prop :=
  n.label.symbol ∈ names ∧ n.isLeaf = true ∧ n.children = []

/-- An inner node of one of some names. -/
def IsInnerOf (names : List String) (n : Node) : Prop :=
  n.label.symbol ∈ names ∧ n.isLeaf = false

/-- The names of scalars. -/
def scalarNames : List String := ["Symbol", "String", "Integer", "Real"]

/-- The names of statements. -/
def statementNames : List String := ["Statement", "Block"]

/-- What a statement can have below it. -/
inductive IsParts : List Node → Prop where
  | plain {v : Node} (value : IsLeafOf scalarNames v) : IsParts [v]
  | setting {k o v : Node} (key : IsLeafOf scalarNames k) (operator : IsLeafOf ["Specifier"] o)
      (value : IsLeafOf scalarNames v) : IsParts [k, o, v]
  | group {k o b : Node} (key : IsLeafOf scalarNames k) (operator : IsLeafOf ["Specifier"] o)
      (block : IsInnerOf ["Block"] b) : IsParts [k, o, b]

/-- What a node has below it, by its name. -/
inductive Follows : Node → Prop where
  | config {n : Node} (inner : IsInnerOf ["Config"] n)
      (row : ∀ c ∈ n.children, IsInnerOf statementNames c) :
      Follows n
  | statement {n : Node} (inner : IsInnerOf ["Statement"] n) (parts : IsParts n.children) :
      Follows n
  | block {n opening closing : Node} {body : List Node} (inner : IsInnerOf ["Block"] n)
      (braces : n.children = opening :: body ++ [closing]) (opens : IsLeafOf ["\x7b"] opening)
      (row : ∀ c ∈ body, IsInnerOf statementNames c) (closes : IsLeafOf ["\x7d"] closing) :
      Follows n
  | leaf {n : Node} (leaf : IsLeafOf ("\x7b" :: "\x7d" :: "Specifier" :: scalarNames) n) : Follows n

/-- A node follows the schema, and if it stands in for another symbol, it is a name that stands in
for a date. -/
structure Schematic (n : Node) : Prop where
  follows : Follows n
  substitutes : ∀ name ∈ n.label.substituteFor, name = "Date" ∧ IsLeafOf ["Symbol"] n

/-- A node that follows the schema has none of the names that collapse or are replaced. -/
theorem Follows.symbol_not_mem (h : Follows n) :
    n.label.symbol ∉ ["Statements", "StatementTail", "Scalar", "Value", "Date"] := by
  have hnames :
      ∀ name ∈ ["Config", "Statement", "Block", "\x7b", "\x7d", "Specifier"] ++ scalarNames,
        name ∉ ["Statements", "StatementTail", "Scalar", "Value", "Date"] := by decide
  refine hnames _ ?_
  cases h with
  | config inner | statement inner | block inner => simp [List.mem_singleton.1 inner.1]
  | leaf leaf => exact List.mem_append_right ["Config", "Statement", "Block"] leaf.1

/-! ### Nodes of a document -/

theorem isLeafOf_leaf {names : List String} {tok : Token}
    (h : (if tok.symbol = date then "Symbol" else tables.nameOf tok.symbol) ∈ names) :
    IsLeafOf names (leaf tok) :=
  ⟨h, rfl, rfl⟩

theorem isLeafOf_scalar {tok : Token} (h : tok.symbol ∈ scalars) :
    IsLeafOf scalarNames (leaf tok) := by
  have hnames : ∀ s ∈ scalars, (if s = date then "Symbol" else tables.nameOf s) ∈ scalarNames := by
    decide
  exact isLeafOf_leaf (hnames _ h)

theorem schematic_leaf {tok : Token} (h : tok.symbol ∈ lbrace :: rbrace :: specifier :: scalars) :
    Schematic (leaf tok) := by
  have hnames : ∀ s ∈ lbrace :: rbrace :: specifier :: scalars,
      (if s = date then "Symbol" else tables.nameOf s) ∈
        "\x7b" :: "\x7d" :: "Specifier" :: scalarNames := by decide
  refine ⟨.leaf (isLeafOf_leaf (hnames _ h)), fun name hname => ?_⟩
  rw [leaf, Node.label] at hname
  split at hname
  · next hdate =>
    exact ⟨(Option.some.inj hname).symm, isLeafOf_leaf
      (by rw [if_pos hdate]; exact List.mem_singleton_self _)⟩
  · cases hname

/-- All nodes of some trees follow the schema. -/
def AllSchematic (ns : List Node) : Prop := ∀ n ∈ preorderAll ns, Schematic n

theorem allSchematic_nil : AllSchematic [] := by
  rw [AllSchematic, Node.preorderAll_nil]
  exact List.forall_mem_nil _

theorem allSchematic_append : AllSchematic (ms ++ ns) ↔ AllSchematic ms ∧ AllSchematic ns := by
  rw [AllSchematic, preorderAll_append, List.forall_mem_append]
  rfl

theorem allSchematic_cons :
    AllSchematic (n :: ns) ↔ (Schematic n ∧ AllSchematic n.children) ∧ AllSchematic ns := by
  rw [AllSchematic, preorderAll_cons, List.forall_mem_cons, and_assoc, ← allSchematic_append]
  rfl

theorem allSchematic_leaf {tok : Token} (h : tok.symbol ∈ lbrace :: rbrace :: specifier :: scalars)
    (hns : AllSchematic ns) : AllSchematic (leaf tok :: ns) :=
  allSchematic_cons.2 ⟨⟨schematic_leaf h, allSchematic_nil⟩, hns⟩

/-- An inner node follows the schema with all that is below it, if its children do. -/
theorem allSchematic_branch {name : String} {id : SymbolId} {p : Position}
    (h : Follows (.branch name id false none p ms)) (hms : AllSchematic ms)
    (hns : AllSchematic ns) :
    AllSchematic (.branch name id false none p ms :: ns) := by
  refine allSchematic_cons.2
    ⟨⟨⟨h, fun substituted hsubstituted => ?_⟩, by rwa [Node.children_branch]⟩, hns⟩
  rw [Node.substituteFor_branch] at hsubstituted
  cases hsubstituted

theorem isInnerOf_branch {names : List String} {name : String} {id : SymbolId} {p : Position}
    (h : name ∈ names) : IsInnerOf names (.branch name id false none p ms) :=
  ⟨by rwa [Node.symbol_branch], Node.isLeaf_branch ..⟩

theorem allSchematic_statementNode (hparts : IsParts ms) (hms : AllSchematic ms)
    (hns : AllSchematic ns) :
    AllSchematic (statementNode ms :: ns) := by
  refine allSchematic_branch (.statement (isInnerOf_branch (List.mem_singleton_self _)) ?_) hms hns
  rwa [Node.children_branch]

theorem allSchematic_blockNode {opening closing : Token} (hopening : opening.symbol = lbrace)
    (hclosing : closing.symbol = rbrace) (hrow : ∀ n ∈ ms, IsInnerOf statementNames n)
    (hms : AllSchematic ms) (hns : AllSchematic ns) :
    AllSchematic (blockNode opening ms closing :: ns) := by
  refine allSchematic_branch (.block (isInnerOf_branch (List.mem_singleton_self _))
    (Node.children_branch ..) (isLeafOf_leaf (by rw [hopening]; decide)) hrow
    (isLeafOf_leaf (by rw [hclosing]; decide))) ?_ hns
  rw [allSchematic_append]
  exact ⟨allSchematic_leaf (by rw [hopening]; decide) hms,
    allSchematic_leaf (by rw [hclosing]; decide) allSchematic_nil⟩

namespace Document

variable {doc : Document}

theorem isInnerOf_nodes (doc : Document) : ∀ n ∈ doc.nodes, IsInnerOf statementNames n := by
  induction doc with
  | nil => exact List.forall_mem_nil _
  | plain _ _ ih | setting _ _ _ _ ih | group _ _ _ _ _ _ _ ih | braces _ _ _ _ _ ih =>
    exact List.forall_mem_cons.2 ⟨isInnerOf_branch (by decide), ih⟩

/-- The nodes of a document follow the schema. -/
theorem allSchematic_nodes (h : doc.Proper) : AllSchematic doc.nodes := by
  induction doc with
  | nil => exact allSchematic_nil
  | plain v rest ih =>
    have hv : v.symbol ∈ lbrace :: rbrace :: specifier :: scalars := by simp [h.1]
    exact allSchematic_statementNode (.plain (isLeafOf_scalar h.1))
      (allSchematic_leaf hv allSchematic_nil) (ih h.2)
  | setting k o v rest ih =>
    obtain ⟨hk, ho, hv, hrest⟩ := h
    refine allSchematic_statementNode
      (.setting (isLeafOf_scalar hk) (isLeafOf_leaf (by rw [ho]; decide)) (isLeafOf_scalar hv))
      ?_ (ih hrest)
    exact allSchematic_leaf (by simp [hk]) (allSchematic_leaf (by simp [ho])
      (allSchematic_leaf (by simp [hv]) allSchematic_nil))
  | group k o l body r rest ihb ih =>
    obtain ⟨hk, ho, hl, hbody, hr, hrest⟩ := h
    refine allSchematic_statementNode
      (.group (isLeafOf_scalar hk) (isLeafOf_leaf (by rw [ho]; decide))
      (isInnerOf_branch (List.mem_singleton_self _))) ?_ (ih hrest)
    exact allSchematic_leaf (by simp [hk]) (allSchematic_leaf (by simp [ho])
      (allSchematic_blockNode hl hr body.isInnerOf_nodes (ihb hbody) allSchematic_nil))
  | braces l body r rest ihb ih =>
    obtain ⟨hl, hbody, hr, hrest⟩ := h
    exact allSchematic_blockNode hl hr body.isInnerOf_nodes (ihb hbody) (ih hrest)

/-- The leaves of a document are those of its tokens, in their order. -/
theorem leavesOf_nodes (doc : Document) : leavesOf doc.nodes = doc.tokens.map leaf := by
  have hleaf : ∀ (tok : Token) (ns : List Node),
      leavesOf (leaf tok :: ns) = leaf tok :: leavesOf ns := by
    intro tok ns
    rw [Node.leavesOf_cons, Node.leavesOf_leaf rfl]
    rfl
  have hbranch : ∀ (name : String) (id : SymbolId) (p : Position) (ms ns : List Node),
      leavesOf (.branch name id false none p ms :: ns) = leavesOf ms ++ leavesOf ns := by
    intro name id p ms ns
    rw [Node.leavesOf_cons, Node.leavesOf_inner (Node.isLeaf_branch ..), Node.children_branch]
  induction doc with
  | nil => exact Node.leavesOf_nil
  | plain | setting | group | braces =>
    simp only [nodes, statementNode, blockNode, Node.leavesOf_append, Node.leavesOf_nil, tokens,
      List.map_cons, List.map_append, List.cons_append, List.append_assoc, List.nil_append, *]

end Document

/-! ### Trees -/

/-- A document that is read without an error has one tree, which follows the schema: its root is
`Config` and every node has below it what its name says. The root has one child for each statement,
in the order of the source, and the leaves are the tokens that are not hidden. -/
theorem tree_follows_schema {strategy : Strategy} {source : String}
    (h : ReadsClean strategy false source) :
    ∃ doc : Document, doc.Proper ∧ doc.tokens = visible source ∧
      (∀ other : Document, other.Proper → other.tokens = visible source → other = doc) ∧
      ∃ tree, parse tables strategy {} source = .ok tree ∧ (tree = none ↔ doc = .nil) ∧
        ∀ root ∈ tree, IsInnerOf ["Config"] root ∧ root.children = doc.nodes ∧
          root.leaves = doc.tokens.map leaf ∧ ∀ n ∈ root.preorder, Schematic n ∧
            n.label.symbol ∉ ["Statements", "StatementTail", "Scalar", "Value", "Date"] := by
  obtain ⟨doc, q, hdoc, htokens, hparse⟩ := exists_document h
  refine ⟨doc, hdoc, htokens, fun other hother hsame => ?_, _, hparse, ?_, fun root hroot => ?_⟩
  · have hclosed : Document.Closes [] := by rintro tok ⟨⟩
    exact (Document.unique hother hdoc hclosed hclosed (by rw [hsame, htokens])).1
  · rw [← Document.nodes_eq_nil, ← List.isEmpty_iff]
    split <;> simp [*]
  · split at hroot
    · cases hroot
    obtain rfl := Option.some.inj hroot
    have hinner : IsInnerOf ["Config"] (.branch "Config" config false none q doc.nodes) :=
      isInnerOf_branch (List.mem_singleton_self _)
    refine ⟨hinner, Node.children_branch .., ?_, fun n hn => ?_⟩
    · rw [Node.leaves_eq, Node.leavesOf_inner (Node.isLeaf_branch ..), Node.children_branch,
        doc.leavesOf_nodes]
    · rw [← Node.preorderAll_singleton] at hn
      have hall : AllSchematic [.branch "Config" config false none q doc.nodes] := by
        refine allSchematic_branch (.config hinner ?_) (Document.allSchematic_nodes hdoc)
          allSchematic_nil
        rw [Node.children_branch]
        exact doc.isInnerOf_nodes
      exact ⟨hall n hn, (hall n hn).follows.symbol_not_mem⟩

/-- A document with a date in a block. -/
def nested : String := "a=\x7b1.1.1 b\x7d"

/-- Its statements. -/
def nestedDocument : Document :=
  .group ⟨symbol, "a", .start⟩ ⟨specifier, "=", ⟨1, 2, 1⟩⟩ ⟨lbrace, "\x7b", ⟨1, 3, 2⟩⟩
    (.plain ⟨date, "1.1.1", ⟨1, 4, 3⟩⟩ (.plain ⟨symbol, "b", ⟨1, 10, 9⟩⟩ .nil))
      ⟨rbrace, "\x7d", ⟨1, 11, 10⟩⟩ .nil

theorem visible_nested : visible nested = nestedDocument.tokens := by
  rw [visible, TokenStream.ofSource]
  iterate 7 rw [TokenStream.ofScanner_more (by decide)]
  rw [TokenStream.ofScanner_last (by decide)]
  rfl

theorem tree_follows_schema_nested : ReadsClean .shiftReduce false nested ∧
    ∃ root, parse tables .shiftReduce {} nested = .ok (some root) ∧
      root.children = nestedDocument.nodes ∧ (∀ n ∈ root.preorder, Schematic n) ∧
      root.leaves.map (fun n => (n.label.symbol, n.label.substituteFor)) =
        [("Symbol", none), ("Specifier", none), ("\x7b", none), ("Symbol", some "Date"),
          ("Symbol", none), ("\x7d", none)] := by
  have hproper : nestedDocument.Proper := by simp [nestedDocument, Document.Proper, scalars]
  have hclean := readsClean_of_document hproper visible_nested.symm .shiftReduce false
  obtain ⟨doc, -, -, hunique, tree, hparse, hnone, htree⟩ := tree_follows_schema hclean
  obtain rfl := hunique nestedDocument hproper visible_nested.symm
  cases tree with
  | none => cases hnone.1 rfl
  | some root =>
    obtain ⟨-, hchildren, hleaves, hschema⟩ := htree root rfl
    refine ⟨hclean, root, hparse, hchildren, fun n hn => (hschema n hn).1, ?_⟩
    rw [hleaves]
    rfl

end Script

end TableParser
