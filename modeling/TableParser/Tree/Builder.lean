import TableParser.Engine.Basic
import TableParser.Tree.Node
/-!
From events to a tree.

The builder keeps a row of finished trees and a stack of frames for the non-terminals that are still
open. Tokens and errors add leaves to the row. A closed frame takes the trees that came since it was
opened; a reduction takes as many structural trees from the end of the row as its rule has symbols,
with the hidden and error leaves between them, and leaves those after them where they are:

    row       Scalar  ·blank·  Specifier  ·blank·  Value  ·comment·
    reduce    Scalar  ·blank·  StatementTail( Specifier ·blank· Value )  ·comment·

`Builder.build` is a fold over the events, so it has an answer for every list of events.
-/

namespace TableParser

/-- How a tree is shaped. -/
structure Shape where
  /-- Whether a one-symbol rule over a single inner node adds no node of its own. -/
  trim : Bool := true
  /-- Whether collapsed nodes dissolve into their parents and substitutes are reported. -/
  transform : Bool := true
  deriving DecidableEq, Repr, Inhabited

/-- A non-terminal that is still open: its rule, the number of trees in the row before it, and the
place of an empty node for it. -/
structure OpenRule where
  rule : RuleId
  base : Nat
  position : Position
  deriving DecidableEq, Repr

/-- A tree being built: the row of finished trees, the open non-terminals with the innermost first,
and the place where the last leaf ended. -/
structure Builder where
  nodes : Array Node := #[]
  frames : List OpenRule := []
  last : Position := .start

namespace Builder

/-! ### Nodes -/

/-- The symbol that a node reports, and the name of the one it stands in for. -/
def substitute (t : Tables) (shape : Shape) (s : SymbolId) : SymbolId × Option String :=
  match (t.symbol? s).bind GrammarSymbol.substitute with
  | some sub => if shape.transform then (sub, some (t.nameOf s)) else (s, none)
  | none => (s, none)

/-- Whether nodes of a symbol dissolve into their parents. -/
def isCollapsed (t : Tables) (s : SymbolId) : Bool :=
  (t.symbol? s).any GrammarSymbol.collapsed

/-- The leaf of a token. -/
def leaf (t : Tables) (shape : Shape) (tok : Token) : Node :=
  let (id, substituteFor) := substitute t shape tok.symbol
  .mk {
    symbol := t.nameOf id
    id
    value := some tok.text
    hidden := t.isHidden tok.symbol
    collapsed := isCollapsed t tok.symbol
    error := tok.symbol = t.error
    substituteFor
    position := tok.position
    length := tok.length } []

/-- The leaf of a syntax error. -/
def errorLeaf (t : Tables) (e : SyntaxError) : Node :=
  .mk {
    symbol := t.nameOf t.error
    id := t.error
    value := some e.text
    error := true
    position := e.position
    length := e.text.utf8ByteSize } []

/-- Whether a node gives way to its children. -/
def dissolves (n : Node) : Bool := n.label.collapsed && !n.isLeaf

/-- A node, or the children that it gives way to, before further nodes. The children of the last
node are used as they are, so a long list that grows at its front is not copied each time. -/
def spliceBefore (n : Node) (rest : List Node) : List Node :=
  if dissolves n then (if rest.isEmpty then n.children else n.children ++ rest) else n :: rest

/-- Puts the children of collapsed inner nodes in the nodes' places. The nodes have been built in
the same way, so one level is enough. -/
def splice (children : List Node) : List Node :=
  children.foldr spliceBefore []

theorem spliceBefore_eq (n : Node) (rest : List Node) :
    spliceBefore n rest = (if dissolves n then n.children else [n]) ++ rest := by
  rw [spliceBefore]
  cases rest <;> split <;> simp

/-- Splicing takes the nodes one by one. -/
theorem splice_eq_flatMap (children : List Node) :
    splice children = children.flatMap fun n => if dissolves n then n.children else [n] := by
  induction children with
  | nil => rfl
  | cons n rest ih => rw [splice, List.foldr_cons, spliceBefore_eq, ← splice, ih, List.flatMap_cons]

/-- The inner node of a symbol. -/
def wrap (t : Tables) (shape : Shape) (s : SymbolId) (position : Position)
    (children : List Node) : Node :=
  let (id, substituteFor) := substitute t shape s
  .branch (t.nameOf id) id (isCollapsed t s) substituteFor position
    (if shape.transform then splice children else children)

/-- Whether a one-symbol rule over this child adds no node of its own. -/
def isPromoted (child : Node) : Bool := !child.isLeaf || child.label.collapsed

/-- The node of a rule. -/
def ruleNode (t : Tables) (shape : Shape) (rule : RuleId) (position : Position)
    (children : List Node) : Node :=
  match t.rule? rule with
  | none => wrap t shape t.start position children
  | some r =>
    match children with
    | [only] =>
      if shape.trim && r.rhs.length = 1 && isPromoted only then only
      else wrap t shape r.lhs position children
    | _ => wrap t shape r.lhs position children

/-! ### The row -/

/-- The number of trees up to and with the last structural one among the first `n`. -/
def structuralEnd (nodes : Array Node) : Nat → Nat
  | 0 => 0
  | n + 1 => if nodes[n]?.any Node.isStructural then n + 1 else structuralEnd nodes n

/-- The number of trees before the last `count` structural ones among the first `n`. -/
def structuralStart (nodes : Array Node) : (count n : Nat) → Nat
  | _, 0 => 0
  | 0, n => n
  | count + 1, n + 1 =>
    if nodes[n]?.any Node.isStructural then structuralStart nodes count n
    else structuralStart nodes (count + 1) n

/-- The trees of the row from one number to another. -/
def between (nodes : Array Node) (start stop : Nat) : List Node :=
  (nodes.extract start stop).toList

/-- Ends the non-terminal of a frame. -/
def close (t : Tables) (shape : Shape) (nodes : Array Node) (frame : OpenRule) : Array Node :=
  let node := ruleNode t shape frame.rule frame.position (between nodes frame.base nodes.size)
  (nodes.shrink frame.base).push node

/-- Replaces the right side of a rule at the end of the row by its node. -/
def reduce (t : Tables) (shape : Shape) (rule : RuleId) (position : Position)
    (nodes : Array Node) : Array Node :=
  match (t.rule? rule).elim 0 fun r => r.rhs.length with
  | 0 => nodes.push (ruleNode t shape rule position [])
  | count =>
    let stop := structuralEnd nodes nodes.size
    let start := structuralStart nodes count stop
    let node := ruleNode t shape rule position (between nodes start stop)
    let trailing := between nodes stop nodes.size
    (nodes.shrink start).push node ++ trailing

/-- Takes in one event. -/
def feed (t : Tables) (shape : Shape) (b : Builder) : Event → Builder
  | .initial | .accept | .endDocument => b
  | .terminal tok | .shift tok =>
    { b with nodes := b.nodes.push (leaf t shape tok), last := tok.stop }
  | .error e =>
    { b with nodes := b.nodes.push (errorLeaf t e), last := e.position.after e.text }
  | .nonTerminal rule => { b with frames := ⟨rule, b.nodes.size, b.last⟩ :: b.frames }
  | .endNonTerminal _ =>
    match b.frames with
    | [] => b
    | frame :: outer => { b with nodes := close t shape b.nodes frame, frames := outer }
  | .reduce rule => { b with nodes := reduce t shape rule b.last b.nodes }

/-! ### The root -/

/-- A root with further trees before and after its children. -/
def absorb (root : Node) (before after : List Node) : Node :=
  Node.updateSpan (.mk root.label (before ++ root.children ++ after))

/-- The root of a row that is not empty. A single structural inner node takes in the leaves around
it; all else goes under a node of the start symbol. -/
def root (t : Tables) (shape : Shape) (position : Position) (nodes : List Node) : Node :=
  let before := nodes.takeWhile fun n => !n.isStructural
  match nodes.dropWhile fun n => !n.isStructural with
  | core :: after =>
    if core.isLeaf || after.any Node.isStructural then wrap t shape t.start position nodes
    else if before.isEmpty && after.isEmpty then core
    else absorb core before after
  | [] => wrap t shape t.start position nodes

/-- The tree of a row; there is none where nothing but an empty root was found. -/
def finish (t : Tables) (shape : Shape) (position : Position) (nodes : List Node) : Option Node :=
  match nodes with
  | [] => none
  | _ =>
    let n := root t shape position nodes
    if n.children.isEmpty && !n.isLeaf then none else some n

/-- The tree of a list of events. Non-terminals that are still open are closed at the end. -/
def build (t : Tables) (shape : Shape) (events : List Event) : Option Node :=
  let b := events.foldl (feed t shape) {}
  finish t shape b.last (b.frames.foldl (close t shape) b.nodes).toList

end Builder

namespace Engine

/-- Reads an engine to the end and builds the tree of its events. -/
def parse (t : Tables) (shape : Shape) (e : Engine) : Option Node × Engine :=
  let r := e.run t
  (Builder.build t shape r.1, r.2)

end Engine

/-! ### A builder to keep -/

/-- How far a tree builder is. -/
inductive BuildState where
  | idle | building | done
  deriving DecidableEq, Repr, Inhabited

/-- The name of a state. -/
def BuildState.name : BuildState → String
  | .idle => "Idle"
  | .building => "Building"
  | .done => "Done"

/-- A tree builder that knows whether it has been used. It is never seen while it is building. -/
structure TreeBuilder where
  shape : Shape := {}
  state : BuildState := .idle
  deriving DecidableEq, Repr, Inhabited

/-- Reads an engine to the end: the tree, the builder afterwards and the engine afterwards. -/
def TreeBuilder.build (t : Tables) (b : TreeBuilder) (e : Engine) :
    Option Node × TreeBuilder × Engine :=
  let r := e.parse t b.shape
  (r.1, { b with state := .done }, r.2)

/-! ### One input, several inputs -/

/-- How an input is parsed. -/
structure ParseOptions where
  shape : Shape := {}
  /-- Whether blanks and comments are kept in the tree. -/
  showHidden : Bool := false
  deriving DecidableEq, Repr, Inhabited

/-- The tree of an input. Only a grammar without the table of the strategy is an error: bad input
gives a tree with error nodes. -/
def parse (t : Tables) (strategy : Strategy) (options : ParseOptions) (source : String) :
    Except TableError (Option Node) := do
  let e ← Engine.start t strategy options.showHidden source
  return (e.parse t options.shape).1

/-- The trees of several inputs, in their order. -/
def parseAll (t : Tables) (strategy : Strategy) (options : ParseOptions) (sources : List String) :
    Except TableError (List (Option Node)) := do
  match strategy with
  | .predictive => let _ ← t.getPrediction
  | .shiftReduce => let _ ← t.getShiftReduce
  sources.mapM (parse t strategy options)

end TableParser
