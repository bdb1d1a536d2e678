import TableParser.Text.Quoted
import TableParser.Tree.Node
/-!
Trees as indented text: a line for each node with its symbol, the input of a leaf, the symbol it
stands in for, and its place.
-/

namespace TableParser.Node

/-- The line of a node at a depth. -/
def line (depth : Nat) (n : Node) : String :=
  let l := n.label
  "".pushn ' ' (2 * depth) ++ l.symbol
    ++ (l.value.elim "" fun v => " " ++ Quoted.encode v)
    ++ (l.substituteFor.elim "" fun s => " (for " ++ s ++ ")")
    ++ s!" @{l.position.line}:{l.position.column}\n"

/-- The text of a tree. -/
def display (n : Node) : String :=
  n.outline.foldl (fun text (depth, m) => text ++ m.line depth) ""

end TableParser.Node
