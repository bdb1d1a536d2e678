import TableParser.Token.Basic
/-!
Parse trees.

A node has a label and children. A leaf carries the input it stands for; an inner node spans its
children. The functions on trees below keep the nodes still to visit on a list, so that they work at
any depth; `preorder`, `depths` and `identical` are the plain recursive readings of the same things.
-/

namespace TableParser

/-- What a node says of itself. -/
structure Label where
  symbol : String
  id : SymbolId
  /-- The input that a leaf stands for. -/
  value : Option String := none
  hidden : Bool := false
  collapsed : Bool := false
  error : Bool := false
  /-- The name of the symbol that this node's symbol was put in place of. -/
  substituteFor : Option String := none
  position : Position
  /-- The length in bytes of the input that the node spans. -/
  length : Nat
  deriving DecidableEq, Repr, Inhabited

/-- A parse tree. -/
inductive Node where
  | mk (label : Label) (children : List Node)
  deriving Repr, Inhabited

namespace Node

/-- What the node says of itself. -/
def label : Node → Label
  | mk l _ => l

/-- The trees below the node. -/
def children : Node → List Node
  | mk _ cs => cs

/-- Whether the node stands for input of its own. -/
def isLeaf (n : Node) : Bool := n.label.value.isSome

/-- Whether the node counts in the derivation. -/
def isStructural (n : Node) : Bool := !n.label.hidden && !n.label.error

/-- The offset where the input of the node ends. -/
def stop (n : Node) : Nat := n.label.position.offset + n.label.length

/-- Takes place and length from the children; a leaf and a childless node stay as they are. -/
def updateSpan : Node → Node
  | mk l cs =>
    match l.value, cs.head?, cs.getLast? with
    | none, some first, some last =>
      mk { l with
        position := first.label.position
        length := last.stop - first.label.position.offset } cs
    | _, _, _ => mk l cs

/-- An inner node over children; without children it is empty, at `position`. -/
def branch (symbol : String) (id : SymbolId) (collapsed : Bool) (substituteFor : Option String)
    (position : Position) (children : List Node) : Node :=
  updateSpan (mk { symbol, id, collapsed, substituteFor, position, length := 0 } children)

/-! ### Plain recursion -/

mutual

/-- The nodes of a tree, each before its children. -/
def preorder : Node → List Node
  | mk l cs => mk l cs :: preorderAll cs

/-- The nodes of several trees, one tree after the other. -/
def preorderAll : List Node → List Node
  | [] => []
  | n :: rest => preorder n ++ preorderAll rest

end

mutual

/-- The nodes of a tree with their depths, each before its children. -/
def depths (depth : Nat) : Node → List (Nat × Node)
  | mk l cs => (depth, mk l cs) :: depthsAll (depth + 1) cs

/-- The nodes of several trees at one depth. -/
def depthsAll (depth : Nat) : List Node → List (Nat × Node)
  | [] => []
  | n :: rest => depths depth n ++ depthsAll depth rest

end

mutual

/-- Whether two trees are the same in every part. -/
def identical : Node → Node → Bool
  | mk l cs, mk l' cs' => l = l' && identicalAll cs cs'

/-- Whether two lists of trees are the same in every part. -/
def identicalAll : List Node → List Node → Bool
  | [], [] => true
  | n :: rest, n' :: rest' => identical n n' && identicalAll rest rest'
  | _, _ => false

end

/-! ### Walks -/

/-- The size of a list of trees still to visit. -/
theorem sizeOf_append (a b : List Node) : sizeOf (a ++ b) + 1 = sizeOf a + sizeOf b := by
  induction a with
  | nil => simp; omega
  | cons n a ih => simp only [List.cons_append, List.cons.sizeOf_spec]; omega

/-- A visit leaves less to visit, though the children are added. -/
theorem sizeOf_visit (n : Node) (rest : List Node) :
    sizeOf (n.children ++ rest) < sizeOf (n :: rest) := by
  have h := sizeOf_append n.children rest
  cases n with
  | mk l cs => simp only [children, List.cons.sizeOf_spec, mk.sizeOf_spec] at h ⊢; omega

/-- Folds `f` over the nodes of pending trees, each before its children. -/
def walk {α : Type} (f : α → Node → α) (acc : α) : List Node → α
  | [] => acc
  | n :: rest => walk f (f acc n) (n.children ++ rest)
termination_by pending => sizeOf pending
decreasing_by exact sizeOf_visit n rest

/-- The first node of pending trees that satisfies `p`. -/
def firstIn (p : Node → Bool) : List Node → Option Node
  | [] => none
  | n :: rest => if p n then some n else firstIn p (n.children ++ rest)
termination_by pending => sizeOf pending
decreasing_by exact sizeOf_visit n rest

/-- The nodes of a tree that satisfy `p`, each before its children. -/
def select (p : Node → Bool) (n : Node) : List Node :=
  (walk (fun acc m => if p m then m :: acc else acc) [] [n]).reverse

/-- The leaves in the order of the input. -/
def leaves (n : Node) : List Node := select isLeaf n

/-- The error nodes. -/
def errors (n : Node) : List Node := select (fun m => m.label.error) n

/-- Whether some node is an error. -/
def hasErrors (n : Node) : Bool := (firstIn (fun m => m.label.error) [n]).isSome

/-- The first node of a symbol. -/
def find (symbol : String) (n : Node) : Option Node :=
  firstIn (fun m => m.label.symbol == symbol) [n]

/-- All nodes of a symbol. -/
def findAll (symbol : String) (n : Node) : List Node :=
  select (fun m => m.label.symbol == symbol) n

/-- The number of nodes. -/
def count (n : Node) : Nat := walk (fun k _ => k + 1) 0 [n]

/-- The input of the leaves, joined. -/
def sourceText (n : Node) : String :=
  walk (fun text m => text ++ m.label.value.getD "") "" [n]

/-- The nodes of pending trees with their depths, added to `done`, which holds the last one
first. -/
def outlineFrom (done : List (Nat × Node)) : List (Nat × Node) → List (Nat × Node)
  | [] => done.reverse
  | (depth, n) :: rest =>
    outlineFrom ((depth, n) :: done) ((n.children.map fun c => (depth + 1, c)) ++ rest)
termination_by pending => sizeOf (pending.map Prod.snd)
decreasing_by
  simp only [List.map_append, List.map_map, List.map_cons, Function.comp_def, List.map_id']
  exact sizeOf_visit n _

/-- The nodes of a tree with their depths, each before its children. -/
def outline (n : Node) : List (Nat × Node) :=
  outlineFrom [] [(0, n)]

/-- The number of levels of a tree, one for a single node. -/
def levels (n : Node) : Nat :=
  n.outline.foldl (fun most (depth, _) => max most (depth + 1)) 0

/-! ### Equality -/

/-- Whether the pending pairs of trees are alike. -/
def sameAll : List (Node × Node) → Bool
  | [] => true
  | (a, b) :: rest =>
    if a.label = b.label ∧ a.children.length = b.children.length then
      sameAll (a.children.zip b.children ++ rest)
    else false
termination_by pending => sizeOf (pending.map Prod.fst)
decreasing_by
  have hab : a.label = b.label ∧ a.children.length = b.children.length := by assumption
  have hlen : (a.children.zip b.children).map Prod.fst = a.children :=
    List.map_fst_zip (Nat.le_of_eq hab.2)
  simp only [List.map_append, List.map_cons, hlen]
  exact sizeOf_visit a _

/-- Whether two trees are alike in every field of every node. -/
def same (a b : Node) : Bool := sameAll [(a, b)]

instance : BEq Node := ⟨same⟩

end Node

end TableParser
