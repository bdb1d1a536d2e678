import TableParser.Proofs.Token.Source
import TableParser.Proofs.Tree.Leaves
/-!
A source with whole lines put before it.

Columns start again in each line, so what is scanned after some lines is what is scanned without
them, further down: every place has the same column, and as many lines and bytes more as were put
before it.

    alone             a 1:1 +0     b 1:3 +2     c 2:1 +4
    after "x⏎y⏎"      a 3:1 +4     b 3:3 +6     c 4:1 +8

A scan looks at what is left and carries its place along, and an inner node takes its place from its
children, so both move as a whole.

Main statements: `TokenStream.ahead_move` and `Node.move_branch`.
-/

namespace TableParser

variable {t : Tables} (lines bytes : Nat)

/-- The place of the same column, some lines and bytes later. -/
def Position.move (p : Position) : Position := ⟨p.line + lines, p.column, p.offset + bytes⟩

theorem Position.step_move (p : Position) (c : Char) :
    (p.move lines bytes).step c = (p.step c).move lines bytes := by
  by_cases hc : c = '\n'
  · simp [step, move, hc, Nat.add_right_comm]
  · simp [step, move, hc, Nat.add_right_comm]

theorem Position.after_move (p : Position) (text : String) :
    (p.move lines bytes).after text = (p.after text).move lines bytes := by
  have hfold : ∀ (cs : List Char) (p : Position),
      cs.foldl step (p.move lines bytes) = (cs.foldl step p).move lines bytes := by
    intro cs
    induction cs with
    | nil => intro p; rfl
    | cons c cs ih => intro p; rw [List.foldl_cons, step_move, ih, List.foldl_cons]
  exact hfold text.toList p

/-- The same token at the moved place. -/
def Token.move (tok : Token) : Token := { tok with position := tok.position.move lines bytes }

/-! ### Scans -/

/-- The scan of another source that has the same left, at the moved place. -/
def Scanner.move (source : String) (s : Scanner) : Scanner :=
  ⟨source, s.rest, s.position.move lines bytes⟩

theorem Scanner.next_move (source : String) (s : Scanner) : (s.move lines bytes source).next t =
    ((s.next t).1.move lines bytes, (s.next t).2.move lines bytes source) := by
  obtain ⟨_, rest, p⟩ := s
  cases rest with
  | nil => rfl
  | cons c cs =>
    simp only [move, next, Position.after_move]
    rfl

/-- What is left has the same tokens, at the moved places. -/
theorem TokenStream.ahead_move (source : String) (s : Scanner) :
    (ofScanner t (s.move lines bytes source)).ahead =
      (ofScanner t s).ahead.map (Token.move lines bytes) := by
  induction s using scan_induction (t := t) with
  | last s h =>
    have hmoved : ((s.move lines bytes source).next t).1.symbol = t.endOfStream := by
      rw [Scanner.next_move]
      exact h
    rw [ofScanner_last h, ofScanner_last hmoved]
    rfl
  | more s h ih =>
    have hmoved : ((s.move lines bytes source).next t).1.symbol ≠ t.endOfStream := by
      rw [Scanner.next_move]
      exact h
    rw [ofScanner_more h, ofScanner_more hmoved, Scanner.next_move, List.map_cons, ih]

/-! ### Trees -/

namespace Node

mutual

/-- The tree with every node at the moved place, and otherwise as it is. -/
def move : Node → Node
  | mk l cs => mk { l with position := l.position.move lines bytes } (moveAll cs)

/-- The trees, one by one. -/
def moveAll : List Node → List Node
  | [] => []
  | n :: rest => n.move :: moveAll rest

end

theorem moveAll_eq_map (ns : List Node) : moveAll lines bytes ns = ns.map (move lines bytes) := by
  induction ns with
  | nil => rw [moveAll, List.map_nil]
  | cons n ns ih => rw [moveAll, ih, List.map_cons]

theorem move_mk (l : Label) (cs : List Node) : (mk l cs).move lines bytes =
    mk { l with position := l.position.move lines bytes } (cs.map (move lines bytes)) := by
  rw [move, moveAll_eq_map]

theorem label_move (n : Node) :
    (n.move lines bytes).label =
      { n.label with position := n.label.position.move lines bytes } := by
  obtain ⟨l, cs⟩ := n
  rw [move_mk]
  rfl

theorem stop_move (n : Node) : (n.move lines bytes).stop = n.stop + bytes := by
  rw [stop, label_move, stop]
  exact Nat.add_right_comm _ _ _

/-- An inner node starts with its first child and ends with its last one. -/
theorem branch_eq {cs : List Node} {first last : Node} (hfirst : cs.head? = some first)
    (hlast : cs.getLast? = some last) (symbol : String) (id : SymbolId) (collapsed : Bool)
    (substituteFor : Option String) (p : Position) : branch symbol id collapsed substituteFor p cs =
      mk { symbol, id, collapsed, substituteFor, position := first.label.position,
           length := last.stop - first.label.position.offset } cs := by
  rw [branch, updateSpan, hfirst, hlast]

/-- So it moves with its children. -/
theorem move_branch {cs : List Node} (hne : cs ≠ []) (symbol : String) (id : SymbolId)
    (collapsed : Bool) (substituteFor : Option String) (p : Position) :
    (branch symbol id collapsed substituteFor p cs).move lines bytes =
      branch symbol id collapsed substituteFor p (cs.map (move lines bytes)) := by
  obtain ⟨first, rest, rfl⟩ := List.exists_cons_of_ne_nil hne
  have hlast := List.getLast?_eq_some_getLast hne
  have hmoved : ((first :: rest).map (move lines bytes)).getLast? =
      some (((first :: rest).getLast hne).move lines bytes) := by
    rw [List.getLast?_map, hlast]
    rfl
  rw [branch_eq rfl hlast, branch_eq rfl hmoved, move_mk, stop_move, label_move]
  simp only [Position.move, Nat.add_sub_add_right]

end Node

end TableParser
