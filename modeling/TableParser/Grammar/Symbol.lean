/-!
Symbols and rules of a grammar.

A symbol is known by its place in the grammar's symbol list, a rule by its place in the rule list;
both places are 16-bit numbers. A symbol carries its name, its kind and a few notes for the tree
builder: free-form attributes, a symbol to report in its place, and whether its inner nodes dissolve
into their parent.
-/

namespace TableParser

/-- The place of a symbol in its grammar. -/
structure SymbolId where
  val : UInt16
  deriving DecidableEq, Repr, Inhabited

namespace SymbolId

/-- The place as a natural number. -/
def index (s : SymbolId) : Nat := s.val.toNat

/-- The symbol at a place below 65536. -/
def ofNat (n : Nat) : SymbolId := ⟨n.toUInt16⟩

/-- The short form that stands for a symbol without its grammar. -/
def display (s : SymbolId) : String := "#" ++ s.index.repr

end SymbolId

/-- The place of a rule in its grammar. -/
structure RuleId where
  val : UInt16
  deriving DecidableEq, Repr, Inhabited

namespace RuleId

/-- The place as a natural number. -/
def index (r : RuleId) : Nat := r.val.toNat

/-- The rule at a place below 65536. -/
def ofNat (n : Nat) : RuleId := ⟨n.toUInt16⟩

end RuleId

/-- A state of the character automaton or of the shift-reduce automaton. -/
abbrev StateId := UInt32

/-- What a symbol is for. Hidden symbols (blanks, comments) are scanned but take no part in the
derivation. -/
inductive SymbolKind where
  | nonTerminal | terminal | hidden | endOfStream | error
  deriving DecidableEq, Repr, Inhabited

namespace SymbolKind

/-- Every kind with its name in a written grammar, in the order of their numbers. -/
def names : List (SymbolKind × String) :=
  [(.nonTerminal, "non_terminal"), (.terminal, "terminal"), (.hidden, "hidden"),
   (.endOfStream, "end_of_stream"), (.error, "error")]

/-- The name of a kind in a written grammar. -/
def name : SymbolKind → String
  | .nonTerminal => "non_terminal"
  | .terminal => "terminal"
  | .hidden => "hidden"
  | .endOfStream => "end_of_stream"
  | .error => "error"

/-- The number of a kind in the compact form. -/
def code : SymbolKind → UInt8
  | .nonTerminal => 0
  | .terminal => 1
  | .hidden => 2
  | .endOfStream => 3
  | .error => 4

/-- The kind with a number. -/
def ofCode? (n : UInt8) : Option SymbolKind :=
  match n with
  | 0 => some .nonTerminal
  | 1 => some .terminal
  | 2 => some .hidden
  | 3 => some .endOfStream
  | 4 => some .error
  | _ => none

/-- The kind with a name. -/
def ofName? (s : String) : Option SymbolKind :=
  (names.find? fun p => p.2 == s).map Prod.fst

theorem ofCode?_code (k : SymbolKind) : ofCode? k.code = some k := by
  cases k <;> rfl

end SymbolKind

/-! ### Attributes -/

/-- Puts a pair into an association list that ascends by key, in place of the pair with that key. -/
def insertPair (key value : String) : List (String × String) → List (String × String)
  | [] => [(key, value)]
  | (k, v) :: rest =>
    if key < k then (key, value) :: (k, v) :: rest
    else if key = k then (key, value) :: rest
    else (k, v) :: insertPair key value rest

/-- The keys after an insertion are the old ones and the new one. -/
theorem key_of_mem_insertPair {key value : String} {p : String × String} :
    ∀ {l : List (String × String)}, p ∈ insertPair key value l → p.1 = key ∨ p ∈ l
  | [], h => by simp only [insertPair, List.mem_singleton] at h; exact .inl (h ▸ rfl)
  | (k, v) :: rest, h => by
    simp only [insertPair] at h
    split at h
    · rcases List.mem_cons.1 h with h | h
      · exact .inl (h ▸ rfl)
      · exact .inr h
    · split at h
      · rcases List.mem_cons.1 h with h | h
        · exact .inl (h ▸ rfl)
        · exact .inr (List.mem_cons_of_mem _ h)
      · rcases List.mem_cons.1 h with h | h
        · exact .inr (h ▸ List.mem_cons_self)
        · exact (key_of_mem_insertPair h).imp_right (List.mem_cons_of_mem _)

/-- An insertion keeps the keys ascending. -/
theorem pairwise_insertPair {key value : String} :
    ∀ {l : List (String × String)}, l.Pairwise (fun a b => a.1 < b.1) →
      (insertPair key value l).Pairwise (fun a b => a.1 < b.1)
  | [], _ => by simp [insertPair]
  | (k, v) :: rest, h => by
    obtain ⟨hk, hr⟩ := List.pairwise_cons.1 h
    simp only [insertPair]
    split
    · next hlt =>
      refine List.pairwise_cons.2 ⟨fun p hp => ?_, h⟩
      rcases List.mem_cons.1 hp with rfl | hp
      · exact hlt
      · exact String.lt_trans hlt (hk p hp)
    · next hge =>
      split
      · next heq =>
        subst heq
        exact List.pairwise_cons.2 ⟨hk, hr⟩
      · next hne =>
        refine List.pairwise_cons.2 ⟨fun p hp => ?_, pairwise_insertPair hr⟩
        rcases key_of_mem_insertPair hp with h1 | h1
        · by_cases hlt : k < key
          · exact h1 ▸ hlt
          · exact absurd (String.le_antisymm (String.not_lt.1 hlt) (String.not_lt.1 hge)) hne
        · exact hk p h1

/-- Free-form notes on a symbol, one value a key, ascending by key. -/
structure Attributes where
  entries : List (String × String)
  sorted : entries.Pairwise (fun a b => a.1 < b.1)
  deriving DecidableEq

namespace Attributes

/-- No notes. -/
def empty : Attributes := ⟨[], .nil⟩

instance : Inhabited Attributes := ⟨empty⟩

/-- Sets the value of a key. -/
def insert (a : Attributes) (key value : String) : Attributes :=
  ⟨insertPair key value a.entries, pairwise_insertPair a.sorted⟩

/-- The notes a list of pairs makes, a later pair winning over an earlier one with its key. -/
def ofList (pairs : List (String × String)) : Attributes :=
  pairs.foldl (fun a p => a.insert p.1 p.2) empty

/-- The value of a key. -/
def get? (a : Attributes) (key : String) : Option String :=
  (a.entries.find? fun p => p.1 == key).map Prod.snd

end Attributes

/-- A symbol of a grammar. -/
structure GrammarSymbol where
  name : String
  kind : SymbolKind
  attributes : Attributes := .empty
  /-- The symbol that a transformed tree reports in this one's place. -/
  substitute : Option SymbolId := none
  /-- Whether a transformed tree puts the children of such a node in the node's place. -/
  collapsed : Bool := false
  deriving DecidableEq, Inhabited

namespace GrammarSymbol

/-- Whether the symbol takes no part in the derivation. -/
def isHidden (s : GrammarSymbol) : Bool := s.kind = .hidden

/-- Whether the symbol has rules of its own. -/
def isNonTerminal (s : GrammarSymbol) : Bool := s.kind = .nonTerminal

end GrammarSymbol

/-- A rewriting rule: the left side becomes the right side. -/
structure Rule where
  lhs : SymbolId
  rhs : List SymbolId
  deriving DecidableEq, Repr, Inhabited

namespace Rule

/-- The length of a rule counts its left side too. -/
def length (r : Rule) : Nat := r.rhs.length + 1

/-- Whether the rule derives nothing. -/
def isEmptyProduction (r : Rule) : Bool := r.rhs.isEmpty

end Rule

end TableParser
