import TableParser.Grammar.Automaton
import TableParser.Grammar.Error
import TableParser.Grammar.ParseTable
/-!
Everything that scanning and parsing need to know of one grammar.

A `Tables` value is built from a written grammar (`Asset.load`), which checks it. The look-ups below
are total: an id that the grammar does not have gives `none`, and the name `?`.
-/

namespace TableParser

/-- The tables of one grammar. -/
structure Tables where
  name : String
  version : UInt32
  symbols : Array GrammarSymbol
  /-- The non-terminals are the symbols with ids below this number. -/
  nonTerminals : Nat
  start : SymbolId
  endOfStream : SymbolId
  error : SymbolId
  rules : Array Rule
  automaton : Automaton
  /-- The block end of each symbol, by symbol id. -/
  blockEnds : Array (Option BlockEnd)
  prediction : Option PredictionTable
  shiftReduce : Option ShiftReduceTable
  deriving DecidableEq, Inhabited

namespace Tables

/-- The symbol with an id. -/
def symbol? (t : Tables) (s : SymbolId) : Option GrammarSymbol :=
  t.symbols[s.index]?

/-- The name of a symbol, `?` for an id outside the grammar. -/
def nameOf (t : Tables) (s : SymbolId) : String :=
  (t.symbol? s).elim "?" GrammarSymbol.name

/-- The symbol with a name. -/
def lookup (t : Tables) (name : String) : Option SymbolId :=
  (t.symbols.findIdx? fun s => s.name == name).map SymbolId.ofNat

/-- An attribute of a symbol. -/
def attribute? (t : Tables) (s : SymbolId) (key : String) : Option String :=
  (t.symbol? s).bind fun sym => sym.attributes.get? key

/-- Whether the symbol has rules of its own. -/
def isNonTerminal (t : Tables) (s : SymbolId) : Bool :=
  s.index < t.nonTerminals

/-- Whether the symbol takes no part in the derivation. -/
def isHidden (t : Tables) (s : SymbolId) : Bool :=
  (t.symbol? s).any GrammarSymbol.isHidden

/-- How many symbols are not non-terminals. -/
def terminals (t : Tables) : Nat :=
  t.symbols.size - t.nonTerminals

/-- The rule with an id. -/
def rule? (t : Tables) (r : RuleId) : Option Rule :=
  t.rules[r.index]?

/-- The block end of a symbol. -/
def blockEnd? (t : Tables) (s : SymbolId) : Option BlockEnd :=
  t.blockEnds[s.index]?.join

/-- The block ends of the grammar, by symbol id. -/
def blockEndList (t : Tables) : List BlockEnd :=
  t.blockEnds.toList.filterMap id

/-- The LL(1) table, which a grammar may lack. -/
def getPrediction (t : Tables) : Except TableError PredictionTable :=
  match t.prediction with
  | some p => .ok p
  | none => .error (.missingPrediction t.name)

/-- The LALR(1) table, which a grammar may lack. -/
def getShiftReduce (t : Tables) : Except TableError ShiftReduceTable :=
  match t.shiftReduce with
  | some s => .ok s
  | none => .error (.missingShiftReduce t.name)

/-- How many edges the character automaton has. -/
def edgeCount (t : Tables) : Nat :=
  t.automaton.states.foldl (fun n s => n + s.edges.length) 0

/-- How many character ranges the edges have together. -/
def rangeCount (t : Tables) : Nat :=
  t.automaton.states.foldl (fun n s => s.edges.foldl (fun n e => n + e.ranges.length) n) 0

end Tables

end TableParser
