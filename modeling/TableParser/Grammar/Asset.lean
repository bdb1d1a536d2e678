import Std.Data.HashSet
import TableParser.Grammar.Tables
/-!
Written grammars and how they become tables.

An `Asset` is what a grammar file says, before anything is checked. `Asset.tables` puts its lists
into tables, where of several entries for one cell the last one counts. `Asset.load` does so only
for a consistent grammar. The checks come in a fixed order, and the first one that fails is the
answer:

1. the header: format and version;
2. what the tables could not hold: too many symbols, names used twice, entries for cells that do not
   exist;
3. the tables: kinds and references, on the cells as the last entries left them.
-/

namespace TableParser

/-- The LALR(1) part of a written grammar. -/
structure ShiftReduceAsset where
  initial : StateId := 0
  states : List StateRow
  deriving DecidableEq, Repr, Inhabited

/-- A written grammar. -/
structure Asset where
  format : String
  version : UInt32
  name : String
  start : SymbolId
  endOfStream : SymbolId
  error : SymbolId
  symbols : List GrammarSymbol
  rules : List Rule
  automaton : Automaton
  blockEnds : List BlockEnd := []
  prediction : Option (List Prediction) := none
  shiftReduce : Option ShiftReduceAsset := none
  deriving DecidableEq, Inhabited

namespace Asset

/-- The name of the format. -/
def formatName : String := "tabula-grammar"

/-- The version of the format. -/
def formatVersion : UInt32 := 1

/-- How many symbols a grammar may have; the id after the last one stands for "none". -/
def maxSymbols : Nat := 65535

/-- The number of non-terminals: the symbols before the first one of another kind. -/
def nonTerminals (a : Asset) : Nat :=
  (a.symbols.takeWhile GrammarSymbol.isNonTerminal).length

/-- The number of the symbols after the non-terminals. -/
def terminals (a : Asset) : Nat :=
  a.symbols.length - a.nonTerminals

/-- Block ends by symbol id, the last one for a symbol winning. -/
def blockEndTable (size : Nat) (ends : List BlockEnd) : Array (Option BlockEnd) :=
  ends.foldl (fun table b => table.setIfInBounds b.symbol.index (some b))
    (Array.replicate size none)

/-- The tables of a written grammar. -/
def tables (a : Asset) : Tables :=
  { name := a.name
    version := a.version
    symbols := a.symbols.toArray
    nonTerminals := a.nonTerminals
    start := a.start
    endOfStream := a.endOfStream
    error := a.error
    rules := a.rules.toArray
    automaton := a.automaton
    blockEnds := blockEndTable a.symbols.length a.blockEnds
    prediction := a.prediction.map (PredictionTable.ofEntries a.nonTerminals a.terminals)
    shiftReduce := a.shiftReduce.map fun sr =>
      ShiftReduceTable.ofRows a.nonTerminals a.terminals sr.initial sr.states }

/-! ### What the tables could not hold -/

/-- Refuses a grammar of another format or version. -/
def checkHeader (a : Asset) : Except TableError Unit := do
  if a.format ≠ formatName then throw (.unknownFormat a.format)
  if a.version ≠ formatVersion then throw (.unsupportedVersion a.version formatVersion)

/-- The first text of a list that stands in it before, given the texts seen so far. -/
def firstRepeated (seen : Std.HashSet String) : List String → Option String
  | [] => none
  | s :: rest => if seen.contains s then some s else firstRepeated (seen.insert s) rest

/-- Refuses too many symbols and a name used twice. -/
def checkSymbols (a : Asset) : Except TableError Unit := do
  if maxSymbols < a.symbols.length then throw (.overflow "symbol count")
  match firstRepeated ∅ (a.symbols.map GrammarSymbol.name) with
  | some name => throw (.duplicateName name)
  | none => pure ()

/-- Refuses a block end of a symbol that does not exist. -/
def checkBlockEnd (symbols : Nat) (b : BlockEnd) : Except TableError Unit :=
  if b.symbol.index < symbols then pure ()
  else throw (.outOfRange "block-end symbol" b.symbol.index symbols)

/-- Refuses a prediction for a cell that does not exist. -/
def checkPrediction (nonTerminals symbols : Nat) (e : Prediction) : Except TableError Unit := do
  if nonTerminals ≤ e.row.index then throw (.outOfRange "LL(1) row" e.row.index nonTerminals)
  if e.terminal.index < nonTerminals ∨ symbols ≤ e.terminal.index then
    throw (.outOfRange "LL(1) terminal" e.terminal.index symbols)

/-- Refuses an action on a symbol that is no terminal. -/
def checkActionSymbol (nonTerminals symbols : Nat) (s : SymbolId) : Except TableError Unit :=
  if s.index < nonTerminals ∨ symbols ≤ s.index then
    throw (.outOfRange "LALR(1) action symbol" s.index symbols)
  else pure ()

/-- Refuses a goto on a symbol that is no non-terminal. -/
def checkGotoSymbol (nonTerminals : Nat) (s : SymbolId) : Except TableError Unit :=
  if s.index < nonTerminals then pure ()
  else throw (.outOfRange "LALR(1) goto symbol" s.index nonTerminals)

/-- Refuses a state with entries for cells that do not exist, actions first. -/
def checkRow (nonTerminals symbols : Nat) (row : StateRow) : Except TableError Unit := do
  row.actions.forM fun (s, _) => checkActionSymbol nonTerminals symbols s
  row.gotos.forM fun (s, _) => checkGotoSymbol nonTerminals s

/-- Refuses an automaton without its initial state and rows for cells that do not exist. -/
def checkShiftReduce (nonTerminals symbols : Nat) (sr : ShiftReduceAsset) :
    Except TableError Unit := do
  if sr.states.length ≤ sr.initial.toNat then
    throw (.outOfRange "initial LALR(1) state" sr.initial.toNat sr.states.length)
  sr.states.forM (checkRow nonTerminals symbols)

/-- Refuses what the tables could not hold. -/
def checkShape (a : Asset) : Except TableError Unit := do
  a.checkSymbols
  a.blockEnds.forM (checkBlockEnd a.symbols.length)
  (a.prediction.getD []).forM (checkPrediction a.nonTerminals a.symbols.length)
  match a.shiftReduce with
  | some sr => checkShiftReduce a.nonTerminals a.symbols.length sr
  | none => pure ()

end Asset

/-! ### The tables -/

namespace Tables

/-- The symbol with an id, or the error that there is none. -/
def getSymbol (t : Tables) (what : String) (s : SymbolId) : Except TableError GrammarSymbol :=
  match t.symbol? s with
  | some sym => .ok sym
  | none => .error (.outOfRange what s.index t.symbols.size)

/-- Refuses a symbol that does not exist or has another kind. -/
def checkKind (t : Tables) (s : SymbolId) (kind : SymbolKind) (expected : String) :
    Except TableError Unit := do
  let sym ← t.getSymbol expected s
  if sym.kind ≠ kind then throw (.wrongKind sym.name s expected)

/-- Refuses a non-terminal after another kind of symbol. -/
def checkLayout (t : Tables) : Except TableError Unit :=
  (t.symbols.toList.zipIdx.drop t.nonTerminals).forM fun (sym, i) =>
    if sym.isNonTerminal then throw (.layout sym.name (SymbolId.ofNat i) t.nonTerminals)
    else pure ()

/-- Refuses a substitute that does not exist. -/
def checkSubstitute (t : Tables) (sym : GrammarSymbol) : Except TableError Unit :=
  match sym.substitute with
  | some sub => do let _ ← t.getSymbol "substitute symbol" sub
  | none => pure ()

/-- Refuses a rule whose left side is no non-terminal or whose right side names a symbol that does
not exist. -/
def checkRule (t : Tables) (r : Rule) : Except TableError Unit := do
  if ¬ t.isNonTerminal r.lhs then
    let sym ← t.getSymbol "rule left side" r.lhs
    throw (.wrongKind sym.name r.lhs "a non-terminal on a rule's left side")
  r.rhs.forM fun s => do let _ ← t.getSymbol "rule right side" s

/-- Refuses an automaton state that accepts a non-terminal or an unknown symbol, or has an edge to a
state that does not exist. -/
def checkState (t : Tables) (s : AutomatonState) : Except TableError Unit := do
  match s.accept with
  | some acc =>
    let sym ← t.getSymbol "DFA accept symbol" acc
    if sym.isNonTerminal then
      throw (.wrongKind sym.name acc "a terminal when accepted by the DFA")
  | none => pure ()
  s.edges.forM fun e =>
    if e.target.toNat < t.automaton.states.size then pure ()
    else throw (.outOfRange "DFA edge target" e.target.toNat t.automaton.states.size)

/-- Refuses an inconsistent character automaton. -/
def checkAutomaton (t : Tables) : Except TableError Unit := do
  let initial := t.automaton.initial.toNat
  if t.automaton.states.size ≤ initial then
    throw (.outOfRange "initial DFA state" initial t.automaton.states.size)
  t.automaton.states.toList.forM t.checkState

/-- Refuses a block end that would never end. -/
def checkTerminator (t : Tables) (b : BlockEnd) : Except TableError Unit :=
  if b.terminator.isEmpty then throw (.emptyTerminator (t.nameOf b.symbol)) else pure ()

/-- Refuses a prediction by a rule that does not exist or is another non-terminal's. -/
def checkPredicted (t : Tables) (e : Prediction) : Except TableError Unit :=
  match t.rule? e.rule with
  | none => throw (.outOfRange "LL(1) rule" e.rule.index t.rules.size)
  | some r =>
    if r.lhs = e.row then pure ()
    else throw (.ruleMismatch (t.nameOf e.row) e.rule (t.nameOf r.lhs))

/-- Refuses a shift to a state or a reduction by a rule that does not exist. -/
def checkAction (t : Tables) (states : Nat) : Action → Except TableError Unit
  | .shift target =>
    if target.toNat < states then pure ()
    else throw (.outOfRange "LALR(1) shift target" target.toNat states)
  | .reduce rule =>
    if rule.index < t.rules.size then pure ()
    else throw (.outOfRange "LALR(1) reduce rule" rule.index t.rules.size)
  | .accept => pure ()

/-- Refuses a goto to a state that does not exist. -/
def checkGoto (states : Nat) (target : StateId) : Except TableError Unit :=
  if target.toNat < states then pure ()
  else throw (.outOfRange "LALR(1) goto target" target.toNat states)

/-- Refuses a shift-reduce table that leads outside itself, actions first. -/
def checkShiftReduce (t : Tables) (sr : ShiftReduceTable) : Except TableError Unit := do
  sr.actions.entries.forM fun (_, _, a) => t.checkAction sr.states a
  sr.gotos.entries.forM fun (_, _, target) => checkGoto sr.states target

/-- Refuses tables with symbols of the wrong kind or references that lead nowhere. -/
def check (t : Tables) : Except TableError Unit := do
  t.checkLayout
  t.symbols.toList.forM t.checkSubstitute
  t.checkKind t.start .nonTerminal "a non-terminal start symbol"
  t.checkKind t.endOfStream .endOfStream "the end-of-stream symbol"
  t.checkKind t.error .error "the error symbol"
  t.rules.toList.forM t.checkRule
  t.checkAutomaton
  t.blockEndList.forM t.checkTerminator
  match t.prediction with
  | some p => p.entries.forM t.checkPredicted
  | none => pure ()
  match t.shiftReduce with
  | some sr => t.checkShiftReduce sr
  | none => pure ()

end Tables

namespace Asset

/-- The tables of a consistent grammar, or the first reason why it is none. -/
def load (a : Asset) : Except TableError Tables := do
  a.checkHeader
  a.checkShape
  let t := a.tables
  t.check
  return t

/-- The written form of tables: cells become entries, in order. -/
def ofTables (t : Tables) : Asset :=
  { format := formatName
    version := t.version
    name := t.name
    start := t.start
    endOfStream := t.endOfStream
    error := t.error
    symbols := t.symbols.toList
    rules := t.rules.toList
    automaton := t.automaton
    blockEnds := t.blockEndList
    prediction := t.prediction.map PredictionTable.entries
    shiftReduce := t.shiftReduce.map fun sr => ⟨sr.initial, sr.toRows⟩ }

end Asset

end TableParser
