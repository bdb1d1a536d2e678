import TableParser.Grammar.Asset
import TableParser.Json.Record
/-!
The JSON form of a grammar.

`Asset.toJson` writes a grammar, leaving out optional parts that are empty; `Asset.ofJson?` reads
one, by the rules for records. Loading a JSON text reads it and then checks the grammar; whatever is
wrong with the text itself is one error. The words, layouts and rules are those of `serde_json`; its
limit on nesting does not show, since no part of a grammar is nested more than eight deep.
-/

namespace TableParser

open Json (asNat? asText? asChar? asBool? asList? asPair? asCase? fields?)
open Json.Field (required withDefault optional nullable)

namespace SymbolId

/-- Reads a symbol. -/
def ofJson? (v : Json) : Option SymbolId :=
  (asNat? 65536 v).map ofNat

/-- Writes a symbol. -/
def toJson (s : SymbolId) : Json := .nat s.index

end SymbolId

namespace RuleId

/-- Reads a rule id. -/
def ofJson? (v : Json) : Option RuleId :=
  (asNat? 65536 v).map ofNat

/-- Writes a rule id. -/
def toJson (r : RuleId) : Json := .nat r.index

end RuleId

/-- Reads a 32-bit number. -/
def wordOfJson? (v : Json) : Option UInt32 :=
  (asNat? 4294967296 v).map Nat.toUInt32

/-- Writes a 32-bit number. -/
def wordToJson (n : UInt32) : Json := .nat n.toNat

namespace SymbolKind

/-- Reads a kind. -/
def ofJson? (v : Json) : Option SymbolKind :=
  match asCase? v with
  | some (name, none) | some (name, some .null) => ofName? name
  | _ => none

/-- Writes a kind. -/
def toJson (k : SymbolKind) : Json := .text k.name

end SymbolKind

namespace Attributes

/-- Reads attributes, the last value of a key winning. -/
def ofJson? (v : Json) : Option Attributes :=
  (Json.asTexts? v).map ofList

/-- Writes attributes. -/
def toJson (a : Attributes) : Json :=
  .record (a.entries.map fun (k, v) => (k, .text v))

end Attributes

namespace GrammarSymbol

/-- The names of a symbol's fields. -/
def fieldNames : List String := ["name", "kind", "attributes", "substitute", "collapsed"]

/-- Reads a symbol of a grammar. -/
def ofJson? (v : Json) : Option GrammarSymbol := do
  match ← fields? fieldNames v with
  | [name, kind, attributes, substitute, collapsed] =>
    return {
      name := ← required asText? name
      kind := ← required SymbolKind.ofJson? kind
      attributes := ← withDefault .empty Attributes.ofJson? attributes
      substitute := ← withDefault none (nullable SymbolId.ofJson?) substitute
      collapsed := ← withDefault false asBool? collapsed }
  | _ => none

/-- Writes a symbol of a grammar. -/
def toJson (s : GrammarSymbol) : Json :=
  .record (
    [("name", .text s.name), ("kind", s.kind.toJson)]
    ++ (if s.attributes.entries.isEmpty then [] else [("attributes", s.attributes.toJson)])
    ++ (s.substitute.elim [] fun sub => [("substitute", sub.toJson)])
    ++ (if s.collapsed then [("collapsed", .bool true)] else []))

end GrammarSymbol

namespace Rule

/-- Reads a rule. -/
def ofJson? (v : Json) : Option Rule := do
  match ← fields? ["lhs", "rhs"] v with
  | [lhs, rhs] =>
    return {
      lhs := ← required SymbolId.ofJson? lhs
      rhs := ← withDefault [] (asList? SymbolId.ofJson?) rhs }
  | _ => none

/-- Writes a rule. -/
def toJson (r : Rule) : Json :=
  .record [("lhs", r.lhs.toJson), ("rhs", .array (r.rhs.map SymbolId.toJson))]

end Rule

namespace Edge

/-- Reads an edge. -/
def ofJson? (v : Json) : Option Edge := do
  match ← fields? ["ranges", "target"] v with
  | [ranges, target] =>
    return {
      ranges := ← required (asList? (asPair? asChar? asChar?)) ranges
      target := ← required wordOfJson? target }
  | _ => none

/-- Writes an edge. -/
def toJson (e : Edge) : Json :=
  .record [
    ("ranges", .array (e.ranges.map fun (lo, hi) =>
      .array [.text lo.toString, .text hi.toString])),
    ("target", wordToJson e.target)]

end Edge

namespace AutomatonState

/-- Reads a state of the character automaton. -/
def ofJson? (v : Json) : Option AutomatonState := do
  match ← fields? ["accept", "edges"] v with
  | [accept, edges] =>
    return {
      accept := ← withDefault none (nullable SymbolId.ofJson?) accept
      edges := ← withDefault [] (asList? Edge.ofJson?) edges }
  | _ => none

/-- Writes a state of the character automaton. -/
def toJson (s : AutomatonState) : Json :=
  .record (
    (s.accept.elim [] fun acc => [("accept", acc.toJson)])
    ++ [("edges", .array (s.edges.map Edge.toJson))])

end AutomatonState

namespace Automaton

/-- Reads a character automaton. -/
def ofJson? (v : Json) : Option Automaton := do
  match ← fields? ["initial", "states"] v with
  | [initial, states] =>
    return {
      initial := ← withDefault 0 wordOfJson? initial
      states := (← required (asList? AutomatonState.ofJson?) states).toArray }
  | _ => none

/-- Writes a character automaton. -/
def toJson (a : Automaton) : Json :=
  .record [
    ("initial", wordToJson a.initial),
    ("states", .array (a.states.toList.map AutomatonState.toJson))]

end Automaton

namespace BlockEnd

/-- Reads a block end. -/
def ofJson? (v : Json) : Option BlockEnd := do
  match ← fields? ["symbol", "terminator", "escape"] v with
  | [symbol, terminator, escape] =>
    return {
      symbol := ← required SymbolId.ofJson? symbol
      terminator := ← required asText? terminator
      escape := ← withDefault none (nullable asChar?) escape }
  | _ => none

/-- Writes a block end. -/
def toJson (b : BlockEnd) : Json :=
  .record (
    [("symbol", b.symbol.toJson), ("terminator", .text b.terminator)]
    ++ (b.escape.elim [] fun c => [("escape", .text c.toString)]))

end BlockEnd

namespace Prediction

/-- Reads a prediction, written as an array of row, terminal and rule. -/
def ofJson? : Json → Option Prediction
  | .array [row, terminal, rule] => do
    return ⟨← SymbolId.ofJson? row, ← SymbolId.ofJson? terminal, ← RuleId.ofJson? rule⟩
  | _ => none

/-- Writes a prediction. -/
def toJson (p : Prediction) : Json :=
  .array [p.row.toJson, p.terminal.toJson, p.rule.toJson]

/-- Reads the record around a list of predictions. -/
def listOfJson? (v : Json) : Option (List Prediction) := do
  match ← fields? ["entries"] v with
  | [entries] => required (asList? ofJson?) entries
  | _ => none

/-- Writes the record around a list of predictions. -/
def listToJson (entries : List Prediction) : Json :=
  .record [("entries", .array (entries.map toJson))]

end Prediction

namespace Action

/-- Reads an action. -/
def ofJson? (v : Json) : Option Action :=
  match asCase? v with
  | some ("accept", none) | some ("accept", some .null) => some .accept
  | some ("shift", some target) => (wordOfJson? target).map .shift
  | some ("reduce", some rule) => (RuleId.ofJson? rule).map .reduce
  | _ => none

/-- Writes an action. -/
def toJson : Action → Json
  | .shift target => .record [("shift", wordToJson target)]
  | .reduce rule => .record [("reduce", rule.toJson)]
  | .accept => .text "accept"

end Action

namespace StateRow

/-- Reads a state of the shift-reduce automaton. -/
def ofJson? (v : Json) : Option StateRow := do
  match ← fields? ["actions", "gotos"] v with
  | [actions, gotos] =>
    return {
      actions := ← withDefault [] (asList? (asPair? SymbolId.ofJson? Action.ofJson?)) actions
      gotos := ← withDefault [] (asList? (asPair? SymbolId.ofJson? wordOfJson?)) gotos }
  | _ => none

/-- Writes a state of the shift-reduce automaton. -/
def toJson (r : StateRow) : Json :=
  .record [
    ("actions", .array (r.actions.map fun (s, a) => .array [s.toJson, a.toJson])),
    ("gotos", .array (r.gotos.map fun (s, target) => .array [s.toJson, wordToJson target]))]

end StateRow

namespace ShiftReduceAsset

/-- Reads the LALR(1) part of a grammar. -/
def ofJson? (v : Json) : Option ShiftReduceAsset := do
  match ← fields? ["initial", "states"] v with
  | [initial, states] =>
    return {
      initial := ← withDefault 0 wordOfJson? initial
      states := ← required (asList? StateRow.ofJson?) states }
  | _ => none

/-- Writes the LALR(1) part of a grammar. -/
def toJson (sr : ShiftReduceAsset) : Json :=
  .record [
    ("initial", wordToJson sr.initial),
    ("states", .array (sr.states.map StateRow.toJson))]

end ShiftReduceAsset

namespace Asset

/-- The names of a grammar's fields. -/
def fieldNames : List String :=
  ["format", "version", "name", "start_symbol", "end_of_stream", "error", "symbols", "rules", "dfa",
   "block_ends", "ll", "lalr"]

/-- Reads a grammar. -/
def ofJson? (v : Json) : Option Asset := do
  match ← fields? fieldNames v with
  | [format, version, name, start, endOfStream, error, symbols, rules, automaton, blockEnds,
      prediction, shiftReduce] =>
    return {
      format := ← required asText? format
      version := ← required wordOfJson? version
      name := ← required asText? name
      start := ← required SymbolId.ofJson? start
      endOfStream := ← required SymbolId.ofJson? endOfStream
      error := ← required SymbolId.ofJson? error
      symbols := ← required (asList? GrammarSymbol.ofJson?) symbols
      rules := ← required (asList? Rule.ofJson?) rules
      automaton := ← required Automaton.ofJson? automaton
      blockEnds := ← withDefault [] (asList? BlockEnd.ofJson?) blockEnds
      prediction := ← optional Prediction.listOfJson? prediction
      shiftReduce := ← optional ShiftReduceAsset.ofJson? shiftReduce }
  | _ => none

/-- Writes a grammar. -/
def toJson (a : Asset) : Json :=
  .record (
    [("format", .text a.format),
     ("version", wordToJson a.version),
     ("name", .text a.name),
     ("start_symbol", a.start.toJson),
     ("end_of_stream", a.endOfStream.toJson),
     ("error", a.error.toJson),
     ("symbols", .array (a.symbols.map GrammarSymbol.toJson)),
     ("rules", .array (a.rules.map Rule.toJson)),
     ("dfa", a.automaton.toJson),
     ("block_ends", .array (a.blockEnds.map BlockEnd.toJson))]
    ++ (a.prediction.elim [] fun p => [("ll", Prediction.listToJson p)])
    ++ (a.shiftReduce.elim [] fun sr => [("lalr", sr.toJson)]))

end Asset

namespace Tables

/-- The written form of the tables as a JSON value. -/
def toJson (t : Tables) : Json :=
  (Asset.ofTables t).toJson

/-- The tables of a JSON text. -/
def loadJson (bytes : List UInt8) : Except TableError Tables :=
  match (Json.parse? bytes).bind Asset.ofJson? with
  | some a => a.load
  | none => .error .json

end Tables

end TableParser
