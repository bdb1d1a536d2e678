import TableParser.Grammar.Asset
/-!
The compact form of a grammar.

The form is a mark of eight bytes and then the parts below, one after the other. Numbers have their
low byte first; a text is its length in bytes (32 bits) and its UTF-8 bytes; a list is its length
and its items.

    version        32 bits
    name           text
    roles          start symbol, end-of-stream symbol, error symbol: 16 bits each
    symbols        32-bit list of: name, kind (8), collapsed (8), substitute (16),
                   16-bit list of attributes: key, value
    rules          32-bit list of: left side (16), 16-bit list of symbols (16)
    automaton      initial state (32), 32-bit list of: accepted symbol (16),
                   16-bit list of edges: target (32), 16-bit list of ranges: two characters (32)
    block ends     16-bit list of: symbol (16), terminator, escape (32)
    prediction     present (8); 32-bit list of: row, terminal, rule (16 each)
    shift-reduce   present (8); initial state (32), 32-bit list of:
                   16-bit list of actions: terminal (16), tag (8), argument (32)
                   16-bit list of gotos: non-terminal (16), target (32)

A missing symbol is written as the largest 16-bit number, a missing character as the largest 32-bit
number: neither is the id of a symbol or a character. Bytes after the last part are not looked at.
-/

namespace TableParser.Compact

/-- The mark at the start of the compact form. -/
def magic : List UInt8 := [0x54, 0x42, 0x47, 0x52, 0x41, 0x4D, 0x30, 0x31]

/-- What stands for a missing symbol. -/
def noSymbol : UInt16 := 0xFFFF

/-- What stands for a missing character. -/
def noChar : UInt32 := 0xFFFFFFFF

/-! ### Writing -/

/-- The bytes of a 16-bit number. -/
def putWord16 (n : UInt16) : List UInt8 :=
  [n.toUInt8, (n >>> 8).toUInt8]

/-- The bytes of a 32-bit number. -/
def putWord32 (n : UInt32) : List UInt8 :=
  [n.toUInt8, (n >>> 8).toUInt8, (n >>> 16).toUInt8, (n >>> 24).toUInt8]

/-- A length of at most 16 bits. -/
def putLength16 (n : Nat) (count : String) : Except TableError (List UInt8) :=
  if n < 65536 then .ok (putWord16 n.toUInt16) else .error (.overflow count)

/-- A length of at most 32 bits. -/
def putLength32 (n : Nat) (count : String) : Except TableError (List UInt8) :=
  if n < 4294967296 then .ok (putWord32 n.toUInt32) else .error (.overflow count)

/-- The bytes of a text. -/
def putText (s : String) : Except TableError (List UInt8) := do
  let bytes := Utf8.encode s
  return (← putLength32 bytes.length "string length") ++ bytes

/-- The bytes of items, one after the other. -/
def putEach {α : Type} (item : α → Except TableError (List UInt8)) (items : List α) :
    Except TableError (List UInt8) := do
  return (← items.mapM item).flatten

/-- The bytes of a symbol id. -/
def putSymbol (s : SymbolId) : List UInt8 := putWord16 s.val

/-- The bytes of a symbol id that may be missing. -/
def putSymbolOrNone (s : Option SymbolId) : List UInt8 :=
  putWord16 (s.elim noSymbol SymbolId.val)

/-- The bytes of an attribute. -/
def putAttribute (p : String × String) : Except TableError (List UInt8) := do
  return (← putText p.1) ++ (← putText p.2)

/-- The bytes of a symbol of the grammar. -/
def putGrammarSymbol (s : GrammarSymbol) : Except TableError (List UInt8) := do
  let name ← putText s.name
  let count ← putLength16 s.attributes.entries.length "attribute count"
  let attributes ← putEach putAttribute s.attributes.entries
  return name ++ [s.kind.code, if s.collapsed then 1 else 0] ++ putSymbolOrNone s.substitute
    ++ count ++ attributes

/-- The bytes of a rule. -/
def putRule (r : Rule) : Except TableError (List UInt8) := do
  return putSymbol r.lhs ++ (← putLength16 r.rhs.length "rule length")
    ++ r.rhs.flatMap putSymbol

/-- The bytes of a range of characters. -/
def putRange (r : Char × Char) : List UInt8 :=
  putWord32 r.1.val ++ putWord32 r.2.val

/-- The bytes of an edge. -/
def putEdge (e : Edge) : Except TableError (List UInt8) := do
  return putWord32 e.target ++ (← putLength16 e.ranges.length "DFA range count")
    ++ e.ranges.flatMap putRange

/-- The bytes of a state of the character automaton. -/
def putAutomatonState (s : AutomatonState) : Except TableError (List UInt8) := do
  return putSymbolOrNone s.accept ++ (← putLength16 s.edges.length "DFA edge count")
    ++ (← putEach putEdge s.edges)

/-- The bytes of a block end. -/
def putBlockEnd (b : BlockEnd) : Except TableError (List UInt8) := do
  return putSymbol b.symbol ++ (← putText b.terminator) ++ putWord32 (b.escape.elim noChar Char.val)

/-- The bytes of a prediction. -/
def putPrediction (p : Prediction) : List UInt8 :=
  putSymbol p.row ++ putSymbol p.terminal ++ putWord16 p.rule.val

/-- The tag and the argument of an action. -/
def putAction : Action → List UInt8
  | .shift target => 0 :: putWord32 target
  | .reduce rule => 1 :: putWord32 rule.val.toUInt32
  | .accept => 2 :: putWord32 0

/-- The bytes of a state of the shift-reduce automaton. -/
def putStateRow (r : StateRow) : Except TableError (List UInt8) := do
  return (← putLength16 r.actions.length "LALR(1) action count")
    ++ r.actions.flatMap (fun (s, a) => putSymbol s ++ putAction a)
    ++ (← putLength16 r.gotos.length "LALR(1) goto count")
    ++ r.gotos.flatMap (fun (s, target) => putSymbol s ++ putWord32 target)

/-- The bytes of the prediction part. -/
def putPredictionPart : Option (List Prediction) → Except TableError (List UInt8)
  | some entries => do
    return 1 :: (← putLength32 entries.length "LL(1) entry count")
      ++ entries.flatMap putPrediction
  | none => .ok [0]

/-- The bytes of the shift-reduce part. -/
def putShiftReducePart : Option ShiftReduceAsset → Except TableError (List UInt8)
  | some sr => do
    return 1 :: putWord32 sr.initial ++ (← putLength32 sr.states.length "LALR(1) state count")
      ++ (← putEach putStateRow sr.states)
  | none => .ok [0]

/-- The compact form of a grammar; the first length that does not fit is the error. -/
def encodeAsset (a : Asset) : Except TableError (List UInt8) := do
  let name ← putText a.name
  let symbolCount ← putLength32 a.symbols.length "symbol count"
  let symbols ← putEach putGrammarSymbol a.symbols
  let ruleCount ← putLength32 a.rules.length "rule count"
  let rules ← putEach putRule a.rules
  let stateCount ← putLength32 a.automaton.states.size "DFA state count"
  let states ← putEach putAutomatonState a.automaton.states.toList
  let blockEndCount ← putLength16 a.blockEnds.length "block-end count"
  let blockEnds ← putEach putBlockEnd a.blockEnds
  let predictions ← putPredictionPart a.prediction
  let shiftReduce ← putShiftReducePart a.shiftReduce
  return magic ++ putWord32 a.version ++ name
    ++ putSymbol a.start ++ putSymbol a.endOfStream ++ putSymbol a.error
    ++ symbolCount ++ symbols ++ ruleCount ++ rules
    ++ putWord32 a.automaton.initial ++ stateCount ++ states
    ++ blockEndCount ++ blockEnds ++ predictions ++ shiftReduce

/-- The compact form of tables. -/
def encode (t : Tables) : Except TableError (List UInt8) :=
  encodeAsset (Asset.ofTables t)

/-! ### Reading -/

/-- A reader takes what it needs from the front of the bytes. -/
abbrev Reader := StateT (List UInt8) (Except TableError)

/-- The next `n` bytes; bytes that end before are cut off inside the named part. -/
def take (n : Nat) (part : String) : Reader (List UInt8) := fun bytes =>
  let front := bytes.take n
  if front.length < n then .error (.truncated part) else .ok (front, bytes.drop n)

/-- An 8-bit number. -/
def getByte (part : String) : Reader UInt8 := do
  match ← take 1 part with
  | [a] => return a
  | _ => throw (.truncated part)

/-- A 16-bit number. -/
def getWord16 (part : String) : Reader UInt16 := do
  match ← take 2 part with
  | [a, b] => return a.toUInt16 ||| (b.toUInt16 <<< 8)
  | _ => throw (.truncated part)

/-- A 32-bit number. -/
def getWord32 (part : String) : Reader UInt32 := do
  match ← take 4 part with
  | [a, b, c, d] =>
    return a.toUInt32 ||| (b.toUInt32 <<< 8) ||| (c.toUInt32 <<< 16) ||| (d.toUInt32 <<< 24)
  | _ => throw (.truncated part)

/-- A text. -/
def getText (part : String) : Reader String := do
  let n ← getWord32 part
  match Utf8.decode (← take n.toNat part) with
  | .ok s => return s
  | .error f => throw (.utf8 f)

/-- Reads `n` items one after the other; `done` holds the items so far, last one first. -/
def collect {α : Type} (item : Reader α) :
    Nat → List α → List UInt8 → Except TableError (List α × List UInt8)
  | 0, done, bytes => .ok (done.reverse, bytes)
  | n + 1, done, bytes =>
    match item bytes with
    | .ok (a, rest) => collect item n (a :: done) rest
    | .error e => .error e

/-- Reads `n` items. -/
def getMany {α : Type} (n : Nat) (item : Reader α) : Reader (List α) :=
  fun bytes => collect item n [] bytes

/-- A list with a 16-bit length. -/
def getList16 {α : Type} (count : String) (item : Reader α) : Reader (List α) := do
  getMany (← getWord16 count).toNat item

/-- A list with a 32-bit length. -/
def getList32 {α : Type} (count : String) (item : Reader α) : Reader (List α) := do
  getMany (← getWord32 count).toNat item

/-- A symbol id. -/
def getSymbol (part : String) : Reader SymbolId := do
  return ⟨← getWord16 part⟩

/-- A symbol id that may be missing. -/
def getSymbolOrNone (part : String) : Reader (Option SymbolId) := do
  let n ← getWord16 part
  return if n = noSymbol then none else some ⟨n⟩

/-- The character with a code. -/
def charOfCode (code : UInt32) : Except TableError Char :=
  if h : code.isValidChar then .ok ⟨code, h⟩ else .error (.invalidChar code)

/-- A character. -/
def getChar (part : String) : Reader Char := do
  charOfCode (← getWord32 part)

/-- A character that may be missing. -/
def getCharOrNone (part : String) : Reader (Option Char) := do
  let code ← getWord32 part
  if code = noChar then return none
  return some (← charOfCode code)

/-- A kind of symbol. -/
def getKind : Reader SymbolKind := do
  let code ← getByte "symbol kind"
  match SymbolKind.ofCode? code with
  | some k => return k
  | none => throw (.outOfRange "symbol kind code" code.toNat 5)

/-- An attribute. -/
def getAttribute : Reader (String × String) := do
  return (← getText "attribute key", ← getText "attribute value")

/-- A symbol of the grammar. -/
def getGrammarSymbol : Reader GrammarSymbol := do
  let name ← getText "symbol name"
  let kind ← getKind
  let collapsed ← getByte "collapsed flag"
  let substitute ← getSymbolOrNone "substitute"
  let attributes ← getList16 "attribute count" getAttribute
  return { name, kind, attributes := .ofList attributes, substitute, collapsed := collapsed != 0 }

/-- A rule. -/
def getRule : Reader Rule := do
  return ⟨← getSymbol "rule lhs", ← getList16 "rule length" (getSymbol "rule rhs")⟩

/-- A range of characters. -/
def getRange : Reader (Char × Char) := do
  return (← getChar "DFA range", ← getChar "DFA range")

/-- An edge. -/
def getEdge : Reader Edge := do
  let target ← getWord32 "DFA edge target"
  return ⟨← getList16 "DFA range count" getRange, target⟩

/-- A state of the character automaton. -/
def getAutomatonState : Reader AutomatonState := do
  return ⟨← getSymbolOrNone "DFA accept", ← getList16 "DFA edge count" getEdge⟩

/-- A block end. -/
def getBlockEnd : Reader BlockEnd := do
  return ⟨← getSymbol "block-end symbol", ← getText "block-end terminator",
    ← getCharOrNone "block-end escape"⟩

/-- A prediction. -/
def getPrediction : Reader Prediction := do
  return ⟨← getSymbol "LL(1) row", ← getSymbol "LL(1) terminal", ⟨← getWord16 "LL(1) rule"⟩⟩

/-- The action with a tag and an argument. -/
def actionOf (tag : UInt8) (argument : UInt32) : Except TableError Action :=
  match tag with
  | 0 => .ok (.shift argument)
  | 1 =>
    if argument.toNat < 65536 then .ok (.reduce ⟨argument.toUInt16⟩)
    else .error (.overflow "rule id")
  | 2 => .ok .accept
  | _ => .error (.outOfRange "LALR(1) action tag" tag.toNat 3)

/-- A terminal with its action. -/
def getAction : Reader (SymbolId × Action) := do
  let terminal ← getSymbol "LALR(1) action symbol"
  let tag ← getByte "LALR(1) action tag"
  let argument ← getWord32 "LALR(1) action argument"
  return (terminal, ← actionOf tag argument)

/-- A non-terminal with its goto. -/
def getGoto : Reader (SymbolId × StateId) := do
  return (← getSymbol "LALR(1) goto symbol", ← getWord32 "LALR(1) goto target")

/-- A state of the shift-reduce automaton. -/
def getStateRow : Reader StateRow := do
  return ⟨← getList16 "LALR(1) action count" getAction, ← getList16 "LALR(1) goto count" getGoto⟩

/-- The prediction part. -/
def getPredictionPart : Reader (Option (List Prediction)) := do
  if (← getByte "LL(1) flag") = 0 then return none
  return some (← getList32 "LL(1) entry count" getPrediction)

/-- The shift-reduce part. -/
def getShiftReducePart : Reader (Option ShiftReduceAsset) := do
  if (← getByte "LALR(1) flag") = 0 then return none
  return some ⟨← getWord32 "LALR(1) initial state",
    ← getList32 "LALR(1) state count" getStateRow⟩

/-- The parts after the mark. -/
def getAsset : Reader Asset := do
  let version ← getWord32 "version"
  let name ← getText "name"
  let start ← getSymbol "start symbol"
  let endOfStream ← getSymbol "end-of-stream symbol"
  let error ← getSymbol "error symbol"
  let symbols ← getList32 "symbol count" getGrammarSymbol
  let rules ← getList32 "rule count" getRule
  let initial ← getWord32 "DFA initial state"
  let states ← getList32 "DFA state count" getAutomatonState
  let blockEnds ← getList16 "block-end count" getBlockEnd
  let prediction ← getPredictionPart
  let shiftReduce ← getShiftReducePart
  return {
    format := Asset.formatName
    version, name, start, endOfStream, error, symbols, rules
    automaton := ⟨initial, states.toArray⟩
    blockEnds, prediction, shiftReduce }

/-- The grammar at the front of the bytes, with the bytes after it. -/
def decodeAsset : Reader Asset := do
  if (← take 8 "magic") ≠ magic then throw .badMagic
  getAsset

/-- The tables of a compact form. -/
def decode (bytes : List UInt8) : Except TableError Tables := do
  let (asset, _) ← decodeAsset bytes
  asset.load

end TableParser.Compact

namespace TableParser.Tables

/-- Whether bytes are to be read as a compact form. -/
def isCompact (bytes : List UInt8) : Bool :=
  Compact.magic.isPrefixOf bytes

end TableParser.Tables
