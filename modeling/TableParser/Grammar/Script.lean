import TableParser.Grammar.Asset
/-!
The built-in grammar: a small language of settings.

A document is a list of statements. A statement is a scalar, a scalar with an operator and a value,
or a block; a value is a scalar or a block; a block is a list of statements in braces. Blanks and
comments are hidden.

    Config        → Statement Statements | ε
    Statements    → Statement Statements | ε
    Statement     → Scalar StatementTail | Block
    StatementTail → Specifier Value | ε
    Value         → Scalar | Block
    Scalar        → Symbol | String | Integer | Real | Date
    Block         → "{" Statements "}"

`asset` is the written grammar and `tables` are its tables.
-/

namespace TableParser.Script

/-! ### Symbols -/

/-- A whole document. -/
def config : SymbolId := ⟨0⟩
/-- The statements after the first one of a document, or those of a block. -/
def statements : SymbolId := ⟨1⟩
/-- A statement. -/
def statement : SymbolId := ⟨2⟩
/-- What may follow the scalar that opens a statement. -/
def statementTail : SymbolId := ⟨3⟩
/-- What an operator applies to. -/
def value : SymbolId := ⟨4⟩
/-- A single-token value. -/
def scalar : SymbolId := ⟨5⟩
/-- Statements in braces. -/
def block : SymbolId := ⟨6⟩
/-- The end of the input. -/
def eof : SymbolId := ⟨7⟩
/-- A token that is none. -/
def error : SymbolId := ⟨8⟩
/-- Blanks. -/
def whitespace : SymbolId := ⟨9⟩
/-- A comment, up to the end of its line. -/
def comment : SymbolId := ⟨10⟩
/-- An opening brace. -/
def lbrace : SymbolId := ⟨11⟩
/-- A closing brace. -/
def rbrace : SymbolId := ⟨12⟩
/-- An operator. -/
def specifier : SymbolId := ⟨13⟩
/-- A name. -/
def symbol : SymbolId := ⟨14⟩
/-- A quoted text. -/
def string : SymbolId := ⟨15⟩
/-- A whole number. -/
def integer : SymbolId := ⟨16⟩
/-- A number with a point. -/
def real : SymbolId := ⟨17⟩
/-- Three numbers with points between them. -/
def date : SymbolId := ⟨18⟩

/-- A note on the part that a symbol plays. -/
def role (name : String) : Attributes := .ofList [("role", name)]

/-- A note on the literals that a symbol spells. -/
def literal (kind : String) : Attributes := .ofList [("literal", kind)]

/-- The symbols, in the order of their ids. -/
def symbols : List GrammarSymbol :=
  [{ name := "Config", kind := .nonTerminal },
   { name := "Statements", kind := .nonTerminal, collapsed := true },
   { name := "Statement", kind := .nonTerminal },
   { name := "StatementTail", kind := .nonTerminal, collapsed := true },
   { name := "Value", kind := .nonTerminal },
   { name := "Scalar", kind := .nonTerminal, collapsed := true },
   { name := "Block", kind := .nonTerminal },
   { name := "EOF", kind := .endOfStream },
   { name := "Error", kind := .error },
   { name := "Whitespace", kind := .hidden },
   { name := "Comment", kind := .hidden },
   { name := "\x7b", kind := .terminal, attributes := role "open" },
   { name := "\x7d", kind := .terminal, attributes := role "close" },
   { name := "Specifier", kind := .terminal, attributes := role "operator" },
   { name := "Symbol", kind := .terminal, attributes := literal "symbol" },
   { name := "String", kind := .terminal, attributes := literal "string" },
   { name := "Integer", kind := .terminal, attributes := literal "integer" },
   { name := "Real", kind := .terminal, attributes := literal "real" },
   { name := "Date", kind := .terminal, attributes := literal "symbol",
     substitute := some symbol }]

/-- The rules, in the order of their ids. -/
def rules : List Rule :=
  [⟨config, [statement, statements]⟩,
   ⟨config, []⟩,
   ⟨statements, [statement, statements]⟩,
   ⟨statements, []⟩,
   ⟨statement, [scalar, statementTail]⟩,
   ⟨statement, [block]⟩,
   ⟨statementTail, [specifier, value]⟩,
   ⟨statementTail, []⟩,
   ⟨value, [scalar]⟩,
   ⟨value, [block]⟩,
   ⟨scalar, [symbol]⟩,
   ⟨scalar, [string]⟩,
   ⟨scalar, [integer]⟩,
   ⟨scalar, [real]⟩,
   ⟨scalar, [date]⟩,
   ⟨block, [lbrace, statements, rbrace]⟩]

/-! ### The character automaton -/

/-- The range of a single character. -/
def only (c : Char) : Char × Char := (c, c)

/-- Blanks. -/
def blanks : List (Char × Char) := [only ' ', ('\t', '\n'), only '\r']

/-- Digits. -/
def digits : List (Char × Char) := [('0', '9')]

/-- What a name starts with. -/
def nameStart : List (Char × Char) := [('@', 'Z'), only '_', ('a', 'z')]

/-- What a name goes on with. -/
def nameRest : List (Char × Char) := ('0', '9') :: nameStart ++ [only '.', only ':']

/-- Everything but a newline. -/
def inLine : List (Char × Char) := [('\x00', '\t'), ('\x0b', ⟨0x10ffff, by decide⟩)]

/-- The states of the character automaton. -/
def states : List AutomatonState :=
  [{ edges :=
      [⟨blanks, 1⟩, ⟨[only '#'], 2⟩, ⟨[only '\x7b'], 3⟩, ⟨[only '\x7d'], 4⟩, ⟨[only '='], 5⟩,
       ⟨[only '<', only '>'], 6⟩, ⟨[only '!'], 7⟩, ⟨[only '\"'], 9⟩, ⟨[only '-'], 10⟩,
       ⟨digits, 11⟩, ⟨nameStart, 15⟩] },
   { accept := some whitespace, edges := [⟨blanks, 1⟩] },
   { accept := some comment, edges := [⟨inLine, 2⟩] },
   { accept := some lbrace },
   { accept := some rbrace },
   { accept := some specifier, edges := [⟨[only '='], 8⟩] },
   { accept := some specifier, edges := [⟨[only '='], 8⟩] },
   { edges := [⟨[only '='], 8⟩] },
   { accept := some specifier },
   { accept := some string },
   { edges := [⟨digits, 11⟩] },
   { accept := some integer, edges := [⟨digits, 11⟩, ⟨[only '.'], 12⟩] },
   { edges := [⟨digits, 13⟩] },
   { accept := some real, edges := [⟨digits, 13⟩, ⟨[only '.'], 14⟩] },
   { edges := [⟨digits, 16⟩] },
   { accept := some symbol, edges := [⟨nameRest, 15⟩] },
   { accept := some date, edges := [⟨digits, 16⟩] }]

/-! ### The parse tables -/

/-- The predictions of a non-terminal. -/
def row (nonTerminal : SymbolId) (cells : List (SymbolId × UInt16)) : List Prediction :=
  cells.map fun (terminal, rule) => ⟨nonTerminal, terminal, ⟨rule⟩⟩

/-- One rule before each of several terminals. -/
def before (terminals : List SymbolId) (rule : UInt16) : List (SymbolId × UInt16) :=
  terminals.map fun t => (t, rule)

/-- What a scalar can be. -/
def scalars : List SymbolId := [symbol, string, integer, real, date]

/-- The LL(1) entries. -/
def predictions : List Prediction :=
  row config ((eof, 1) :: before (lbrace :: scalars) 0)
  ++ row statements ([(eof, 3), (lbrace, 2), (rbrace, 3)] ++ before scalars 2)
  ++ row statement ((lbrace, 5) :: before scalars 4)
  ++ row statementTail
    ([(eof, 7), (lbrace, 7), (rbrace, 7), (specifier, 6)] ++ before scalars 7)
  ++ row value ((lbrace, 9) :: before scalars 8)
  ++ row scalar [(symbol, 10), (string, 11), (integer, 12), (real, 13), (date, 14)]
  ++ row block [(lbrace, 15)]

/-- What can follow a statement. -/
def follow : List SymbolId := [eof, lbrace, rbrace] ++ scalars

/-- A state that reduces by one rule before any of several terminals. -/
def reduces (terminals : List SymbolId) (rule : UInt16) : StateRow :=
  { actions := terminals.map fun t => (t, .reduce ⟨rule⟩) }

/-- Shifts of the scalars. -/
def shiftScalars : List (SymbolId × Action) :=
  [(symbol, .shift 5), (string, .shift 6), (integer, .shift 7), (real, .shift 8), (date, .shift 9)]

/-- The shift of an opening brace. -/
def shiftBrace : SymbolId × Action := (lbrace, .shift 10)

/-- Where a state goes after a statement or its first part. -/
def afterStatement (target : StateId) : List (SymbolId × StateId) :=
  [(statement, target), (scalar, 3), (block, 4)]

/-- The states of the shift-reduce automaton. -/
def stateRows : List StateRow :=
  [{ actions := (eof, .reduce ⟨1⟩) :: shiftBrace :: shiftScalars,
     gotos := (config, 1) :: afterStatement 2 },
   { actions := [(eof, .accept)] },
   { actions := (eof, .reduce ⟨3⟩) :: shiftBrace :: shiftScalars,
     gotos := (statements, 11) :: afterStatement 12 },
   { actions :=
      [(eof, .reduce ⟨7⟩), (lbrace, .reduce ⟨7⟩), (rbrace, .reduce ⟨7⟩), (specifier, .shift 13)]
      ++ scalars.map fun t => (t, .reduce ⟨7⟩),
     gotos := [(statementTail, 14)] },
   reduces follow 5,
   reduces ([eof, lbrace, rbrace, specifier] ++ scalars) 10,
   reduces ([eof, lbrace, rbrace, specifier] ++ scalars) 11,
   reduces ([eof, lbrace, rbrace, specifier] ++ scalars) 12,
   reduces ([eof, lbrace, rbrace, specifier] ++ scalars) 13,
   reduces ([eof, lbrace, rbrace, specifier] ++ scalars) 14,
   { actions := [shiftBrace, (rbrace, .reduce ⟨3⟩)] ++ shiftScalars,
     gotos := (statements, 15) :: afterStatement 12 },
   reduces [eof] 0,
   { actions := [(eof, .reduce ⟨3⟩), shiftBrace, (rbrace, .reduce ⟨3⟩)] ++ shiftScalars,
     gotos := (statements, 16) :: afterStatement 12 },
   { actions := shiftBrace :: shiftScalars,
     gotos := [(value, 17), (scalar, 18), (block, 19)] },
   reduces follow 4,
   { actions := [(rbrace, .shift 20)] },
   reduces [eof, rbrace] 2,
   reduces follow 6,
   reduces follow 8,
   reduces follow 9,
   reduces follow 15]

/-! ### The grammar -/

/-- The written grammar. -/
def asset : Asset :=
  { format := Asset.formatName
    version := Asset.formatVersion
    name := "script"
    start := config
    endOfStream := eof
    error := error
    symbols := symbols
    rules := rules
    automaton := ⟨0, states.toArray⟩
    blockEnds := [⟨string, "\"", some '\\'⟩]
    prediction := some predictions
    shiftReduce := some ⟨0, stateRows⟩ }

/-- The tables of the grammar. -/
def tables : Tables := asset.tables

end TableParser.Script
