import TableParser.Grammar.Asset.Compact
import TableParser.Grammar.Asset.Json
/-!
Grammars of either written form: bytes that start with the mark of the compact form are read as
such, all others as JSON.
-/

namespace TableParser.Tables

/-- The tables of a written grammar. -/
def loadBytes (bytes : List UInt8) : Except TableError Tables :=
  if isCompact bytes then Compact.decode bytes else loadJson bytes

end TableParser.Tables
