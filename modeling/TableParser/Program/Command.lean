import TableParser.Program.Contrast
import TableParser.Program.Convert
import TableParser.Program.Inspect
import TableParser.Program.Stress
/-!
The programs by name.
-/

namespace TableParser

/-- The program with a name, given the environment and the arguments. -/
def command? (name : String) : Option (Environment → List String → Program UInt32) :=
  match name with
  | "tabula" => some fun env args => Report.exitCode (Inspect.report env args)
  | "gen_tables" => some fun env args => Report.exitCode (Convert.report env args)
  | "parse_demo" => some fun env args => Report.exitCode (Contrast.report env args)
  | "fuzz_parse" => some fun env _ => Stress.run env
  | _ => none

/-- The names of the programs. -/
def commandNames : List String := ["tabula", "gen_tables", "parse_demo", "fuzz_parse"]

/-- The variables of the environment that a program may ask for. -/
def variableNames : List String :=
  ["TABULA_TABLES", "TABULA_TRIM", "TABULA_TRANSFORM", "TABULA_SHOW_HIDDEN", "TABULA_STRATEGY",
    "GEN_TABLES_JSON", "PARSE_DEMO_LEN", "PARSE_DEMO_SEED", "PARSE_DEMO_OUT", "FUZZ_INPUT",
    "FUZZ_EX", "FUZZ_EX_DIR", "FUZZ_SAVE", "FUZZ_DIR", "FUZZ_LEN", "FUZZ_ITERS", "FUZZ_SEED",
    "FUZZ_NOISY"]

end TableParser
