import TableParser.Text.Printable
/-!
Quoted text: how messages show a string.

The text stands between double quotes. A double quote, a backslash, a newline, a carriage return, a
tab and a null have two-character escapes; any other character that `Printable.isEscaped` names is
written as its code point in hexadecimal between braces; all else stands for itself.
-/

namespace TableParser.Quoted

/-- A number in lower-case hexadecimal. -/
def hex (n : Nat) : String :=
  String.ofList (Nat.toDigits 16 n)

/-- What stands for one character. -/
def encodeChar (c : Char) : String :=
  match c with
  | '"' => "\\\""
  | '\\' => "\\\\"
  | '\n' => "\\n"
  | '\r' => "\\r"
  | '\t' => "\\t"
  | '\x00' => "\\0"
  | _ => if Printable.isEscaped c then "\\u\x7b" ++ hex c.toNat ++ "\x7d" else c.toString

/-- The quoted form of a text. -/
def encode (s : String) : String :=
  s.foldl (fun out c => out ++ encodeChar c) "\"" ++ "\""

end TableParser.Quoted
