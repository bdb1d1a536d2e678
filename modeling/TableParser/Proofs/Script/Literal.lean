import TableParser.Literal.Basic
import TableParser.Proofs.Script.Lexeme
/-!
What is printed for a text or a whole number is read back.

Between its quotes a text is printed with a backslash before each quote and each backslash, and
nothing else:

    text       a  \  "  n
    printed    a  \\ \" n

So what is printed for one character is one character of a string, and a backslash in it is followed
by a quote or by a backslash. The search for the closing quote steps over the pair, and unquoting
takes the second of the two; the escapes `\n`, `\t` and `\r`, which are read but not printed, do not
come up.

Main statement: `display_reads_back`.
-/

open Computability

namespace TableParser

open Script (unit quoted whole IsDigit)

namespace Literal

/-! ### Texts -/

/-- What is printed between the quotes of a text. -/
def body (cs : List Char) : List Char := cs.flatMap fun c => (escapeChar c).toList

theorem toList_escapeChar (c : Char) : (escapeChar c).toList =
    if c = '"' ∨ c = '\\' then ['\\', c] else [c] := by
  rw [escapeChar]
  by_cases hquote : c = '"'
  · simp [hquote]
  · by_cases hescape : c = '\\'
    · simp [hescape]
    · simp [hquote, hescape]

/-- What is printed for a character is a character of a string. -/
theorem escapeChar_mem_unit (c : Char) : (escapeChar c).toList ∈ unit := by
  rw [toList_escapeChar, Script.mem_unit]
  split
  · exact .inr ⟨c, rfl⟩
  · next h =>
    rw [not_or] at h
    exact .inl ⟨c, h.1, h.2, rfl⟩

theorem body_mem_units (cs : List Char) : body cs ∈ unit∗ := by
  induction cs with
  | nil => exact Language.nil_mem_kstar unit
  | cons c cs ih => exact Script.cons_mem_units (escapeChar_mem_unit c) ih

theorem toList_display_string (s : String) :
    (string s).display.toList = '"' :: (body s.toList ++ ['"']) := by
  have hfold : ∀ (cs : List Char) (out : String),
      (cs.foldl (fun out c => out ++ escapeChar c) out).toList = out.toList ++ body cs := by
    intro cs
    induction cs with
    | nil => intro out; exact (List.append_nil _).symm
    | cons c cs ih =>
      intro out
      rw [List.foldl_cons, ih, String.toList_append, List.append_assoc]
      rfl
  rw [display, String.foldl_eq_foldl_toList, String.toList_append, hfold]
  rfl

theorem display_mem_quoted (s : String) : (string s).display.toList ∈ quoted :=
  Script.mem_quoted.2 ⟨_, body_mem_units s.toList, toList_display_string s⟩

/-- The character that stands for an escaped one. -/
def escaped : Char → Char
  | 'n' => '\n'
  | 't' => '\t'
  | 'r' => '\r'
  | c => c

/-- What stands between two quotes, read as a text: no quote and no backslash but where a backslash
is before it, and a character after every backslash. -/
inductive Unescapes : List Char → List Char → Prop where
  | nil : Unescapes [] []
  | plain {c : Char} {u cs : List Char} (hquote : c ≠ '"') (hescape : c ≠ '\\')
      (h : Unescapes u cs) :
      Unescapes (c :: u) (c :: cs)
  | escape (d : Char) {u cs : List Char} (h : Unescapes u cs) :
      Unescapes ('\\' :: d :: u) (escaped d :: cs)

theorem unescapeStep_escaped (d : Char) (out : String) :
    unescapeStep (true, out) d = (false, out.push (escaped d)) := by
  rw [unescapeStep.eq_def, escaped.eq_def]
  split <;> simp_all

/-- Reading ends in a character, never after a backslash. -/
theorem Unescapes.foldl_unescapeStep {u cs : List Char} (h : Unescapes u cs) (out : String) :
    u.foldl unescapeStep (false, out) = (false, out ++ String.ofList cs) := by
  induction h generalizing out with
  | nil => exact congrArg _ String.append_empty.symm
  | plain _ hescape _ ih =>
    rw [List.foldl_cons, unescapeStep, if_neg hescape, ih, String.ofList_cons,
      ← String.append_assoc, String.append_singleton]
  | escape d _ ih =>
    rw [List.foldl_cons, List.foldl_cons, unescapeStep, if_pos rfl, unescapeStep_escaped, ih,
      String.ofList_cons, ← String.append_assoc, String.append_singleton]

theorem unquote?_of_unescapes {text : String} {u cs : List Char}
    (htext : text.toList = '"' :: (u ++ ['"'])) (h : Unescapes u cs) :
    unquote? text = some (String.ofList cs) := by
  rw [unquote?, htext]
  simp [unescape, h.foldl_unescapeStep]

/-- What is printed between the quotes of a text is read as the text. -/
theorem unescapes_body (cs : List Char) : Unescapes (body cs) cs := by
  induction cs with
  | nil => exact .nil
  | cons c cs ih =>
    rw [body, List.flatMap_cons, toList_escapeChar]
    split
    · next h =>
      rcases h with rfl | rfl
      · exact ih.escape '"'
      · exact ih.escape '\\'
    · next h =>
      rw [not_or] at h
      exact ih.plain h.1 h.2

theorem unquote?_display (s : String) : unquote? (string s).display = some s := by
  rw [unquote?_of_unescapes (toList_display_string s) (unescapes_body s.toList),
    String.ofList_toList]

/-! ### Whole numbers -/

/-- Digits, after a sign if there is one. -/
def signed (negative : Bool) (digits : List Char) : List Char :=
  if negative then '-' :: digits else digits

/-- The number that digits and a sign stand for. -/
def decimalValue (negative : Bool) (digits : List Char) : Int :=
  if negative then -(Nat.ofDigitChars 10 digits 0 : Int) else Nat.ofDigitChars 10 digits 0

theorem mem_whole {w : List Char} :
    w ∈ whole ↔ ∃ negative, ∃ digits ∈ plus (single IsDigit), w = signed negative digits := by
  constructor
  · rintro ⟨_, rfl | ⟨_, rfl, rfl⟩, digits, hdigits, rfl⟩
    · exact ⟨false, digits, hdigits, rfl⟩
    · exact ⟨true, digits, hdigits, rfl⟩
  · rintro ⟨_ | _, digits, hdigits, rfl⟩
    · exact Script.digits_mem_whole hdigits
    · exact Script.minus_mem_whole hdigits

theorem isDigit_iff {c : Char} : c.isDigit = true ↔ IsDigit c := by
  simp [IsDigit, Char.isDigit, Char.le_def]

theorem forall_isDigit {digits : List Char} (h : digits ∈ plus (single IsDigit)) :
    ∀ c ∈ digits, c.isDigit = true :=
  fun c hc => isDigit_iff.2 ((mem_plus_single.1 h).2 c hc)

theorem splitSign_signed {digits : List Char} (negative : Bool)
    (h : ∀ c ∈ digits.head?, c.isDigit = true) :
    Binary64.splitSign (signed negative digits) = (negative, digits) := by
  cases negative with
  | true => rfl
  | false =>
    rw [signed, if_neg Bool.false_ne_true, Binary64.splitSign.eq_def]
    split
    · exact absurd (h '-' rfl) (by decide)
    · exact absurd (h '+' rfl) (by decide)
    · rfl

/-- Digits spell a whole number, if 64 bits are enough for it. -/
theorem integer?_signed {text : String} {negative : Bool} {digits : List Char}
    (htext : text.toList = signed negative digits) (hdigits : digits ∈ plus (single IsDigit)) :
    integer? text = if fits (decimalValue negative digits) then some (decimalValue negative digits)
      else none := by
  have hall := forall_isDigit hdigits
  have hsplit := splitSign_signed negative fun c hc => hall c (List.mem_of_mem_head? hc)
  have hcond : digits ≠ [] ∧ digits.all Char.isDigit = true :=
    ⟨(mem_plus_single.1 hdigits).1, List.all_eq_true.2 hall⟩
  simp only [integer?, htext, hsplit, if_pos hcond]
  rfl

theorem toDigits_mem (n : Nat) : Nat.toDigits 10 n ∈ plus (single IsDigit) :=
  mem_plus_single.2 ⟨Nat.toDigits_ne_nil, fun _ hc =>
    isDigit_iff.1 (Nat.isDigit_of_mem_toDigits (by decide) (by decide) hc)⟩

/-- A number is printed as its digits, after a sign where it is negative. -/
theorem toList_display_integer (i : Int) :
    (integer i).display.toList = signed (decide (i < 0)) (Nat.toDigits 10 i.natAbs) := by
  cases i with
  | ofNat n => simp [display, signed, Int.repr, Nat.toList_repr]
  | negSucc n => simp [display, signed, Int.repr, Nat.toList_repr, Int.negSucc_lt_zero]

theorem display_mem_whole (i : Int) : (integer i).display.toList ∈ whole :=
  mem_whole.2 ⟨_, _, toDigits_mem i.natAbs, toList_display_integer i⟩

theorem decimalValue_toDigits (i : Int) :
    decimalValue (decide (i < 0)) (Nat.toDigits 10 i.natAbs) = i := by
  rw [decimalValue, Nat.ofDigitChars_ten_toDigits]
  by_cases hneg : i < 0
  · rw [if_pos (decide_eq_true hneg)]
    omega
  · rw [if_neg (by simp [hneg])]
    omega

theorem integer?_display {i : Int} (h : fits i = true) : integer? (integer i).display = some i := by
  rw [integer?_signed (toList_display_integer i) (toDigits_mem _), decimalValue_toDigits, if_pos h]

theorem fits_iff {i : Int} : fits i = true ↔ -0x8000000000000000 ≤ i ∧ i < 0x8000000000000000 := by
  rw [fits, Bool.and_eq_true, decide_eq_true_iff, decide_eq_true_iff]

theorem fits_toInt (i : Int64) : fits i.toInt = true :=
  fits_iff.2 ⟨i.le_toInt, i.toInt_lt⟩

/-! ### Leaves -/

/-- A text of a kind of token spells a literal: it is a single token of that kind, and any leaf that
is made of this token carries the literal. -/
structure SpeltBy (l : Literal) (kind : SymbolId) (text : String) : Prop where
  single : tokenize Script.tables text =
    [⟨kind, text, .start⟩, ⟨Script.eof, "", Position.start.after text⟩]
  reads : ∀ shape, ofNode? Script.tables (Builder.leaf Script.tables shape ⟨kind, text, .start⟩) =
    some l

/-- The leaf of a token that is no error carries the literal that its text spells, of the kind of
literals of the symbol that is reported. -/
theorem ofNode?_reported {kind : SymbolId} {shape : Shape} {name? : Option String}
    (herror : kind ≠ Script.error)
    (hname : Script.tables.attribute? (Builder.substitute Script.tables shape kind).1
      attributeName = name?) (text : String) (p : Position) :
    ofNode? Script.tables (Builder.leaf Script.tables shape ⟨kind, text, p⟩) =
      name?.bind fun name => parse? name text := by
  have hplain : decide (kind = Script.tables.error) = false := decide_eq_false herror
  simp [ofNode?, Builder.leaf, Node.label, hplain, hname]

/-- The leaf of a symbol that is no error and has no substitute carries the literal that its text
spells. -/
theorem ofNode?_leaf {kind : SymbolId} (name : String) (herror : kind ≠ Script.error)
    (hsubstitute : (Script.tables.symbol? kind).bind GrammarSymbol.substitute = none)
    (hname : Script.tables.attribute? kind attributeName = some name) (shape : Shape)
    (text : String) (p : Position) :
    ofNode? Script.tables (Builder.leaf Script.tables shape ⟨kind, text, p⟩) =
      parse? name text := by
  have hid : Builder.substitute Script.tables shape kind = (kind, none) := by
    rw [Builder.substitute, hsubstitute]
  have hreported : Script.tables.attribute? (Builder.substitute Script.tables shape kind).1
      attributeName = some name := by
    rw [hid, hname]
  rw [ofNode?_reported herror hreported, Option.bind_some]

/-- Whatever the text or the whole number of 64 bits, its printed form is a single token, of the
kind of texts or of whole numbers, and the leaf of this token carries the literal that was
printed. -/
theorem display_reads_back : (∀ s : String, SpeltBy (.string s) Script.string (string s).display) ∧
    ∀ i : Int64, SpeltBy (.integer i.toInt) Script.integer (integer i.toInt).display := by
  have hsingle : ∀ {text : String} {kind : SymbolId}, text.toList ∈ Script.spelling kind →
      tokenize Script.tables text = [⟨kind, text, .start⟩,
        ⟨Script.eof, "", Position.start.after text⟩] :=
    fun h => (TokenStream.tokenize_eq_iff Script.endsLast).2 (Script.first_of_lexeme (.inl h))
  refine ⟨fun s => ⟨hsingle (Script.le_spelling 6 rfl (display_mem_quoted s)), fun shape => ?_⟩,
    fun i => ⟨hsingle (Script.le_spelling 7 rfl (display_mem_whole i.toInt)), fun shape => ?_⟩⟩
  · rw [ofNode?_leaf "string" (by decide) rfl rfl, parse?, unquote?_display]
    rfl
  · rw [ofNode?_leaf "integer" (by decide) rfl rfl, parse?, integer?_display (fits_toInt i)]
    rfl

end Literal

end TableParser
