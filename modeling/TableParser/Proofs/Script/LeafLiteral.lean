import TableParser.Proofs.Script.Literal
import TableParser.Proofs.Script.Schema
import TableParser.Proofs.Tree.EventLeaves
/-!
The literals of leaves.

The automaton and the reader of literals are written apart from each other, but what the one accepts
the other reads:

    token     Symbol ab   String "a\"b"   Integer -12   Real 1.50    Date 1.1.1   Specifier <=
    literal   ab          a"b             -12           150 · 10⁻²   1.1.1        none

A string that the automaton lets pass has both its quotes, and a character after every backslash, so
unquoting never fails and never comes to its end behind a backslash. A number has its digits, so
only a whole number that needs more than 64 bits is not read. A date is reported as a symbol or as
itself, and both carry names.

Main statement: `leaf_literals`.
-/

open Computability

namespace TableParser

open Script (tables unit quoted whole decimal spellings lexemes scalars IsDigit)

namespace Literal

variable {kind : SymbolId} {text : String}

/-- What the leaf of a token carries, by the kind and the text of the token. -/
inductive Carries (kind : SymbolId) (text : String) : Option Literal → Prop where
  /-- A name or a date, as written. -/
  | symbol (hkind : kind = Script.symbol ∨ kind = Script.date) :
      Carries kind text (some (.symbol text))
  /-- What stands between the quotes, its escapes replaced. -/
  | string {body cs : List Char} (hkind : kind = Script.string)
      (htext : text.toList = '"' :: (body ++ ['"'])) (hbody : Unescapes body cs) :
      Carries kind text (some (.string (String.ofList cs)))
  /-- The value of the digits. -/
  | integer {negative : Bool} {digits : List Char} (hkind : kind = Script.integer)
      (htext : text.toList = signed negative digits) (hdigits : digits ∈ plus (single IsDigit))
      (hlow : -0x8000000000000000 ≤ decimalValue negative digits)
      (hhigh : decimalValue negative digits < 0x8000000000000000) :
      Carries kind text (some (.integer (decimalValue negative digits)))
  /-- A value that 64 bits are too few for. -/
  | large {negative : Bool} {digits : List Char} (hkind : kind = Script.integer)
      (htext : text.toList = signed negative digits) (hdigits : digits ∈ plus (single IsDigit))
      (hlarge : decimalValue negative digits < -0x8000000000000000 ∨
        0x8000000000000000 ≤ decimalValue negative digits) : Carries kind text none
  /-- The number nearest to the value of the digits, of which those after the point are decimal
  places. -/
  | real {negative : Bool} {before after : List Char} (hkind : kind = Script.real)
      (htext : text.toList = signed negative before ++ '.' :: after)
      (hbefore : before ∈ plus (single IsDigit)) (hafter : after ∈ plus (single IsDigit)) :
      Carries kind text
        (some (.real (.ofDecimal negative (Nat.ofDigitChars 10 (before ++ after) 0)
          (-(after.length : Int)))))
  /-- Nothing, for a brace, a specifier, a hidden token or an error. -/
  | nothing (hkind : kind ∉ scalars) : Carries kind text none

/-! ### What the kinds of tokens are read as -/

/-- Characters of a string are read to their end. -/
theorem exists_unescapes {u : List Char} (h : u ∈ unit∗) : ∃ cs, Unescapes u cs := by
  obtain ⟨units, rfl, hunits⟩ := Language.mem_kstar.1 h
  clear h
  induction units with
  | nil => exact ⟨[], .nil⟩
  | cons w units ih =>
    rw [List.forall_mem_cons] at hunits
    obtain ⟨cs, hcs⟩ := ih hunits.2
    rw [List.flatten_cons]
    rcases Script.mem_unit.1 hunits.1 with ⟨c, hquote, hescape, rfl⟩ | ⟨d, rfl⟩
    · exact ⟨c :: cs, hcs.plain hquote hescape⟩
    · exact ⟨escaped d :: cs, hcs.escape d⟩

theorem carries_quoted (h : text.toList ∈ quoted) :
    Carries Script.string text (parse? "string" text) := by
  obtain ⟨u, hu, htext⟩ := Script.mem_quoted.1 h
  obtain ⟨cs, hcs⟩ := exists_unescapes hu
  rw [parse?, unquote?_of_unescapes htext hcs]
  exact .string rfl htext hcs

theorem carries_whole (h : text.toList ∈ whole) :
    Carries Script.integer text (parse? "integer" text) := by
  obtain ⟨negative, digits, hdigits, htext⟩ := mem_whole.1 h
  rw [parse?, integer?_signed htext hdigits]
  by_cases hfits : fits (decimalValue negative digits) = true
  · rw [if_pos hfits]
    rw [fits_iff] at hfits
    exact .integer rfl htext hdigits hfits.1 hfits.2
  · rw [if_neg hfits]
    rw [fits_iff, not_and_or, not_le, not_lt] at hfits
    exact .large rfl htext hdigits hfits

/-- Digits with a point among them are read up to their end. -/
theorem decimal?_digits (negative : Bool) {before after : List Char}
    (hbefore : ∀ c ∈ before, c.isDigit = true) (hne : before ≠ [])
    (hafter : ∀ c ∈ after, c.isDigit = true) :
    Binary64.decimal? negative (before ++ '.' :: after) =
      some (.ofDecimal negative (Nat.ofDigitChars 10 (before ++ after) 0)
        (-(after.length : Int))) := by
  have hpoint : ('.' : Char).isDigit = false := rfl
  have htake : (before ++ '.' :: after).takeWhile Char.isDigit = before := by
    rw [List.takeWhile_append_of_pos hbefore, List.takeWhile_cons_of_neg (by simp [hpoint]),
      List.append_nil]
  have hdrop : (before ++ '.' :: after).dropWhile Char.isDigit = '.' :: after := by
    rw [List.dropWhile_append_of_pos hbefore, List.dropWhile_cons_of_neg (by simp [hpoint])]
  have htakeAfter : after.takeWhile Char.isDigit = after := List.takeWhile_eq_self_iff.2 hafter
  have hdropAfter : after.dropWhile Char.isDigit = [] := List.dropWhile_eq_nil_iff.2 hafter
  have hdigits : before ++ after ≠ [] := fun h => hne (List.append_eq_nil_iff.1 h).1
  simp only [Binary64.decimal?, htake, hdrop, htakeAfter, hdropAfter, if_neg hdigits,
    Binary64.exponent?, Option.map_some, Int.zero_sub]
  rfl

/-- A text with a point is no name of infinity or of no number. -/
theorem ofText?_decimal {negative : Bool} {cs : List Char}
    (hsplit : Binary64.splitSign text.toList = (negative, cs)) (hpoint : '.' ∈ cs) :
    Binary64.ofText? text = Binary64.decimal? negative cs := by
  have hlower : '.' ∈ cs.map Char.toLower := List.mem_map.2 ⟨'.', hpoint, rfl⟩
  have hother : ∀ name : String, '.' ∉ name.toList →
      String.ofList (cs.map Char.toLower) ≠ name := by
    rintro _ hname rfl
    rw [String.toList_ofList] at hname
    exact hname hlower
  simp only [Binary64.ofText?, hsplit]
  split
  · next h => exact absurd h (hother _ (by decide))
  · next h => exact absurd h (hother _ (by decide))
  · next h => exact absurd h (hother _ (by decide))
  · rfl

theorem carries_decimal (h : text.toList ∈ decimal) :
    Carries Script.real text (parse? "real" text) := by
  obtain ⟨_, ⟨_, hwhole, _, ⟨_, rfl, rfl⟩, rfl⟩, after, hafter, hrow⟩ := h
  obtain ⟨negative, before, hbefore, rfl⟩ := mem_whole.1 hwhole
  have htext : text.toList = signed negative before ++ '.' :: after := by
    rw [← hrow]
    exact List.append_assoc ..
  have hdigits := forall_isDigit hbefore
  have hne := (mem_plus_single.1 hbefore).1
  have hsigned : text.toList = signed negative (before ++ '.' :: after) := by
    rw [htext]
    cases negative <;> rfl
  have hsplit : Binary64.splitSign text.toList = (negative, before ++ '.' :: after) := by
    rw [hsigned, splitSign_signed]
    intro c hc
    rw [List.head?_append_of_ne_nil _ hne] at hc
    exact hdigits c (List.mem_of_mem_head? hc)
  rw [parse?, ofText?_decimal hsplit (by simp),
    decimal?_digits negative hdigits hne (forall_isDigit hafter)]
  exact .real rfl htext hbefore hafter

/-! ### Leaves -/

/-- A symbol that is no scalar has no substitute and no kind of literal. -/
theorem plain_of_not_mem (h : kind ∉ scalars) :
    (tables.symbol? kind).bind GrammarSymbol.substitute = none ∧
      tables.attribute? kind attributeName = none := by
  have hsmall : ∀ n < 19, SymbolId.ofNat n ∉ scalars →
      (tables.symbol? (.ofNat n)).bind GrammarSymbol.substitute = none ∧
        tables.attribute? (.ofNat n) attributeName = none := by
    decide
  by_cases hlt : kind.index < 19
  · have := hsmall kind.index hlt
    rw [SymbolId.ofNat_index] at this
    exact this h
  · have hnone : tables.symbol? kind = none := Array.getElem?_eq_none (not_lt.1 hlt)
    rw [Tables.attribute?, hnone]
    exact ⟨rfl, rfl⟩

/-- The leaf of a brace, a specifier, a hidden token or an error carries nothing. -/
theorem carries_nothing (h : kind ∉ scalars) (shape : Shape) (p : Position) :
    Carries kind text (ofNode? tables (Builder.leaf tables shape ⟨kind, text, p⟩)) := by
  obtain ⟨hsubstitute, hattribute⟩ := plain_of_not_mem h
  have hid : Builder.substitute tables shape kind = (kind, none) := by
    rw [Builder.substitute, hsubstitute]
  have hname : tables.attribute? (Builder.substitute tables shape kind).1 attributeName = none := by
    rw [hid, hattribute]
  have hnone : ofNode? tables (Builder.leaf tables shape ⟨kind, text, p⟩) = none := by
    by_cases herror : kind = tables.error
    · exact if_pos (decide_eq_true herror)
    · exact ofNode?_reported herror hname text p
  rw [hnone]
  exact .nothing h

/-- Whatever symbol is reported for a token, its leaf carries what the token spells. -/
theorem carries_leaf (h : text.toList ∈ lexemes kind) (shape : Shape) (p : Position) :
    Carries kind text (ofNode? tables (Builder.leaf tables shape ⟨kind, text, p⟩)) := by
  rcases h with ⟨l, hl, hw⟩ | ⟨rfl, -⟩
  · simp only [spellings, List.mem_cons, Prod.mk.injEq, List.not_mem_nil, or_false] at hl
    rcases hl with ⟨rfl, rfl⟩ | ⟨rfl, rfl⟩ | ⟨rfl, rfl⟩ | ⟨rfl, rfl⟩ | ⟨rfl, rfl⟩ | ⟨rfl, rfl⟩ |
      ⟨rfl, rfl⟩ | ⟨rfl, rfl⟩ | ⟨rfl, rfl⟩ | ⟨rfl, rfl⟩
    · exact carries_nothing (by decide) shape p
    · exact carries_nothing (by decide) shape p
    · exact carries_nothing (by decide) shape p
    · exact carries_nothing (by decide) shape p
    · exact carries_nothing (by decide) shape p
    · rw [ofNode?_leaf "symbol" (by decide) rfl rfl]
      exact .symbol (.inl rfl)
    · rw [ofNode?_leaf "string" (by decide) rfl rfl]
      exact carries_quoted hw
    · rw [ofNode?_leaf "integer" (by decide) rfl rfl]
      exact carries_whole hw
    · rw [ofNode?_leaf "real" (by decide) rfl rfl]
      exact carries_decimal hw
    · -- a date and the symbol that is reported for it have the same kind of literal
      have hname : tables.attribute? (Builder.substitute tables shape Script.date).1 attributeName =
          some "symbol" := by
        rcases shape with ⟨_, _ | _⟩ <;> rfl
      rw [ofNode?_reported (by decide) hname]
      exact .symbol (.inr rfl)
  · exact carries_nothing (by decide) shape p

/-- The leaf of any token of a source carries what the token spells. -/
theorem carries_of_mem {tok : Token} {source : String} (h : tok ∈ tokenize tables source)
    (shape : Shape) :
    Carries tok.symbol tok.text (ofNode? tables (Builder.leaf tables shape tok)) := by
  rw [tokenize, TokenStream.tokens, List.mem_append, List.mem_singleton] at h
  rcases h with h | rfl
  · exact carries_leaf (Script.lexeme_of_mem_ahead h) shape tok.position
  · have hlast : (TokenStream.ofSource tables source).last.symbol = Script.eof :=
      (TokenStream.symbol_ofScanner _).1
    exact carries_nothing (by rw [hlast]; decide) shape _

/-- An event whose leaf is no error reports a token, and the leaf is that of the token. -/
theorem token_of_leafOf {shape : Shape} {ev : Event} {n : Node}
    (h : n ∈ Builder.leafOf tables shape ev) (herror : n.label.error = false) :
    ∃ tok ∈ ev.token?, n = Builder.leaf tables shape tok := by
  cases ev with
  | initial | nonTerminal | endNonTerminal | reduce | accept | endDocument => cases h
  | terminal tok | shift tok => exact ⟨tok, rfl, List.mem_singleton.1 h⟩
  | error err =>
    rw [List.mem_singleton.1 h] at herror
    cases herror

/-- Whatever the source and the options are, a tree is built, and a leaf of it that is an error
carries no literal. Any other leaf is that of a token of the source and carries what the token
spells. -/
theorem leaf_literals (strategy : Strategy) (options : ParseOptions) (source : String) :
    ∃ tree, parse tables strategy options source = .ok tree ∧ ∀ root ∈ tree, ∀ n ∈ root.leaves,
      n.label.error = true ∧ ofNode? tables n = none ∨
      n.label.error = false ∧ ∃ tok ∈ tokenize tables source,
        n = Builder.leaf tables options.shape tok ∧
        Carries tok.symbol tok.text (ofNode? tables n) := by
  obtain ⟨e, he⟩ := Script.exists_start strategy options.showHidden source
  obtain ⟨k, hk, hlimit⟩ := Script.endsAfter_of_reachable (.start he)
  refine ⟨(e.parse tables options.shape).1, by rw [parse, he]; rfl, fun root hroot n hn => ?_⟩
  by_cases herror : n.label.error = true
  · exact .inl ⟨herror, if_pos herror⟩
  rw [Bool.not_eq_true] at herror
  refine .inr ⟨herror, ?_⟩
  have hbuild : Builder.build tables options.shape (e.events tables k) = some root := by
    rw [← hroot, Engine.parse, Engine.run_eq hk hlimit]
  have hleaves := @Builder.leavesOf_build tables options.shape (e.events tables k)
  rw [hbuild, Option.toList_some, ← Node.leaves_eq] at hleaves
  rw [hleaves, List.mem_flatMap] at hn
  obtain ⟨ev, hev, hleaf⟩ := hn
  obtain ⟨tok, htok, rfl⟩ := token_of_leafOf hleaf herror
  have hmem :=
    Engine.token_mem_events ((Engine.Reachable.start he).last Script.endsLast).2 k ev hev tok htok
  rw [(Engine.start_eq he).1] at hmem
  exact ⟨tok, hmem, rfl, carries_of_mem hmem options.shape⟩

/-- A setting with an escaped quote, a number that is one too large, and a date. -/
def written : String := "a=\"\\\"\" 9223372036854775808 1.1.1"

/-- Its statements. -/
def writtenDocument : Script.Document :=
  .setting ⟨Script.symbol, "a", .start⟩ ⟨Script.specifier, "=", ⟨1, 2, 1⟩⟩
    ⟨Script.string, "\"\\\"\"", ⟨1, 3, 2⟩⟩
    (.plain ⟨Script.integer, "9223372036854775808", ⟨1, 8, 7⟩⟩
      (.plain ⟨Script.date, "1.1.1", ⟨1, 28, 27⟩⟩ .nil))

theorem visible_written : Script.visible written = writtenDocument.tokens := by
  rw [Script.visible, TokenStream.ofSource]
  iterate 7 rw [TokenStream.ofScanner_more (by decide +kernel)]
  rw [TokenStream.ofScanner_last (by decide +kernel)]
  decide +kernel

theorem leaf_literals_written : ∃ root, parse tables .shiftReduce {} written = .ok (some root) ∧
    root.leaves.map (ofNode? tables) =
      [some (.symbol "a"), none, some (.string "\""), none, some (.symbol "1.1.1")] ∧
    ∀ n ∈ root.leaves, ∃ tok ∈ tokenize tables written, n = Builder.leaf tables {} tok ∧
      Carries tok.symbol tok.text (ofNode? tables n) := by
  have hproper : writtenDocument.Proper := by
    simp [writtenDocument, Script.Document.Proper, scalars]
  obtain ⟨q, hparse⟩ := Script.parse_of_document hproper visible_written.symm .shiftReduce
  obtain ⟨tree, htree, hcarries⟩ := leaf_literals .shiftReduce {} written
  obtain rfl := Except.ok.inj (hparse.symm.trans htree)
  have hleaves : (Node.branch "Config" Script.config false none q writtenDocument.nodes).leaves =
      writtenDocument.tokens.map Script.leaf := by
    rw [Node.leaves_eq, Node.leavesOf_inner (Node.isLeaf_branch ..), Node.children_branch,
      Script.Document.leavesOf_nodes]
  refine ⟨_, hparse, ?_, fun n hn => ?_⟩
  · rw [hleaves]
    decide +kernel
  · rcases hcarries _ rfl n hn with ⟨herror, -⟩ | ⟨-, htoken⟩
    · rw [hleaves, List.mem_map] at hn
      obtain ⟨tok, -, rfl⟩ := hn
      cases herror
    · exact htoken

end Literal

end TableParser
