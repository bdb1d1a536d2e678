import TableParser.Grammar.Script
import TableParser.Proofs.Token.Language
/-!
The spellings of the settings language, and what the states of its automaton stand for.

The spellings of each kind of token are languages: `spelling` for the kinds of the grammar, `errors`
for what is none of them, and `lexemes` for both. The texts that lead to the states of the automaton
are languages as well (`stateTexts`):

    state   0   1    2    3   4   5   6        7   8
    texts   ε   ␣⁺   #…   {   }   =   < or >   !   == <= >= !=

    state   9   10   11      12       13        14         15     16
    texts   "   -    whole   whole.   decimal   decimal.   name   dated

Every edge is an inequality between two of them (`Steps`). The texts that lead to the states satisfy
these inequalities, and so do the written languages, which are the least that do.

Main statement: `reached_eq`.
-/

open Computability

namespace TableParser.Script

/-! ### Spellings -/

def IsBlank (c : Char) : Prop := c ∈ [' ', '\t', '\n', '\r']

def IsDigit (c : Char) : Prop := '0' ≤ c ∧ c ≤ '9'

/-- What a name starts with. -/
def IsNameStart (c : Char) : Prop := c = '@' ∨ 'A' ≤ c ∧ c ≤ 'Z' ∨ c = '_' ∨ 'a' ≤ c ∧ c ≤ 'z'

/-- What a name goes on with. -/
def IsNameRest (c : Char) : Prop := IsDigit c ∨ IsNameStart c ∨ c = '.' ∨ c = ':'

instance : DecidablePred IsBlank :=
  fun c => inferInstanceAs (Decidable (c ∈ [' ', '\t', '\n', '\r']))

instance : DecidablePred IsDigit := fun c => inferInstanceAs (Decidable ('0' ≤ c ∧ c ≤ '9'))

instance : DecidablePred IsNameStart := fun c =>
  inferInstanceAs (Decidable (c = '@' ∨ 'A' ≤ c ∧ c ≤ 'Z' ∨ c = '_' ∨ 'a' ≤ c ∧ c ≤ 'z'))

instance : DecidablePred IsNameRest := fun c =>
  inferInstanceAs (Decidable (IsDigit c ∨ IsNameStart c ∨ c = '.' ∨ c = ':'))

/-- A hash sign and whatever follows it in the line. -/
def comments : Language Char := single (· = '#') * (single (· ≠ '\n'))∗

def operators : Language Char := {w | w ∈ ["=", "==", "<", ">", "<=", ">=", "!="].map String.toList}

def names : Language Char := single IsNameStart * (single IsNameRest)∗

/-- Digits with or without a sign. -/
def whole : Language Char := (1 + single (· = '-')) * plus (single IsDigit)

/-- Two rows of digits with a point between them. -/
def decimal : Language Char := whole * single (· = '.') * plus (single IsDigit)

/-- Three rows of digits with points between them. -/
def dated : Language Char := decimal * single (· = '.') * plus (single IsDigit)

/-- A character of a string: any but a quote and a backslash, or any after a backslash. -/
def unit : Language Char :=
  single (fun c => c ≠ '"' ∧ c ≠ '\\') + single (· = '\\') * single fun _ => True

/-- Characters in quotes. -/
def quoted : Language Char := single (· = '"') * unit∗ * single (· = '"')

/-- The kinds of tokens and their spellings. -/
def spellings : List (SymbolId × Language Char) :=
  [(whitespace, plus (single IsBlank)),
   (comment, comments),
   (lbrace, single (· = '\x7b')),
   (rbrace, single (· = '\x7d')),
   (specifier, operators),
   (symbol, names),
   (string, quoted),
   (integer, whole),
   (real, decimal),
   (date, dated)]

/-- The spellings of a kind of token. -/
def spelling (kind : SymbolId) : Language Char := {w | ∃ l, (kind, l) ∈ spellings ∧ w ∈ l}

/-- A quote that no quote ends. -/
def unterminated : Language Char := {w | w.head? = some '"' ∧ ∀ u ∈ quoted, ¬ u <+: w}

/-- Characters that no token starts with. -/
def strays : Language Char := {w | ∃ c, w = [c] ∧ ∀ kind rest, c :: rest ∉ spelling kind}

/-- A sign alone, a number that ends with its point, a string without its end and what starts no
token. -/
def errors : Language Char :=
  single (· = '-') + single (· = '!') + (whole + decimal) * single (· = '.') + unterminated + strays

/-- The texts of the tokens of a kind, where an error is one. -/
def lexemes (kind : SymbolId) : Language Char := {w | w ∈ spelling kind ∨ kind = error ∧ w ∈ errors}

/-! ### Edges -/

section Texts

variable {target : StateId}

theorem texts_eq {e : Edge} {p : Char → Prop} (h : ∀ c, (∃ r ∈ e.ranges, r.1 ≤ c ∧ c ≤ r.2) ↔ p c) :
    e.texts = single p := by
  rw [Edge.texts]
  congr
  funext c
  exact propext (Edge.admits_iff.trans (h c))

theorem le_iff_toNat {c d : Char} : c ≤ d ↔ c.toNat ≤ d.toNat := Iff.rfl

theorem texts_only (d : Char) : Edge.texts ⟨[only d], target⟩ = single (· = d) := by
  refine texts_eq fun c => ?_
  simp only [only, List.mem_singleton, exists_eq_left, ← Char.toNat_inj, le_iff_toNat]
  omega

theorem texts_angles :
    Edge.texts ⟨[only '<', only '>'], target⟩ = single fun c => c = '<' ∨ c = '>' := by
  refine texts_eq fun c => ?_
  simp only [only, List.mem_cons, List.not_mem_nil, or_false, exists_eq_or_imp, exists_eq_left,
    ← Char.toNat_inj, le_iff_toNat]
  omega

theorem texts_blanks : Edge.texts ⟨blanks, target⟩ = single IsBlank := by
  refine texts_eq fun c => ?_
  simp only [blanks, only, IsBlank, List.mem_cons, List.not_mem_nil, or_false, exists_eq_or_imp,
    exists_eq_left, ← Char.toNat_inj, le_iff_toNat, Char.reduceToNat]
  omega

theorem texts_digits : Edge.texts ⟨digits, target⟩ = single IsDigit := by
  refine texts_eq fun c => ?_
  simp [digits, IsDigit]

theorem texts_nameStart : Edge.texts ⟨nameStart, target⟩ = single IsNameStart := by
  refine texts_eq fun c => ?_
  simp only [nameStart, only, IsNameStart, List.mem_cons, List.not_mem_nil, or_false,
    exists_eq_or_imp, exists_eq_left, ← Char.toNat_inj, le_iff_toNat, Char.reduceToNat]
  omega

theorem texts_nameRest : Edge.texts ⟨nameRest, target⟩ = single IsNameRest := by
  refine texts_eq fun c => ?_
  simp only [nameRest, nameStart, only, IsNameRest, IsNameStart, IsDigit, List.cons_append,
    List.nil_append, List.mem_cons, List.not_mem_nil, or_false, exists_eq_or_imp, exists_eq_left,
    ← Char.toNat_inj, le_iff_toNat, Char.reduceToNat]
  omega

theorem texts_inLine : Edge.texts ⟨inLine, target⟩ = single (· ≠ '\n') := by
  refine texts_eq fun c => ?_
  have hvalid : c.toNat < 0x110000 := by
    rcases c.valid with hlow | ⟨-, hhigh⟩
    · exact Nat.lt_trans hlow (by decide)
    · exact hhigh
  have htop : Char.toNat ⟨0x10ffff, by decide⟩ = 0x10ffff := rfl
  simp only [inLine, List.mem_cons, List.not_mem_nil, or_false, exists_eq_or_imp, exists_eq_left,
    ← Char.toNat_inj, le_iff_toNat, Char.reduceToNat, ne_eq, htop]
  omega

end Texts

/-- What the edges say of a family of languages, one for each state. -/
@[mk_iff]
structure Steps (l : StateId → Language Char) : Prop where
  blank : l 0 * single IsBlank ≤ l 1
  hash : l 0 * single (· = '#') ≤ l 2
  lbrace : l 0 * single (· = '\x7b') ≤ l 3
  rbrace : l 0 * single (· = '\x7d') ≤ l 4
  equals : l 0 * single (· = '=') ≤ l 5
  angle : l 0 * single (fun c => c = '<' ∨ c = '>') ≤ l 6
  bang : l 0 * single (· = '!') ≤ l 7
  quote : l 0 * single (· = '"') ≤ l 9
  minus : l 0 * single (· = '-') ≤ l 10
  digit : l 0 * single IsDigit ≤ l 11
  nameStart : l 0 * single IsNameStart ≤ l 15
  blanks : l 1 * single IsBlank ≤ l 1
  inLine : l 2 * single (· ≠ '\n') ≤ l 2
  equalsEquals : l 5 * single (· = '=') ≤ l 8
  angleEquals : l 6 * single (· = '=') ≤ l 8
  bangEquals : l 7 * single (· = '=') ≤ l 8
  minusDigit : l 10 * single IsDigit ≤ l 11
  digits : l 11 * single IsDigit ≤ l 11
  point : l 11 * single (· = '.') ≤ l 12
  fraction : l 12 * single IsDigit ≤ l 13
  fractions : l 13 * single IsDigit ≤ l 13
  secondPoint : l 13 * single (· = '.') ≤ l 14
  day : l 14 * single IsDigit ≤ l 16
  nameRest : l 15 * single IsNameRest ≤ l 15
  days : l 16 * single IsDigit ≤ l 16

theorem steps_iff_edges {l : StateId → Language Char} : Steps l ↔
    ∀ q ∈ states.zipIdx, ∀ e ∈ q.1.edges, l q.2.toUInt32 * e.texts ≤ l e.target := by
  simp only [steps_iff, states, List.zipIdx_cons, List.zipIdx_nil, List.forall_mem_cons,
    List.not_mem_nil, texts_only, texts_angles, texts_blanks, texts_digits, texts_nameStart,
    texts_nameRest, texts_inLine, false_imp_iff, implies_true, and_true, true_and, and_assoc,
    zero_add, Nat.reduceAdd, Nat.toUInt32_eq, UInt32.reduceOfNat]

/-- The states are told apart by their numbers. -/
theorem mem_zipIdx_of_state? {s : StateId} {st : AutomatonState}
    (h : tables.automaton.state? s = some st) : (st, s.toNat) ∈ states.zipIdx := by
  have hst : states[s.toNat]? = some st := List.getElem?_toArray.symm.trans h
  exact List.mem_zipIdx_iff_getElem?.2 hst

/-- The texts that lead to the states are as the edges say. -/
theorem steps_reached : Steps tables.automaton.reached := by
  have hapart : ∀ st ∈ states, st.edges.Pairwise Edge.Apart := by decide
  refine steps_iff_edges.2 fun q hq e he => ?_
  have hget := List.mem_zipIdx_iff_getElem?.1 hq
  have hlt : q.2 < states.length := (List.getElem?_eq_some_iff.1 hget).1
  have hnumber : q.2.toUInt32.toNat = q.2 :=
    UInt32.toNat_ofNat_of_lt' (Nat.lt_trans hlt (by decide))
  refine Automaton.reached_mul_le ?_ (hapart q.1 (List.mem_of_getElem? hget)) he
  rw [Automaton.state?, hnumber]
  exact List.getElem?_toArray.trans hget

/-- Languages that are as the edges say have all texts that lead to the states. -/
theorem Steps.reached_le {l : StateId → Language Char} (h : Steps l) (hinitial : 1 ≤ l 0)
    (s : StateId) : tables.automaton.reached s ≤ l s := by
  refine Automaton.reached_le hinitial (fun s st hst e he => ?_) s
  have hedge := steps_iff_edges.1 h _ (mem_zipIdx_of_state? hst) e he
  rwa [show s.toNat.toUInt32 = s from UInt32.ofNat_toNat] at hedge

/-! ### The texts of the states -/

/-- The texts that lead to a state, by its number. -/
def stateTexts : Nat → Language Char
  | 0 => 1
  | 1 => plus (single IsBlank)
  | 2 => comments
  | 3 => single (· = '\x7b')
  | 4 => single (· = '\x7d')
  | 5 => single (· = '=')
  | 6 => single fun c => c = '<' ∨ c = '>'
  | 7 => single (· = '!')
  | 8 =>
    (single (· = '=') + single (fun c => c = '<' ∨ c = '>') + single (· = '!')) * single (· = '=')
  | 9 => single (· = '"')
  | 10 => single (· = '-')
  | 11 => whole
  | 12 => whole * single (· = '.')
  | 13 => decimal
  | 14 => decimal * single (· = '.')
  | 15 => names
  | 16 => dated
  | _ => 0

/-- The written languages are as the edges say. -/
theorem steps_stateTexts : Steps fun s => stateTexts s.toNat where
  blank := (one_mul _).trans_le le_plus
  hash := (one_mul _).trans_le le_mul_kstar
  lbrace := (one_mul _).le
  rbrace := (one_mul _).le
  equals := (one_mul _).le
  angle := (one_mul _).le
  bang := (one_mul _).le
  quote := (one_mul _).le
  minus := (one_mul _).le
  digit := mul_le_mul' le_self_add le_plus
  nameStart := (one_mul _).trans_le le_mul_kstar
  blanks := plus_mul_le
  inLine := mul_kstar_mul_le
  equalsEquals := mul_le_mul_left (le_self_add.trans le_self_add) _
  angleEquals := mul_le_mul_left (le_add_self.trans le_self_add) _
  bangEquals := mul_le_mul_left le_add_self _
  minusDigit := mul_le_mul' le_add_self le_plus
  digits := mul_plus_mul_le
  point := le_rfl
  fraction := mul_le_mul_right le_plus _
  fractions := mul_plus_mul_le
  secondPoint := le_rfl
  day := mul_le_mul_right le_plus _
  nameRest := mul_kstar_mul_le
  days := mul_plus_mul_le

namespace Steps

variable {l : StateId → Language Char} {p : Char → Prop} {s : StateId}

theorem first_le (hinitial : 1 ≤ l 0) (h : l 0 * single p ≤ l s) : single p ≤ l s :=
  calc single p = 1 * single p := (one_mul _).symm
    _ ≤ l 0 * single p := mul_le_mul_left hinitial _
    _ ≤ l s := h

theorem whole_le (h : Steps l) (hinitial : 1 ≤ l 0) : whole ≤ l 11 := by
  refine mul_plus_le ?_ h.digits
  rw [add_mul, one_mul]
  refine add_le (first_le hinitial h.digit) ?_
  calc single (· = '-') * single IsDigit ≤ l 10 * single IsDigit :=
        mul_le_mul_left (first_le hinitial h.minus) _
    _ ≤ l 11 := h.minusDigit

/-- A point and digits lead from the texts of one state to those of the second next one. -/
theorem fraction_le {m : Language Char} {s' s'' : StateId} (hm : m ≤ l s)
    (hpoint : l s * single (· = '.') ≤ l s') (hdigit : l s' * single IsDigit ≤ l s'')
    (hdigits : l s'' * single IsDigit ≤ l s'') :
    m * single (· = '.') * plus (single IsDigit) ≤ l s'' := by
  refine mul_plus_le ?_ hdigits
  calc m * single (· = '.') * single IsDigit ≤ l s * single (· = '.') * single IsDigit :=
        mul_le_mul_left (mul_le_mul_left hm _) _
    _ ≤ l s' * single IsDigit := mul_le_mul_left hpoint _
    _ ≤ l s'' := hdigit

theorem decimal_le (h : Steps l) (hinitial : 1 ≤ l 0) : decimal ≤ l 13 :=
  fraction_le (h.whole_le hinitial) h.point h.fraction h.fractions

theorem dated_le (h : Steps l) (hinitial : 1 ≤ l 0) : dated ≤ l 16 :=
  fraction_le (h.decimal_le hinitial) h.secondPoint h.day h.days

theorem equals_le (h : Steps l) (hinitial : 1 ≤ l 0) : stateTexts 8 ≤ l 8 := by
  rw [stateTexts, add_mul, add_mul]
  refine add_le (add_le ?_ ?_) ?_
  · exact (mul_le_mul_left (first_le hinitial h.equals) _).trans h.equalsEquals
  · exact (mul_le_mul_left (first_le hinitial h.angle) _).trans h.angleEquals
  · exact (mul_le_mul_left (first_le hinitial h.bang) _).trans h.bangEquals

/-- The written languages are the least ones that are as the edges say. -/
theorem stateTexts_le (h : Steps l) (hinitial : 1 ≤ l 0) : ∀ n, stateTexts n ≤ l n.toUInt32
  | 0 => hinitial
  | 1 => mul_kstar_le (first_le hinitial h.blank) h.blanks
  | 2 => mul_kstar_le (first_le hinitial h.hash) h.inLine
  | 3 => first_le hinitial h.lbrace
  | 4 => first_le hinitial h.rbrace
  | 5 => first_le hinitial h.equals
  | 6 => first_le hinitial h.angle
  | 7 => first_le hinitial h.bang
  | 8 => h.equals_le hinitial
  | 9 => first_le hinitial h.quote
  | 10 => first_le hinitial h.minus
  | 11 => h.whole_le hinitial
  | 12 => (mul_le_mul_left (h.whole_le hinitial) _).trans h.point
  | 13 => h.decimal_le hinitial
  | 14 => (mul_le_mul_left (h.decimal_le hinitial) _).trans h.secondPoint
  | 15 => mul_kstar_le (first_le hinitial h.nameStart) h.nameRest
  | 16 => h.dated_le hinitial
  | _ + 17 => fun _ hw => absurd hw (Language.notMem_zero _)

end Steps

/-- What the states of the automaton stand for. -/
theorem reached_eq (s : StateId) : tables.automaton.reached s = stateTexts s.toNat := by
  refine le_antisymm (steps_stateTexts.reached_le le_rfl s) ?_
  have hleast := steps_reached.stateTexts_le Automaton.one_le_reached s.toNat
  rwa [show s.toNat.toUInt32 = s from UInt32.ofNat_toNat] at hleast

end TableParser.Script
