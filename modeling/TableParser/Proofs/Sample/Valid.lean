import TableParser.Proofs.Sample.Piece
/-!
Random documents are read without an error.

Whatever the dice say, a scalar, a block or a statement that is drawn is a phrase of the words that
its symbol derives. The separator after it makes it a row, rows are added to rows, and a row of
statements is a document:

    spaced piece      phrases l · gaps            ≤  rows l
    braces            rows of "{" and statements, then "}"
    valid             (rows of a statement)∗      ≤  rows (statement∗)

Each statement adds a byte at least, so as many of them as bytes are asked for are enough.

Main statement: `always_valid`.
-/

open Computability

namespace TableParser.Sample

open Script (tables spelling spellings scalars gaps phrases rows derived phrases_mono rows_mono
  lbrace rbrace)

variable {σ : Type} {d : Dice σ}

/-! ### Statements -/

section Statements

variable {piece : Gen σ String} {inner : Option (Gen σ String)} {l : Language Char}
  {kind : SymbolId}

theorem Draws.token (h : Draws piece l) (i : Nat) (hkind : spellings[i]? = some (kind, l))
    (hshown : tables.isHidden kind = false) : Draws piece (phrases {[kind]}) :=
  h.mono fun _ hw => Script.mem_phrases_of_spelling hshown (Script.le_spelling i hkind hw)

theorem Draws.scalar (h : Draws piece l) (i : Nat) (hkind : spellings[i]? = some (kind, l))
    (hscalar : kind ∈ scalars) :
    Draws piece (phrases (derived Script.scalar)) := by
  have hshown : ∀ s ∈ scalars, tables.isHidden s = false := by decide
  refine (h.token i hkind (hshown kind hscalar)).mono (phrases_mono ?_)
  rintro _ rfl
  exact Script.mem_derived_scalar hscalar

theorem draws_key : Draws (key d) (phrases (derived Script.scalar)) := by
  refine always_bind (always_of_forall fun n => ?_)
  split
  · exact draws_date.scalar 9 rfl (by decide)
  · exact draws_string.scalar 6 rfl (by decide)
  · exact draws_symbol.scalar 5 rfl (by decide)

theorem draws_scalar : Draws (scalar d) (phrases (derived Script.scalar)) := by
  refine always_bind (always_of_forall fun n => ?_)
  dsimp only
  split
  · exact draws_symbol.scalar 5 rfl (by decide)
  split
  · exact draws_string.scalar 6 rfl (by decide)
  split
  · exact draws_integer.scalar 7 rfl (by decide)
  split
  · exact draws_real.scalar 8 rfl (by decide)
  · exact draws_date.scalar 9 rfl (by decide)

theorem draws_spaced (h : Draws piece l) : Draws (spaced d piece) (l * gaps) :=
  always_bind (h.imp fun _ htext => draws_append htext draws_separator)

/-- A phrase and the separator after it are a row. -/
theorem draws_row {m : Language SymbolId} (h : Draws piece (phrases m)) :
    Draws (spaced d piece) (rows m) :=
  (draws_spaced h).mono Script.phrases_mul_gaps_le

theorem draws_block (h : ∀ g ∈ inner, Draws g (phrases (derived Script.statement))) :
    Draws (block d inner) (phrases (derived Script.block)) := by
  have hopening : "\x7b".toList ∈ phrases {[lbrace]} :=
    Script.mem_phrases_of_spelling rfl (Script.le_spelling 2 rfl ⟨_, rfl, rfl⟩)
  have hclosing : "\x7d".toList ∈ phrases {[rbrace]} :=
    Script.mem_phrases_of_spelling rfl (Script.le_spelling 3 rfl ⟨_, rfl, rfl⟩)
  have hclose : ∀ text : String, text.toList ∈ rows ({[lbrace]} * (derived Script.statement)∗) →
      (text ++ "\x7d").toList ∈ phrases (derived Script.block) := fun _ htext =>
    phrases_mono Script.braces_le_block
      (Script.rows_mul_phrases_le (toList_append_mem htext hclosing))
  refine always_bind (draws_separator.imp fun blank hblank => ?_)
  have hopen : ("\x7b" ++ blank).toList ∈ rows {[lbrace]} :=
    Script.phrases_mul_gaps_le (toList_append_mem hopening hblank)
  cases inner with
  | none => exact always_pure (hclose _ (rows_mono le_mul_kstar hopen))
  | some statement =>
    refine always_bind (always_of_forall fun n => ?_)
    refine always_bind ((draws_repeated (draws_row (h statement rfl)) n.val hopen).imp
      fun text htext => ?_)
    refine always_pure (hclose text (Script.rows_mul_le ?_))
    exact mul_le_mul_right Script.rows_kstar_le _ htext

theorem draws_value (h : ∀ g ∈ inner, Draws g (phrases (derived Script.statement))) :
    Draws (value d inner) (phrases (derived Script.value)) := by
  have hscalar := (draws_scalar (d := d)).mono (phrases_mono (Script.derived_le ⟨8⟩ rfl))
  have hblock := (draws_block (d := d) h).mono (phrases_mono (Script.derived_le ⟨9⟩ rfl))
  rw [value]
  split
  · refine always_bind (always_of_forall fun braced => ?_)
    split
    · exact hblock
    · exact hscalar
  · exact hscalar

theorem draws_statementOver (h : ∀ g ∈ inner, Draws g (phrases (derived Script.statement))) :
    Draws (statementOver d inner) (phrases (derived Script.statement)) := by
  have hoperator : Draws (Sample.specifier d) (phrases {[Script.specifier]}) :=
    draws_specifier.token 4 rfl rfl
  refine always_bind (always_of_forall fun n => ?_)
  dsimp only
  split
  · -- a scalar, an operator and a value
    refine always_bind ((draws_row draws_key).imp fun left hleft => ?_)
    refine always_bind ((draws_row hoperator).imp fun operator hoperator => ?_)
    refine (draws_append (toList_append_mem hleft hoperator) (draws_value h)).mono ?_
    grw [Script.rows_mul_le, Script.rows_mul_phrases_le]
    exact phrases_mono Script.setting_le_statement
  split
  · exact draws_scalar.mono (phrases_mono Script.scalar_le_statement)
  · exact (draws_block h).mono (phrases_mono (Script.derived_le ⟨5⟩ rfl))

theorem draws_statement : ∀ room, Draws (statement d room) (phrases (derived Script.statement))
  | 0 => draws_statementOver (by rintro _ ⟨⟩)
  | room + 1 => draws_statementOver (by rintro _ ⟨⟩; exact draws_statement room)

end Statements

/-! ### Documents -/

/-- A document that can be drawn where some bytes are asked for. -/
structure IsValid (target : Nat) (source : String) : Prop where
  long : target ≤ source.utf8ByteSize
  empty : source = "" ↔ target = 0
  tokens : ∀ tok ∈ tokenize tables source, tok.symbol ≠ Script.error
  sentence : tables.IsSentence ((TokenStream.ofSource tables source).word tables)
  reads : ∀ strategy showHidden, Script.ReadsClean strategy showHidden source

/-- A row of statements goes on as a row of statements, and comes to the length asked for if there
is a statement for each missing byte. -/
theorem always_document {target fuel : Nat} {out : String}
    (hroom : target ≤ out.utf8ByteSize + fuel)
    (hout : out.toList ∈ rows (derived Script.statement)∗) :
    Always (document d target fuel out) fun source =>
      target ≤ source.utf8ByteSize ∧ source.toList ∈ rows (derived Script.statement)∗ := by
  induction fuel generalizing out with
  | zero => exact always_pure ⟨hroom, hout⟩
  | succ fuel ih =>
    rw [document]
    split
    · refine always_bind ((draws_spaced (draws_statement maxDepth)).imp fun text htext => ih ?_ ?_)
      · have hsize : text.utf8ByteSize ≠ 0 := by
          intro hzero
          rw [String.utf8ByteSize_eq_zero_iff.1 hzero] at htext
          exact Script.ne_nil_of_gap htext rfl
        rw [String.utf8ByteSize_append]
        omega
      · have hrow := toList_append_mem hout (Script.phrases_mul_gaps_le htext)
        exact rows_mono kstar_mul_le_kstar (Script.rows_mul_le hrow)
    · next hlong => exact always_pure ⟨Nat.le_of_not_lt hlong, hout⟩

/-- Whatever the dice say, a document that is drawn has at least as many bytes as are asked for, and
none only if none are. Its tokens are no errors, and those that are not hidden are a sentence, so
both engines read it without one. -/
theorem always_valid (d : Dice σ) (target : Nat) : Always (valid d target) (IsValid target) := by
  intro s
  have hempty : "".toList ∈ rows (derived Script.statement)∗ := ⟨[], Language.nil_mem_kstar _, .nil⟩
  obtain ⟨hlong, hrows⟩ := always_document (d := d) (Nat.le_add_left target _) hempty s
  obtain ⟨htokens, hsentence⟩ := Script.sentence_of_rows hrows
  refine ⟨hlong, ⟨fun hnone => ?_, ?_⟩, htokens, hsentence, Script.readsClean_of_sentence hsentence⟩
  · rw [valid] at hnone
    rw [hnone] at hlong
    exact Nat.le_zero.1 hlong
  · rintro rfl
    rfl

end TableParser.Sample
