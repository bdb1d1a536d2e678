import Mathlib.Data.List.Chain
import TableParser.Proofs.Json.Text
/-!
JSON texts read back word by word.

A text spells words when their texts stand in it in order, with nothing but blanks between them.
Both ways to write a JSON text do so, and a reading finds the words again. Only a number does not
say itself where it ends: it needs a byte behind it that is no part of a number, so no two numbers
may stand side by side.

    compact    {"initial":0,"states":[{},{}]}

    pretty     {
                 "initial": 0,
                 …

Main statements: `lexemes?_compact` and `lexemes?_pretty`.
-/

namespace TableParser.Json

/-! ### Spelling -/

/-- A lexeme that can be written: strings denote a text, and numbers are natural. -/
def Lexeme.IsPlain : Lexeme → Prop
  | .number text => ∃ n : Nat, text = n.repr
  | .string text => ∃ s, text = some s
  | _ => True

/-- The blanks that stand between words. -/
def blanks : List UInt8 := [0x20, 0x0A]

/-- Bytes that spell words, with blanks between them. -/
inductive Spells : List Lexeme → List UInt8 → Prop
  | nil : Spells [] []
  | blank {words bytes} {b} : b ∈ blanks → Spells words bytes → Spells words (b :: bytes)
  | word {words bytes} {w} : w.IsPlain → Spells words bytes →
      Spells (w :: words) (Utf8.encode w.text ++ bytes)

/-- The words that may stand after a value. -/
def closers : List Lexeme := [.comma, .closeArray, .closeObject]

/-- What stands after a number ends it. -/
def Follows (w w' : Lexeme) : Prop := ∀ text, w = .number text → w' ∈ closers

section Spells

variable {words : List Lexeme} {bytes : List UInt8} {w : Lexeme}

theorem Spells.blanks_append (h : Spells words bytes) : ∀ bs : List UInt8, (∀ b ∈ bs, b ∈ blanks) →
    Spells words (bs ++ bytes)
  | [], _ => h
  | _ :: bs, hbs => .blank (List.forall_mem_cons.1 hbs).1
      (h.blanks_append bs (List.forall_mem_cons.1 hbs).2)

/-- What words without blanks spell. -/
theorem spells_compact (h : ∀ w ∈ words, w.IsPlain) :
    Spells words (Utf8.encode (compact words)) := by
  have hfold : ∀ (words : List Lexeme) (out : String),
      Utf8.encode (words.foldl (fun out w => out ++ w.text) out) =
      Utf8.encode out ++ words.flatMap fun w => Utf8.encode w.text := by
    intro words
    induction words with
    | nil => intro out; rw [List.foldl_nil, List.flatMap_nil, List.append_nil]
    | cons w words ih =>
      intro out
      rw [List.foldl_cons, ih, Utf8.encode_append, List.flatMap_cons, List.append_assoc]
  rw [compact, hfold, Utf8.encode_empty, List.nil_append]
  induction words with
  | nil => exact .nil
  | cons w words ih =>
    exact .word (h w List.mem_cons_self) (ih fun w' hw' => h w' (List.mem_cons_of_mem _ hw'))

theorem mem_encode_newLine {depth : Nat} {b : UInt8} (h : b ∈ Utf8.encode (newLine depth)) :
    b ∈ blanks := by
  have hpad : ∀ n, ∀ b ∈ Utf8.encode ("".pushn ' ' n), b ∈ blanks := by
    intro n
    rw [String.pushn_eq_repeat_push]
    induction n with
    | zero => exact fun _ hb => absurd hb List.not_mem_nil
    | succ n ih =>
      intro b hb
      rw [Nat.repeat, Utf8.encode, String.toList_push, List.flatMap_append] at hb
      rcases List.mem_append.1 hb with hb | hb
      · exact ih b hb
      · rw [List.mem_singleton.1 hb]
        decide
  rw [newLine, Utf8.encode_append] at h
  rcases List.mem_append.1 h with h | h
  · rw [List.mem_singleton.1 h]
    decide
  · exact hpad _ b h

theorem Spells.newLine (h : Spells words bytes) (depth : Nat) :
    Spells words (Utf8.encode (newLine depth) ++ bytes) :=
  h.blanks_append _ fun _ => mem_encode_newLine

/-- A text put before what is still to be written. -/
theorem exists_spells {out first text : String} {rest : List Lexeme}
    (hrest : ∃ bytes, Utf8.encode text = Utf8.encode (out ++ first) ++ bytes ∧ Spells rest bytes)
    (hfirst : ∀ bytes, Spells rest bytes → Spells words (Utf8.encode first ++ bytes)) :
    ∃ bytes, Utf8.encode text = Utf8.encode out ++ bytes ∧ Spells words bytes := by
  obtain ⟨bytes, hbytes, hspells⟩ := hrest
  rw [Utf8.encode_append, List.append_assoc] at hbytes
  exact ⟨_, hbytes, hfirst bytes hspells⟩

/-- What words with one item a line spell. -/
theorem spells_layout (out : String) (depth : Nat) (h : ∀ w ∈ words, w.IsPlain) :
    ∃ bytes, Utf8.encode (layout out depth words) = Utf8.encode out ++ bytes ∧
      Spells words bytes := by
  have hopening : ∀ {w rest bytes} (depth : Nat), w.IsPlain → Spells rest bytes →
      Spells (w :: rest) (Utf8.encode (w.text ++ newLine depth) ++ bytes) := by
    intro w rest bytes depth hw hspells
    rw [Utf8.encode_append, List.append_assoc]
    exact .word hw (hspells.newLine depth)
  have hclosing : ∀ {w rest bytes} (depth : Nat), w.IsPlain → Spells rest bytes →
      Spells (w :: rest) (Utf8.encode (newLine depth ++ w.text) ++ bytes) := by
    intro w rest bytes depth hw hspells
    rw [Utf8.encode_append, List.append_assoc]
    exact (Spells.word hw hspells).newLine depth
  fun_induction layout out depth words with
  | case1 out depth => exact ⟨[], (List.append_nil _).symm, .nil⟩
  | case2 out depth rest ih =>
    refine exists_spells (ih (List.forall_mem_cons.1 (List.forall_mem_cons.1 h).2).2)
      fun bytes hspells => ?_
    exact .word (w := .openObject) trivial (.word (w := .closeObject) trivial hspells)
  | case3 out depth rest ih =>
    refine exists_spells (ih (List.forall_mem_cons.1 (List.forall_mem_cons.1 h).2).2)
      fun bytes hspells => ?_
    exact .word (w := .openArray) trivial (.word (w := .closeArray) trivial hspells)
  | case4 out depth rest hclose ih =>
    rw [String.append_assoc] at ih ⊢
    exact exists_spells (ih (List.forall_mem_cons.1 h).2) fun bytes =>
      hopening (w := .openObject) _ trivial
  | case5 out depth rest hclose ih =>
    rw [String.append_assoc] at ih ⊢
    exact exists_spells (ih (List.forall_mem_cons.1 h).2) fun bytes =>
      hopening (w := .openArray) _ trivial
  | case6 out depth rest ih =>
    rw [String.append_assoc] at ih ⊢
    exact exists_spells (ih (List.forall_mem_cons.1 h).2) fun bytes =>
      hclosing (w := .closeObject) _ trivial
  | case7 out depth rest ih =>
    rw [String.append_assoc] at ih ⊢
    exact exists_spells (ih (List.forall_mem_cons.1 h).2) fun bytes =>
      hclosing (w := .closeArray) _ trivial
  | case8 out depth rest ih =>
    rw [String.append_assoc] at ih ⊢
    exact exists_spells (ih (List.forall_mem_cons.1 h).2) fun bytes =>
      hopening (w := .comma) _ trivial
  | case9 out depth rest ih =>
    refine exists_spells (ih (List.forall_mem_cons.1 h).2) fun bytes hspells => ?_
    exact .word (w := .colon) trivial (.blank (by decide) hspells)
  | case10 out depth w rest _ _ _ _ _ _ _ _ ih =>
    exact exists_spells (ih (List.forall_mem_cons.1 h).2) fun bytes =>
      .word (h w List.mem_cons_self)

end Spells

/-! ### Reading -/

section Reading

variable {words done : List Lexeme} {bytes : List UInt8} {w : Lexeme} {b : UInt8}

/-- Reads on where no word is open. -/
def readOn (done : List Lexeme) (bytes : List UInt8) : Option (List Lexeme) :=
  (bytes.foldlM Reading.step ⟨done, .between⟩).bind Reading.finish

/-- What ends a number. -/
def Ends (bytes : List UInt8) : Prop := ∀ b ∈ bytes.head?, b ∈ [0x20, 0x0A, 0x2C, 0x5D, 0x7D]

theorem readOn_blank (hb : b ∈ blanks) : readOn done (b :: bytes) = readOn done bytes := by
  obtain rfl | rfl : b = 0x20 ∨ b = 0x0A := by simpa [blanks] using hb
  · rfl
  · rfl

theorem readOn_of_foldlM {first : List UInt8}
    (h : first.foldlM Reading.step ⟨done, .between⟩ = some ⟨w :: done, .between⟩) :
    readOn done (first ++ bytes) = readOn (w :: done) bytes := by
  rw [readOn, List.foldlM_append, h]
  rfl

theorem step_of_ends {part : NumberPart} (hb : b ∈ [0x20, 0x0A, 0x2C, 0x5D, 0x7D]) :
    part.step b = none := by
  obtain rfl | rfl | rfl | rfl | rfl : b = 0x20 ∨ b = 0x0A ∨ b = 0x2C ∨ b = 0x5D ∨ b = 0x7D := by
    simpa using hb
  all_goals cases part <;> rfl

theorem finish_number {part : NumberPart} {text : List UInt8} (hwhole : part.isWhole = true) :
    Reading.finish ⟨done, .number part text⟩ = some (.number (asciiText text) :: done).reverse :=
  if_pos hwhole

/-- A number ends where its digits do. -/
theorem readOn_number (n : Nat) (hends : Ends bytes) :
    readOn done (Utf8.encode n.repr ++ bytes) = readOn (.number n.repr :: done) bytes := by
  obtain ⟨part, hwhole, hread⟩ := foldlM_repr done n
  rw [readOn, List.foldlM_append, hread, Option.bind_eq_bind, Option.bind_some]
  have htext := asciiText_repr n
  cases bytes with
  | nil =>
    rw [List.foldlM_nil, readOn, List.foldlM_nil]
    refine (finish_number hwhole).trans ?_
    rw [htext]
    rfl
  | cons b bytes =>
    have hstop : part.step b = none := step_of_ends (hends b rfl)
    have hstep : Reading.step ⟨done, .number part (Utf8.encode n.repr).reverse⟩ b =
        Reading.step ⟨.number n.repr :: done, .between⟩ b := by
      rw [step_number, hstop]
      simp only [if_pos hwhole, htext]
      rfl
    rw [List.foldlM_cons, hstep, readOn, List.foldlM_cons]

/-- A word is read. -/
theorem readOn_word (hw : w.IsPlain) (hends : ∀ text, w = .number text → Ends bytes) :
    readOn done (Utf8.encode w.text ++ bytes) = readOn (w :: done) bytes := by
  cases w with
  | number text =>
    obtain ⟨n, rfl⟩ := hw
    exact readOn_number n (hends _ rfl)
  | string text =>
    obtain ⟨s, rfl⟩ := hw
    exact readOn_of_foldlM (foldlM_quote s done)
  | bool b => cases b <;> rfl
  | _ => rfl

/-- Words that stand after a value end a number, as blanks and the end do. -/
theorem Spells.ends (h : Spells words bytes) (hclose : ∀ w ∈ words.head?, w ∈ closers) :
    Ends bytes := by
  cases h with
  | nil => exact fun _ hb => by cases hb
  | @blank _ bytes b hb _ =>
    rintro _ ⟨⟩
    obtain rfl | rfl : b = 0x20 ∨ b = 0x0A := by simpa [blanks] using hb
    all_goals decide
  | @word _ bytes w hw _ =>
    have hw := hclose w rfl
    obtain rfl | rfl | rfl : w = .comma ∨ w = .closeArray ∨ w = .closeObject := by
      simpa [closers] using hw
    all_goals
      rintro _ ⟨⟩
      decide

/-- The words that bytes spell are read from them. -/
theorem Spells.readOn_eq (h : Spells words bytes) (hfollows : words.IsChain Follows)
    (done : List Lexeme) :
    readOn done bytes = some (done.reverse ++ words) := by
  induction h generalizing done with
  | nil => exact congrArg some (List.append_nil _).symm
  | blank hb _ ih => exact (readOn_blank hb).trans (ih hfollows done)
  | @word words bytes w hw hspells ih =>
    have hends : ∀ text, w = .number text → Ends bytes :=
      fun text htext => hspells.ends fun w' hw' =>
        (List.isChain_cons.1 hfollows).1 w' hw' text htext
    rw [readOn_word hw hends, ih (List.isChain_cons.1 hfollows).2, List.reverse_cons,
      List.append_assoc]
    rfl

/-- Words written without blanks are read. -/
theorem lexemes?_compact (h : ∀ w ∈ words, w.IsPlain) (hfollows : words.IsChain Follows) :
    lexemes? (Utf8.encode (compact words)) = some words :=
  (spells_compact h).readOn_eq hfollows []

/-- Words written with one item a line are read. -/
theorem lexemes?_pretty (h : ∀ w ∈ words, w.IsPlain) (hfollows : words.IsChain Follows) :
    lexemes? (Utf8.encode (pretty words)) = some words := by
  obtain ⟨bytes, hbytes, hspells⟩ := spells_layout "" 0 h
  rw [pretty, hbytes, Utf8.encode_empty]
  exact hspells.readOn_eq hfollows []

end Reading

end TableParser.Json
