import TableParser.Proofs.Json.Lexeme
/-!
JSON values read back from their words.

A value is written piece by piece and read word by word. Read as pieces, a value is taken at once
where a value may stand; its words lead to the same place, with the arrays and objects that it opens
on the stack in between.

    pieces    [   1   ,   {…}   ]             a value is one piece
    words     [   1   ,   {  "a"  :  2  }  ]

So every value is read back from its words, and every plain one from its text.

Main statements: `ofLexemes?_lexemes`, `parse?_compactText` and `parse?_prettyText`.
-/

namespace TableParser.Json

/-! ### Pieces -/

/-- Reads a piece; a value is read at once. -/
def Place.take (p : Place) : Piece → Option Place
  | .word w => p.step w
  | .value v =>
    match p.expect with
    | .value | .firstItem => some ⟨p.stack, .done v⟩
    | _ => none

section Pieces

variable {p p' q : Place} {stack : List Frame} {v : Json} {w : Lexeme} {words done : List Lexeme}
  {pending : List Piece}

/-- Where a value may stand. -/
theorem take_value : p.take (.value v) = some p' ↔
    (p.expect = .value ∨ p.expect = .firstItem) ∧ p' = ⟨p.stack, .done v⟩ := by
  obtain ⟨stack, expect⟩ := p
  cases expect <;> simp [Place.take, eq_comm]

/-- The first word of a value where one may stand. -/
theorem step_open (h : p.expect = .value ∨ p.expect = .firstItem) (hw : w ≠ .closeArray) :
    p.step w = Place.openValue p.stack w := by
  obtain ⟨stack, expect⟩ := p
  rcases h with rfl | rfl
  · rfl
  · cases w <;> first | rfl | exact absurd rfl hw

/-- The items of an array and its end. -/
theorem take_items : ∀ (items before : List Json) (expect : Expect), items ≠ [] →
    expect = .value ∨ expect = .firstItem →
    (itemPieces items ++ [Piece.word .closeArray]).foldlM Place.take
        ⟨.items before :: stack, expect⟩ =
      some ⟨stack, .done (.array (before.reverse ++ items))⟩
  | [], _, _, hne, _ => absurd rfl hne
  | [v], before, expect, _, hexpect => by
    have htake := (take_value (p := ⟨.items before :: stack, expect⟩) (v := v)).2 ⟨hexpect, rfl⟩
    rw [itemPieces, List.singleton_append, List.foldlM_cons, htake]
    simp [Place.take, Place.step, Place.afterValue]
  | v :: v' :: items, before, expect, _, hexpect => by
    have htake := (take_value (p := ⟨.items before :: stack, expect⟩) (v := v)).2 ⟨hexpect, rfl⟩
    have ih := take_items (v' :: items) (v :: before) .value (List.cons_ne_nil _ _) (.inl rfl)
    rw [List.reverse_cons, List.append_assoc] at ih
    have hpieces : itemPieces (v :: v' :: items) = .value v :: .word .comma ::
        itemPieces (v' :: items) := rfl
    rw [hpieces, List.cons_append, List.foldlM_cons, htake]
    exact ih

/-- An array is taken when its end is. -/
theorem take_array (items : List Json) :
    (itemPieces items ++ [Piece.word .closeArray]).foldlM Place.take
        ⟨.items [] :: stack, .firstItem⟩ =
      some ⟨stack, .done (.array items)⟩ := by
  cases items with
  | nil => rfl
  | cons v items => exact take_items (v :: items) [] .firstItem (List.cons_ne_nil _ _) (.inr rfl)

/-- The fields of an object and its end. -/
theorem take_fields : ∀ (fields before : List (Option String × Json)) (expect : Expect),
    fields ≠ [] → expect = .key before ∨ expect = .firstKey ∧ before = [] →
    (fieldPieces fields ++ [Piece.word .closeObject]).foldlM Place.take ⟨stack, expect⟩ =
      some ⟨stack, .done (.object (before.reverse ++ fields))⟩
  | [], _, _, hne, _ => absurd rfl hne
  | [(k, v)], before, expect, _, hexpect => by
    have hkey : Place.step ⟨stack, expect⟩ (.string k) = some ⟨stack, .colon before k⟩ := by
      rcases hexpect with rfl | ⟨rfl, rfl⟩ <;> rfl
    have htake : Place.take ⟨stack, expect⟩ (.word (.string k)) = some ⟨stack, .colon before k⟩ :=
      hkey
    rw [fieldPieces, List.cons_append, List.foldlM_cons, htake]
    simp [Place.take, Place.step, Place.afterValue]
  | (k, v) :: f :: fields, before, expect, _, hexpect => by
    have hkey : Place.step ⟨stack, expect⟩ (.string k) = some ⟨stack, .colon before k⟩ := by
      rcases hexpect with rfl | ⟨rfl, rfl⟩ <;> rfl
    have ih := take_fields (f :: fields) ((k, v) :: before) (.key ((k, v) :: before))
      (List.cons_ne_nil _ _) (.inl rfl)
    rw [List.reverse_cons, List.append_assoc] at ih
    have htake : Place.take ⟨stack, expect⟩ (.word (.string k)) = some ⟨stack, .colon before k⟩ :=
      hkey
    have hpieces : fieldPieces ((k, v) :: f :: fields) =
        .word (.string k) :: .word .colon :: .value v :: .word .comma ::
          fieldPieces (f :: fields) := rfl
    rw [hpieces, List.cons_append, List.foldlM_cons, htake]
    exact ih

/-- An object is taken when its end is. -/
theorem take_object (fields : List (Option String × Json)) :
    (fieldPieces fields ++ [Piece.word .closeObject]).foldlM Place.take ⟨stack, .firstKey⟩ =
      some ⟨stack, .done (.object fields)⟩ := by
  cases fields with
  | nil => rfl
  | cons f fields =>
    exact take_fields (f :: fields) [] .firstKey (List.cons_ne_nil _ _) (.inr ⟨rfl, rfl⟩)

/-! ### Words -/

/-- Pieces are written after the words of those before them. -/
theorem flatten_append (done : List Lexeme) (a b : List Piece) :
    flatten done (a ++ b) = flatten (flatten done a).reverse b := by
  fun_induction flatten done a with
  | case1 done => rw [List.nil_append, List.reverse_reverse]
  | case2 done w rest ih => rw [List.cons_append, flatten, ih]
  | case3 done rest ih => rw [List.cons_append, flatten, ih]
  | case4 done b rest ih => rw [List.cons_append, flatten, ih]
  | case5 done text rest ih => rw [List.cons_append, flatten, ih]
  | case6 done text rest ih => rw [List.cons_append, flatten, ih]
  | case7 done items rest ih =>
    rw [List.cons_append, flatten, ← ih, List.append_assoc, List.cons_append]
  | case8 done fields rest ih =>
    rw [List.cons_append, flatten, ← ih, List.append_assoc, List.cons_append]

/-- What is written after `done` leads from one place to another. -/
def Leads (written done : List Lexeme) (p q : Place) : Prop :=
  ∃ words, written = done.reverse ++ words ∧ words.foldlM Place.step p = some q

theorem Leads.cons {written : List Lexeme} (hstep : p.step w = some p')
    (h : Leads written (w :: done) p' q) :
    Leads written done p q := by
  obtain ⟨words, hwords, hread⟩ := h
  refine ⟨w :: words, by rw [hwords, List.reverse_cons, List.append_assoc]; rfl, ?_⟩
  rw [List.foldlM_cons, hstep]
  exact hread

variable (done) in
/-- The words of pieces lead where the pieces do. -/
theorem leads_flatten (h : pending.foldlM Place.take p = some q) :
    Leads (flatten done pending) done p q := by
  have hvalue : ∀ {p v rest}, (Piece.value v :: rest).foldlM Place.take p = some q →
      (p.expect = .value ∨ p.expect = .firstItem) ∧
        rest.foldlM Place.take ⟨p.stack, .done v⟩ = some q := by
    intro p v rest h
    rw [List.foldlM_cons, Option.bind_eq_bind, Option.bind_eq_some_iff] at h
    obtain ⟨_, htake, h⟩ := h
    obtain ⟨hexpect, rfl⟩ := take_value.1 htake
    exact ⟨hexpect, h⟩
  fun_induction flatten done pending generalizing p with
  | case1 done =>
    cases h
    exact ⟨[], (List.append_nil _).symm, rfl⟩
  | case2 done w rest ih =>
    rw [List.foldlM_cons, Option.bind_eq_bind, Option.bind_eq_some_iff] at h
    obtain ⟨p', hstep, h⟩ := h
    exact (ih h).cons hstep
  | case3 done rest ih =>
    obtain ⟨hexpect, h⟩ := hvalue h
    exact (ih h).cons (step_open hexpect (by decide))
  | case4 done b rest ih =>
    obtain ⟨hexpect, h⟩ := hvalue h
    exact (ih h).cons (step_open hexpect (by simp))
  | case5 done text rest ih =>
    obtain ⟨hexpect, h⟩ := hvalue h
    exact (ih h).cons (step_open hexpect (by simp))
  | case6 done text rest ih =>
    obtain ⟨hexpect, h⟩ := hvalue h
    exact (ih h).cons (step_open hexpect (by simp))
  | case7 done items rest ih =>
    obtain ⟨hexpect, h⟩ := hvalue h
    refine (ih ?_).cons (step_open hexpect (by decide))
    rw [List.append_cons, List.foldlM_append, take_array]
    exact h
  | case8 done fields rest ih =>
    obtain ⟨hexpect, h⟩ := hvalue h
    refine (ih ?_).cons (step_open hexpect (by decide))
    rw [List.append_cons, List.foldlM_append, take_object]
    exact h

/-- The words of a value are read as it. -/
theorem foldlM_lexemes (v : Json) :
    v.lexemes.foldlM Place.step ⟨[], .value⟩ = some ⟨[], .done v⟩ := by
  have htake : [Piece.value v].foldlM Place.take ⟨[], .value⟩ = some ⟨[], .done v⟩ := rfl
  obtain ⟨words, hwords, hread⟩ := leads_flatten [] htake
  rw [lexemes, hwords]
  exact hread

theorem ofLexemes?_lexemes (v : Json) : ofLexemes? v.lexemes = some v := by
  rw [ofLexemes?, foldlM_lexemes]
  rfl

/-- After a number a value is complete. -/
theorem expect_number {text : String} (h : p.step (.number text) = some p') :
    p'.expect = .done (.number text) := by
  obtain ⟨stack, expect⟩ := p
  cases expect with
  | done v =>
    have hbad : Place.afterValue v stack (.number text) = none := by
      rcases stack with _ | ⟨_ | _, stack⟩ <;> rfl
    cases hbad.symm.trans h
  | value | firstItem =>
    cases h
    rfl
  | _ => cases h

/-- What can be read after a complete value ends it. -/
theorem mem_closers_of_step (hexpect : p.expect = .done v) (h : p.step w = some p') :
    w ∈ closers := by
  obtain ⟨stack, _⟩ := p
  cases hexpect
  change Place.afterValue v stack w = some p' at h
  rcases stack with _ | ⟨_ | _, stack⟩ <;> cases w <;> first | decide | cases h

/-- Words that can be read as a value follow one another as the words of a text have to. -/
theorem isChain_follows (h : words.foldlM Place.step p = some q) : words.IsChain Follows := by
  induction words generalizing p with
  | nil => exact .nil
  | cons w words ih =>
    rw [List.foldlM_cons, Option.bind_eq_bind, Option.bind_eq_some_iff] at h
    obtain ⟨p', hstep, h⟩ := h
    refine List.isChain_cons.2 ⟨fun w' hw' text htext => ?_, ih h⟩
    subst htext
    cases words with
    | nil => cases hw'
    | cons w words =>
      cases hw'
      rw [List.foldlM_cons, Option.bind_eq_bind, Option.bind_eq_some_iff] at h
      obtain ⟨p'', hstep', -⟩ := h
      exact mem_closers_of_step (expect_number hstep) hstep'

end Pieces

/-! ### Texts -/

/-- A value that can be written: strings and keys denote texts, and numbers are natural. -/
inductive IsPlain : Json → Prop
  | null : IsPlain .null
  | bool (b : Bool) : IsPlain (.bool b)
  | nat (n : Nat) : IsPlain (.nat n)
  | text (s : String) : IsPlain (.text s)
  | array {items : List Json} : (∀ v ∈ items, IsPlain v) → IsPlain (.array items)
  | object {fields : List (Option String × Json)} :
      (∀ f ∈ fields, ∃ k, f.1 = some k) → (∀ f ∈ fields, IsPlain f.2) →
      IsPlain (.object fields)

section Texts

variable {v : Json} {pending : List Piece} {done : List Lexeme}

attribute [simp] IsPlain.text IsPlain.nat IsPlain.bool

/-- An array of written items. -/
theorem isPlain_map {α : Type} {write : α → Json} {l : List α} (h : ∀ a ∈ l, (write a).IsPlain) :
    (array (l.map write)).IsPlain :=
  .array (List.forall_mem_map.2 h)

theorem isPlain_record {fields : List (String × Json)} (h : ∀ f ∈ fields, f.2.IsPlain) :
    (record fields).IsPlain := by
  refine .object ?_ ?_
  · exact List.forall_mem_map.2 fun f _ => ⟨f.1, rfl⟩
  · exact List.forall_mem_map.2 h

/-- A piece that can be written. -/
def Piece.IsPlain : Piece → Prop
  | .word w => w.IsPlain
  | .value v => v.IsPlain

theorem isPlain_itemPieces : ∀ {items : List Json}, (∀ v ∈ items, v.IsPlain) →
    ∀ p ∈ itemPieces items, p.IsPlain
  | [], _ => List.forall_mem_nil _
  | [_], h => List.forall_mem_singleton.2 (h _ List.mem_cons_self)
  | _ :: _ :: _, h => by
    obtain ⟨hfirst, hrest⟩ := List.forall_mem_cons.1 h
    exact List.forall_mem_cons.2 ⟨hfirst, List.forall_mem_cons.2
      ⟨trivial, isPlain_itemPieces hrest⟩⟩

theorem isPlain_fieldPieces :
    ∀ {fields : List (Option String × Json)}, (∀ f ∈ fields, ∃ k, f.1 = some k) →
    (∀ f ∈ fields, f.2.IsPlain) → ∀ p ∈ fieldPieces fields, p.IsPlain
  | [], _, _ => List.forall_mem_nil _
  | [(k, v)], hkeys, h => by
    obtain ⟨hkey, -⟩ := List.forall_mem_cons.1 hkeys
    obtain ⟨hvalue, -⟩ := List.forall_mem_cons.1 h
    exact List.forall_mem_cons.2 ⟨hkey, List.forall_mem_cons.2
      ⟨trivial, List.forall_mem_singleton.2 hvalue⟩⟩
  | (k, v) :: f :: fields, hkeys, h => by
    obtain ⟨hkey, hkeys⟩ := List.forall_mem_cons.1 hkeys
    obtain ⟨hvalue, hrest⟩ := List.forall_mem_cons.1 h
    exact List.forall_mem_cons.2 ⟨hkey, List.forall_mem_cons.2 ⟨trivial, List.forall_mem_cons.2
      ⟨hvalue, List.forall_mem_cons.2 ⟨trivial, isPlain_fieldPieces hkeys hrest⟩⟩⟩⟩

/-- The words of pieces that can be written can be written. -/
theorem isPlain_flatten (hdone : ∀ w ∈ done, w.IsPlain) (h : ∀ p ∈ pending, p.IsPlain) :
    ∀ w ∈ flatten done pending, w.IsPlain := by
  have hadd : ∀ {w done}, Lexeme.IsPlain w → (∀ w ∈ done, Lexeme.IsPlain w) →
      ∀ w' ∈ w :: done, w'.IsPlain :=
    fun hw hdone => List.forall_mem_cons.2 ⟨hw, hdone⟩
  fun_induction flatten done pending with
  | case1 done => exact fun w hw => hdone w (List.mem_reverse.1 hw)
  | case2 done w rest ih =>
    obtain ⟨hw, hrest⟩ := List.forall_mem_cons.1 h
    exact ih (hadd hw hdone) hrest
  | case3 done rest ih => exact ih (hadd trivial hdone) (List.forall_mem_cons.1 h).2
  | case4 done b rest ih => exact ih (hadd trivial hdone) (List.forall_mem_cons.1 h).2
  | case5 done text rest ih =>
    obtain ⟨hnumber, hrest⟩ := List.forall_mem_cons.1 h
    cases hnumber with
    | nat n => exact ih (hadd ⟨n, rfl⟩ hdone) hrest
  | case6 done text rest ih =>
    obtain ⟨hstring, hrest⟩ := List.forall_mem_cons.1 h
    cases hstring with
    | text s => exact ih (hadd ⟨s, rfl⟩ hdone) hrest
  | case7 done items rest ih =>
    obtain ⟨harray, hrest⟩ := List.forall_mem_cons.1 h
    cases harray with
    | array hitems =>
      refine ih (hadd trivial hdone) (List.forall_mem_append.2 ⟨isPlain_itemPieces hitems, ?_⟩)
      exact List.forall_mem_cons.2 ⟨trivial, hrest⟩
  | case8 done fields rest ih =>
    obtain ⟨hobject, hrest⟩ := List.forall_mem_cons.1 h
    cases hobject with
    | object hkeys hvalues =>
      refine ih (hadd trivial hdone)
        (List.forall_mem_append.2 ⟨isPlain_fieldPieces hkeys hvalues, ?_⟩)
      exact List.forall_mem_cons.2 ⟨trivial, hrest⟩

theorem isPlain_lexemes (h : v.IsPlain) : ∀ w ∈ v.lexemes, w.IsPlain :=
  isPlain_flatten (List.forall_mem_nil _) (List.forall_mem_singleton.2 h)

/-- A plain value is read back from its text without blanks. -/
theorem parse?_compactText (h : v.IsPlain) : parse? (Utf8.encode v.compactText) = some v := by
  rw [parse?, compactText,
    lexemes?_compact (isPlain_lexemes h) (isChain_follows (foldlM_lexemes v))]
  exact ofLexemes?_lexemes v

/-- A plain value is read back from its text with one item a line. -/
theorem parse?_prettyText (h : v.IsPlain) : parse? (Utf8.encode v.prettyText) = some v := by
  rw [parse?, prettyText, lexemes?_pretty (isPlain_lexemes h) (isChain_follows (foldlM_lexemes v))]
  exact ofLexemes?_lexemes v

end Texts

end TableParser.Json
