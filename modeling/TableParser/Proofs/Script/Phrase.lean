import TableParser.Proofs.Script.Document
import TableParser.Proofs.Script.Extension
/-!
Texts whose tokens stand apart.

Nothing that is not hidden reads on into a blank, and no blank reads on into a token that is not
hidden. So a text in which every token is followed by a gap, that is by blanks or by a comment up to
the end of its line, has the tokens that it was put together from, whatever these are:

    lexeme  gap  lexeme  gap  lexeme  gap
    a       ·    ==      ·#…⏎  "b\""   ⏎

Such a row of tokens can be followed by another row, and a phrase is what a gap makes a row. So what
rows and phrases are made of a language of words is an inequality of languages, and those of the
grammar carry over to texts.

Main statements: `Spells.scans` and `sentence_of_rows`.
-/

open Computability

namespace TableParser.Script

variable {kind : SymbolId} {lexeme gap rest u v w : List Char} {word word' : List SymbolId}

/-! ### Blanks between tokens -/

/-- After a blank only blanks are read on. -/
theorem step_after_blank {s : StateId} {c : Char} (h : tables.automaton.step 1 c = some s) :
    s = 1 ∧ IsBlank c := by
  obtain ⟨st, e, hst, he, hadmits, rfl⟩ := Automaton.exists_edge h
  obtain rfl : ⟨some whitespace, [⟨blanks, 1⟩]⟩ = st := Option.some.inj hst
  obtain rfl := List.mem_singleton.1 he
  have htexts : [c] ∈ Edge.texts ⟨blanks, 1⟩ := singleton_mem_single.2 hadmits
  rw [texts_blanks] at htexts
  exact ⟨rfl, singleton_mem_single.1 htexts⟩

theorem path_after_blank {s : StateId} (h : tables.automaton.path 1 w = some s) : s = 1 := by
  induction w with
  | nil => exact (Option.some.inj h).symm
  | cons c w ih =>
    rw [Automaton.path_cons] at h
    obtain ⟨s', hstep, hpath⟩ := Option.bind_eq_some_iff.1 h
    obtain ⟨rfl, -⟩ := step_after_blank hstep
    exact ih hpath

/-- No blank is at the front. -/
def StartsPlain (w : List Char) : Prop := ∀ c ∈ w.head?, ¬ IsBlank c

/-- A token that is not hidden does not start with a blank. -/
theorem startsPlain_of_spelling (hw : w ∈ spelling kind) (hshown : tables.isHidden kind = false)
    (rest : List Char) :
    StartsPlain (w ++ rest) := by
  have hblank : ∀ c u, w = c :: u → ¬ IsBlank c := by
    rintro c u rfl hc
    rcases spelling_cases hw with ⟨-, hquoted⟩ | ⟨s, -, rfl, -, hstate⟩
    · obtain ⟨u, -, hu⟩ := mem_quoted.1 hquoted
      cases hu
      exact absurd hc (by decide)
    · have hfirst : ∀ c ∈ [' ', '\t', '\n', '\r'], tables.automaton.step 0 c = some 1 :=
        List.all_iff_forall_prop.1 (by decide)
      rw [← reached_eq, Automaton.mem_reached, Automaton.path_cons] at hstate
      rw [show tables.automaton.step tables.automaton.initial c = some 1 from hfirst c hc,
        Option.bind_some] at hstate
      obtain rfl := path_after_blank hstate
      cases hshown
  obtain ⟨c, u, rfl⟩ := List.exists_cons_of_ne_nil (first_of_lexeme (.inl hw)).1
  rintro _ ⟨⟩
  exact hblank c u rfl

theorem first_blanks (hu : u ∈ plus (single IsBlank)) (hrest : StartsPlain rest) :
    Cut.first tables (u ++ rest) = ⟨whitespace, u, rest⟩ := by
  have hreached : u ∈ tables.automaton.reached 1 := by
    rw [reached_eq]
    exact hu
  refine first_of_reached hreached (mem_plus_single.1 hu).1 (by decide) fun c hc => ?_
  refine Option.eq_none_iff_forall_ne_some.2 fun s hstep => hrest c hc (step_after_blank hstep).2

theorem first_comment (hu : u ∈ comments) (rest : List Char) :
    Cut.first tables (u ++ '\n' :: rest) = ⟨comment, u, '\n' :: rest⟩ := by
  have hreached : u ∈ tables.automaton.reached 2 := by
    rw [reached_eq]
    exact hu
  have hne : u ≠ [] := by
    obtain ⟨_, ⟨c, -, rfl⟩, v, -, rfl⟩ := hu
    exact List.cons_ne_nil _ _
  refine first_of_reached hreached hne (by decide) ?_
  rintro _ ⟨⟩
  exact step_blank (by decide) (by decide) (by decide) (by decide) fun _ => rfl

/-- A token that is not hidden ends before a blank. -/
theorem first_before_blank (hw : w ∈ spelling kind) (hshown : tables.isHidden kind = false)
    {c : Char} (hc : IsBlank c) (rest : List Char) :
    Cut.first tables (w ++ c :: rest) = ⟨kind, w, c :: rest⟩ := by
  rcases spelling_cases hw with ⟨rfl, hquoted⟩ | ⟨s, hs, rfl, hstring, hstate⟩
  · obtain ⟨u, hu, rfl⟩ := mem_quoted.1 hquoted
    rw [List.cons_append, first_quote, List.append_assoc, List.singleton_append,
      closing_of_units hu]
    rfl
  · have hreached : w ∈ tables.automaton.reached s := by rwa [reached_eq]
    rw [← kindAt_eq] at hstring ⊢
    refine first_of_reached hreached (first_of_lexeme (.inl hw)).1 hstring ?_
    rintro _ ⟨⟩
    have hhidden : tables.isHidden (kindOf 1) = true ∧ tables.isHidden (kindOf 2) = true := by
      decide
    refine step_blank (number_lt hstate) (fun hzero => ?_) (fun hone => ?_) hc fun htwo => ?_
    · exact hs (UInt32.toNat_inj.1 hzero)
    · rw [hone, hhidden.1] at hshown
      cases hshown
    · rw [htwo, hhidden.2] at hshown
      cases hshown

/-- What has spellings is a terminal, and not the one for errors. -/
theorem terminal_of_spelling (hw : w ∈ spelling kind) :
    kind ≠ error ∧ tables.isNonTerminal kind = false := by
  have hall : ∀ s ∈ spellings.map Prod.fst, s ≠ error ∧ tables.isNonTerminal s = false := by
    simp only [spellings, List.map_cons, List.map_nil]
    decide
  obtain ⟨l, hl, -⟩ := hw
  exact hall kind (List.mem_map_of_mem hl)

/-- What stands between two tokens: blanks, or blanks and a comment up to the end of its line. -/
def gaps : Language Char :=
  plus (single IsBlank) + plus (single IsBlank) * comments * single (· = '\n')

theorem blank_of_gap (h : gap ∈ gaps) : ∃ c u, gap = c :: u ∧ IsBlank c := by
  have hplus : ∀ {u}, u ∈ plus (single IsBlank) → ∃ c v, u = c :: v ∧ IsBlank c := by
    intro u hu
    obtain ⟨hne, hblank⟩ := mem_plus_single.1 hu
    obtain ⟨c, v, rfl⟩ := List.exists_cons_of_ne_nil hne
    exact ⟨c, v, rfl, hblank c List.mem_cons_self⟩
  rcases h with hblanks | ⟨_, ⟨u, hu, w, -, rfl⟩, e, -, rfl⟩
  · exact hplus hblanks
  · obtain ⟨c, v, rfl, hc⟩ := hplus hu
    exact ⟨c, v ++ w ++ e, by simp, hc⟩

/-! ### Scans -/

/-- Wherever a scan comes to a text, it finds no errors in it, and the symbols of a word apart from
what is hidden. -/
def Scans (text : List Char) (word : List SymbolId) : Prop :=
  ∀ source p, (∀ tok ∈ (TokenStream.ofScanner tables ⟨source, text, p⟩).ahead, tok.symbol ≠ error) ∧
    (TokenStream.ofScanner tables ⟨source, text, p⟩).word tables = word

theorem scans_nil : Scans [] [] := by
  intro source p
  rw [TokenStream.ofScanner_last rfl]
  exact ⟨List.forall_mem_nil _, rfl⟩

/-- A cut that is no error is one more token. -/
theorem Scans.cut (h : Scans rest word) (hne : u ≠ [])
    (hcut : Cut.first tables u = ⟨kind, lexeme, rest⟩) (hkind : kind ≠ error) :
    Scans u (if tables.isHidden kind then word else kind :: word) := by
  intro source p
  obtain ⟨hok, hword⟩ := h source (p.after (String.ofList lexeme))
  rw [TokenStream.word, TokenStream.shown, ahead_ofScanner source hne p hcut, ← hword]
  refine ⟨List.forall_mem_cons.2 ⟨hkind, hok⟩, ?_⟩
  cases hhidden : tables.isHidden kind with
  | true =>
    rw [List.filter_cons_of_neg (by simp [hhidden]), if_pos rfl, TokenStream.word,
      TokenStream.shown]
  | false =>
    rw [List.filter_cons_of_pos (by simp [hhidden]), if_neg Bool.false_ne_true, List.map_cons,
      TokenStream.word, TokenStream.shown]

/-- A gap is hidden. -/
theorem Scans.skip (h : Scans rest word) (hgap : gap ∈ gaps) (hrest : StartsPlain rest) :
    Scans (gap ++ rest) word := by
  have hne : gap ++ rest ≠ [] := by
    obtain ⟨c, u, rfl, -⟩ := blank_of_gap hgap
    exact List.cons_ne_nil _ _
  rcases hgap with hblanks | ⟨_, ⟨u, hu, w, hw, rfl⟩, _, ⟨c, rfl, rfl⟩, rfl⟩
  · exact h.cut hne (first_blanks hblanks hrest) (by decide)
  · have hline : ['\n'] ∈ plus (single IsBlank) := le_plus (singleton_mem_single.2 (by decide))
    have hhash : StartsPlain (w ++ '\n' :: rest) := by
      obtain ⟨_, ⟨d, rfl, rfl⟩, v, -, rfl⟩ := hw
      rintro _ ⟨⟩
      decide
    have hend : Scans ('\n' :: rest) word :=
      h.cut (List.cons_ne_nil _ _) (first_blanks hline hrest) (by decide)
    have hcomment : Scans (w ++ '\n' :: rest) word :=
      hend.cut (List.append_ne_nil_of_right_ne_nil w (List.cons_ne_nil _ _))
        (first_comment hw rest) (by decide)
    rw [List.append_assoc, List.append_assoc, List.singleton_append] at hne ⊢
    exact hcomment.cut hne (first_blanks hu hhash) (by decide)

/-! ### Rows and phrases -/

/-- A text is a row of tokens that are not hidden, with a gap after each. -/
inductive Spells : List SymbolId → List Char → Prop where
  | nil : Spells [] []
  | cons {kind : SymbolId} {lexeme gap rest : List Char} {word : List SymbolId}
      (shown : tables.isHidden kind = false) (token : lexeme ∈ spelling kind) (apart : gap ∈ gaps)
      (more : Spells word rest) : Spells (kind :: word) (lexeme ++ (gap ++ rest))

namespace Spells

theorem append (h : Spells word u) (h' : Spells word' v) : Spells (word ++ word') (u ++ v) := by
  induction h with
  | nil => exact h'
  | cons shown token apart _ ih =>
    rw [List.cons_append, List.append_assoc, List.append_assoc]
    exact .cons shown token apart ih

theorem startsPlain (h : Spells word u) : StartsPlain u := by
  cases h with
  | nil => rintro _ ⟨⟩
  | cons shown token => exact startsPlain_of_spelling token shown _

/-- A row is scanned as the tokens that it was put together from. -/
theorem scans (h : Spells word u) : Scans u word := by
  induction h with
  | nil => exact scans_nil
  | @cons kind lexeme gap rest word shown token apart more ih =>
    have hrest := ih.skip apart more.startsPlain
    have hne : lexeme ++ (gap ++ rest) ≠ [] :=
      List.append_ne_nil_of_left_ne_nil (first_of_lexeme (.inl token)).1 _
    obtain ⟨c, v, rfl, hc⟩ := blank_of_gap apart
    have hscans :=
      hrest.cut hne (first_before_blank token shown hc (v ++ rest)) (terminal_of_spelling token).1
    rwa [shown, if_neg Bool.false_ne_true] at hscans

/-- The symbols of a row are terminals. -/
theorem terminal (h : Spells word u) : ∀ s ∈ word, tables.isNonTerminal s = false := by
  induction h with
  | nil => exact List.forall_mem_nil _
  | cons shown token _ _ ih => exact List.forall_mem_cons.2 ⟨(terminal_of_spelling token).2, ih⟩

end Spells

/-- The rows of the words of a language. -/
def rows (l : Language SymbolId) : Language Char := {w | ∃ word ∈ l, Spells word w}

/-- The texts that a gap makes rows of the words of a language. -/
def phrases (l : Language SymbolId) : Language Char :=
  {w | ∃ word ∈ l, ∀ gap ∈ gaps, Spells word (w ++ gap)}

section Phrases

variable {l m : Language SymbolId}

theorem rows_mono (h : l ≤ m) : rows l ≤ rows m := by
  rintro w ⟨word, hword, hw⟩
  exact ⟨word, h hword, hw⟩

theorem phrases_mono (h : l ≤ m) : phrases l ≤ phrases m := by
  rintro w ⟨word, hword, hw⟩
  exact ⟨word, h hword, hw⟩

/-- A token is a phrase. -/
theorem mem_phrases_of_spelling (hshown : tables.isHidden kind = false) (hw : w ∈ spelling kind) :
    w ∈ phrases {[kind]} := by
  refine ⟨[kind], rfl, fun gap hgap => ?_⟩
  simpa using Spells.cons hshown hw hgap .nil

theorem phrases_mul_gaps_le : phrases l * gaps ≤ rows l := by
  rintro _ ⟨w, ⟨word, hword, hw⟩, gap, hgap, rfl⟩
  exact ⟨word, hword, hw gap hgap⟩

theorem rows_mul_le : rows l * rows m ≤ rows (l * m) := by
  rintro _ ⟨u, ⟨word, hword, hu⟩, v, ⟨word', hword', hv⟩, rfl⟩
  exact ⟨word ++ word', Language.append_mem_mul hword hword', hu.append hv⟩

theorem rows_mul_phrases_le : rows l * phrases m ≤ phrases (l * m) := by
  rintro _ ⟨u, ⟨word, hword, hu⟩, v, ⟨word', hword', hv⟩, rfl⟩
  refine ⟨word ++ word', Language.append_mem_mul hword hword', fun gap hgap => ?_⟩
  simpa using hu.append (hv gap hgap)

/-- Rows one after the other are a row. -/
theorem rows_kstar_le : (rows l)∗ ≤ rows l∗ := by
  refine kstar_le_of_mul_le_left ?_ (rows_mul_le.trans (rows_mono kstar_mul_le_kstar))
  rintro _ rfl
  exact ⟨[], Language.nil_mem_kstar l, .nil⟩

theorem ne_nil_of_gap (h : w ∈ phrases l * gaps) : w ≠ [] := by
  obtain ⟨u, -, gap, hgap, rfl⟩ := h
  obtain ⟨c, v, rfl, -⟩ := blank_of_gap hgap
  exact List.append_ne_nil_of_right_ne_nil u (List.cons_ne_nil c v)

end Phrases

/-! ### Statements -/

/-- The words that a symbol derives. -/
def derived (x : SymbolId) : Language SymbolId := {word | tables.Derives [x] word}

theorem derived_le {x y : SymbolId} (rule : RuleId) (known : ruleAt rule = some ⟨x, [y]⟩) :
    derived y ≤ derived x :=
  fun _ h => .of_rule ((rule?_eq rule).trans known) h

theorem derived_mul_le {x y z : SymbolId} (rule : RuleId) (known : ruleAt rule = some ⟨x, [y, z]⟩) :
    derived y * derived z ≤ derived x := by
  rintro _ ⟨u, hu, v, hv, rfl⟩
  exact .of_rule ((rule?_eq rule).trans known) (Tables.Derives.append hu hv)

theorem one_le_derived {x : SymbolId} (rule : RuleId) (known : ruleAt rule = some ⟨x, []⟩) :
    1 ≤ derived x := by
  rintro _ rfl
  exact .of_rule ((rule?_eq rule).trans known) .refl

theorem singleton_le_derived (x : SymbolId) : {[x]} ≤ derived x := by
  rintro _ rfl
  exact .refl

theorem mem_derived_scalar {s : SymbolId} (h : s ∈ scalars) : [s] ∈ derived scalar :=
  Document.derives_scalar h

/-- Statements in a row. -/
theorem kstar_le_statements : (derived statement)∗ ≤ derived statements :=
  kstar_le_of_mul_le_right (one_le_derived ⟨3⟩ rfl) (derived_mul_le ⟨2⟩ rfl)

theorem kstar_le_config : (derived statement)∗ ≤ derived config := by
  rw [← one_add_mul_kstar, add_le_iff]
  refine ⟨one_le_derived ⟨1⟩ rfl, ?_⟩
  grw [kstar_le_statements]
  exact derived_mul_le ⟨0⟩ rfl

/-- A scalar by itself. -/
theorem scalar_le_statement : derived scalar ≤ derived statement := by
  calc derived scalar = derived scalar * 1 := (mul_one _).symm
    _ ≤ derived scalar * derived statementTail := by grw [one_le_derived ⟨7⟩ rfl]
    _ ≤ derived statement := derived_mul_le ⟨4⟩ rfl

/-- A scalar, an operator and a value. -/
theorem setting_le_statement :
    derived scalar * {[specifier]} * derived value ≤ derived statement := by
  calc derived scalar * {[specifier]} * derived value
      = derived scalar * ({[specifier]} * derived value) := mul_assoc _ _ _
    _ ≤ derived scalar * (derived specifier * derived value) := by grw [singleton_le_derived]
    _ ≤ derived scalar * derived statementTail := by grw [derived_mul_le ⟨6⟩ rfl]
    _ ≤ derived statement := derived_mul_le ⟨4⟩ rfl

/-- Statements in braces. -/
theorem braces_le_block : {[lbrace]} * (derived statement)∗ * {[rbrace]} ≤ derived block := by
  grw [kstar_le_statements]
  rintro _ ⟨_, ⟨_, rfl, w, hw, rfl⟩, _, rfl, rfl⟩
  exact Document.derives_block hw

/-- A row of statements is a document, and is scanned as one. -/
theorem sentence_of_rows {source : String} (h : source.toList ∈ rows (derived statement)∗) :
    (∀ tok ∈ tokenize tables source, tok.symbol ≠ error) ∧
      tables.IsSentence ((TokenStream.ofSource tables source).word tables) := by
  obtain ⟨word, hword, hspells⟩ := h
  obtain ⟨hok, hscans⟩ := hspells.scans source .start
  refine ⟨fun tok htok => ?_, ?_⟩
  · rcases List.mem_append.1 htok with hahead | hlast
    · exact hok tok hahead
    · rw [List.mem_singleton.1 hlast, last_ofSource]
      decide
  · have hsource : (TokenStream.ofSource tables source).word tables = word := hscans
    rw [hsource]
    exact ⟨kstar_le_config hword, hspells.terminal⟩

end TableParser.Script
