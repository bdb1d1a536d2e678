import TableParser.Proofs.Script.StateTexts
import TableParser.Proofs.Script.Termination
/-!
The tokens of the settings language.

Most tokens end at a state of the automaton that accepts their kind. A string does not: the
automaton stops after the opening quote, and the block end looks for the closing one from there. It
finds the first quote that stands after characters of a string, so without one all that is left is
an error.

Main statement: `tokenize_eq_iff_lexeme`.
-/

open Computability

namespace TableParser.Script

/-! ### Whole numbers -/

theorem digits_mem_whole {w : List Char} (h : w ∈ plus (single IsDigit)) : w ∈ whole :=
  Language.append_mem_mul (a := []) (.inl rfl) h

theorem minus_mem_whole {w : List Char} (h : w ∈ plus (single IsDigit)) : '-' :: w ∈ whole :=
  Language.append_mem_mul (a := ['-']) (.inr ⟨_, rfl, rfl⟩) h

/-! ### Strings -/

theorem mem_unit {w : List Char} :
    w ∈ unit ↔ (∃ c, c ≠ '"' ∧ c ≠ '\\' ∧ w = [c]) ∨ ∃ d, w = ['\\', d] := by
  rw [unit, Language.mem_add]
  refine or_congr ?_ ?_
  · simp [mem_single, and_assoc]
  · rw [Language.mem_mul]
    constructor
    · rintro ⟨_, ⟨c, rfl, rfl⟩, _, ⟨d, -, rfl⟩, rfl⟩
      exact ⟨d, rfl⟩
    · rintro ⟨d, rfl⟩
      exact ⟨['\\'], ⟨_, rfl, rfl⟩, [d], ⟨d, trivial, rfl⟩, rfl⟩

theorem cons_mem_units {w u : List Char} (hw : w ∈ unit) (hu : u ∈ unit∗) : w ++ u ∈ unit∗ :=
  mul_kstar_le_kstar (a := unit) (Language.append_mem_mul hw hu)

theorem mem_quoted {w : List Char} : w ∈ quoted ↔ ∃ u ∈ unit∗, w = '"' :: (u ++ ['"']) := by
  rw [quoted, mul_assoc, Language.mem_mul]
  constructor
  · rintro ⟨_, ⟨c, rfl, rfl⟩, _, hrest, rfl⟩
    obtain ⟨u, hu, _, ⟨d, rfl, rfl⟩, rfl⟩ := Language.mem_mul.1 hrest
    exact ⟨u, hu, rfl⟩
  · rintro ⟨u, hu, rfl⟩
    exact ⟨['"'], ⟨_, rfl, rfl⟩, u ++ ['"'], Language.append_mem_mul hu ⟨_, rfl, rfl⟩, rfl⟩

/-- The search for the closing quote of a string. -/
def closing (before rest : List Char) : Option (List Char × List Char) :=
  BlockEnd.find ['"'] (some '\\') before rest

theorem closing_quote (before v : List Char) :
    closing before ('"' :: v) = some (before.reverse ++ ['"'], v) := by
  cases v <;> simp [closing, BlockEnd.find]

theorem closing_plain {c : Char} (hquote : c ≠ '"') (hescape : c ≠ '\\') (before v : List Char) :
    closing before (c :: v) = closing (c :: before) v := by
  cases v <;> simp [closing, BlockEnd.find, hquote.symm, hescape]

theorem closing_escape (d : Char) (before v : List Char) :
    closing before ('\\' :: d :: v) = closing (d :: '\\' :: before) v := by
  simp [closing, BlockEnd.find]

/-- The closing quote is found after any characters of a string. -/
theorem closing_of_units {u v : List Char} (hu : u ∈ unit∗) : ∀ before : List Char,
    closing before (u ++ '"' :: v) = some (before.reverse ++ u ++ ['"'], v) := by
  obtain ⟨units, rfl, hunits⟩ := Language.mem_kstar.1 hu
  clear hu
  induction units with
  | nil =>
    intro before
    rw [List.flatten_nil, List.nil_append, List.append_nil, closing_quote]
  | cons w units ih =>
    intro before
    rw [List.forall_mem_cons] at hunits
    rcases mem_unit.1 hunits.1 with ⟨c, hquote, hescape, rfl⟩ | ⟨d, rfl⟩
    · rw [List.flatten_cons, List.append_assoc, List.singleton_append, closing_plain hquote hescape,
        ih hunits.2]
      simp
    · rw [List.flatten_cons, List.append_assoc, List.cons_append, List.singleton_append,
        closing_escape, ih hunits.2]
      simp

/-- What stands before a quote that is found are characters of a string. -/
theorem units_of_closing {v : List Char} : ∀ {rest before body : List Char},
    closing before rest = some (body, v) →
      ∃ u ∈ unit∗, rest = u ++ '"' :: v ∧ body = before.reverse ++ u ++ ['"']
  | [], _, _, h => by cases h
  | c :: rest, before, body, h => by
    by_cases hquote : c = '"'
    · rw [hquote, closing_quote] at h
      cases h
      exact ⟨[], Language.nil_mem_kstar unit, by rw [hquote]; rfl, by rw [List.append_nil]⟩
    · by_cases hescape : c = '\\'
      · subst hescape
        cases rest with
        | nil => simp [closing, BlockEnd.find] at h
        | cons d rest =>
          rw [closing_escape] at h
          obtain ⟨u, hu, rfl, rfl⟩ := units_of_closing h
          exact ⟨['\\', d] ++ u, cons_mem_units (mem_unit.2 (.inr ⟨d, rfl⟩)) hu, rfl, by simp⟩
      · rw [closing_plain hquote hescape] at h
        obtain ⟨u, hu, rfl, rfl⟩ := units_of_closing h
        exact ⟨[c] ++ u, cons_mem_units (mem_unit.2 (.inl ⟨c, hquote, hescape, rfl⟩)) hu,
          rfl, by simp⟩

/-- A string is unterminated when the search for its closing quote fails. -/
theorem mem_unterminated {v : List Char} : '"' :: v ∈ unterminated ↔ closing [] v = none := by
  constructor
  · rintro ⟨-, hopen⟩
    refine Option.eq_none_iff_forall_ne_some.2 ?_
    rintro ⟨body, rest⟩ hclosing
    obtain ⟨u, hu, rfl, -⟩ := units_of_closing hclosing
    exact hopen _ (mem_quoted.2 ⟨u, hu, rfl⟩) ⟨rest, by simp⟩
  · intro hclosing
    refine ⟨rfl, fun t ht hprefix => ?_⟩
    obtain ⟨u, hu, rfl⟩ := mem_quoted.1 ht
    obtain ⟨rest, hrest⟩ := hprefix
    obtain rfl : u ++ '"' :: rest = v := by simpa using hrest
    rw [closing_of_units hu] at hclosing
    cases hclosing

/-! ### Kinds -/

/-- The kind of a token that ends at a state with a number. -/
def kindOf (n : Nat) : SymbolId := ((states[n]?).bind AutomatonState.accept).getD error

theorem kindAt_eq (s : StateId) : tables.kindAt s = kindOf s.toNat := by
  rw [Tables.kindAt, kindOf, Automaton.state?]
  exact congrArg (fun o => (Option.bind o AutomatonState.accept).getD error) List.getElem?_toArray

/-- Operators are the texts of three states. -/
theorem mem_operators {w : List Char} :
    w ∈ operators ↔ w ∈ stateTexts 5 ∨ w ∈ stateTexts 6 ∨ w ∈ stateTexts 8 := by
  have htexts : w ∈ operators ↔ w = ['='] ∨ w = ['=', '='] ∨ w = ['<'] ∨ w = ['>'] ∨
      w = ['<', '='] ∨ w = ['>', '='] ∨ w = ['!', '='] := by
    change w ∈ ["=", "==", "<", ">", "<=", ">=", "!="].map String.toList ↔ _
    simp
  have hpair : ∀ (p : Char → Prop), w ∈ single p * single (· = '=') ↔ ∃ c, p c ∧ w = [c, '='] := by
    intro p
    rw [Language.mem_mul]
    constructor
    · rintro ⟨_, ⟨c, hc, rfl⟩, _, ⟨d, rfl, rfl⟩, rfl⟩
      exact ⟨c, hc, rfl⟩
    · rintro ⟨c, hc, rfl⟩
      exact ⟨[c], ⟨c, hc, rfl⟩, ['='], ⟨_, rfl, rfl⟩, rfl⟩
  rw [htexts]
  simp only [stateTexts, add_mul, Language.mem_add, hpair, mem_single, or_and_right, exists_or,
    exists_eq_left]
  grind

/-- Errors are the texts of the states that accept nothing, and what the automaton alone cannot
tell. -/
theorem mem_errors {w : List Char} : w ∈ errors ↔ (w ∈ stateTexts 10 ∨ w ∈ stateTexts 7 ∨
    w ∈ stateTexts 12 ∨ w ∈ stateTexts 14) ∨ w ∈ unterminated ∨ w ∈ strays := by
  simp only [errors, stateTexts, add_mul, Language.mem_add, or_assoc]

/-- The spellings of the kind at a place of the list. -/
theorem le_spelling (i : Nat) {kind : SymbolId} {l : Language Char}
    (h : spellings[i]? = some (kind, l)) :
    l ≤ spelling kind :=
  fun _ hw => ⟨l, List.mem_of_getElem? h, hw⟩

/-- A token that ends at a state, other than that of strings, is spelled as its kind says. -/
theorem lexeme_of_state {w : List Char} :
    ∀ n, n ≠ 0 → n ≠ 9 → w ∈ stateTexts n → w ∈ lexemes (kindOf n)
  | 1, _, _, hw => .inl (le_spelling 0 rfl hw)
  | 2, _, _, hw => .inl (le_spelling 1 rfl hw)
  | 3, _, _, hw => .inl (le_spelling 2 rfl hw)
  | 4, _, _, hw => .inl (le_spelling 3 rfl hw)
  | 5, _, _, hw => .inl (le_spelling 4 rfl (mem_operators.2 (.inl hw)))
  | 6, _, _, hw => .inl (le_spelling 4 rfl (mem_operators.2 (.inr (.inl hw))))
  | 7, _, _, hw => .inr ⟨rfl, mem_errors.2 (.inl (.inr (.inl hw)))⟩
  | 8, _, _, hw => .inl (le_spelling 4 rfl (mem_operators.2 (.inr (.inr hw))))
  | 10, _, _, hw => .inr ⟨rfl, mem_errors.2 (.inl (.inl hw))⟩
  | 11, _, _, hw => .inl (le_spelling 7 rfl hw)
  | 12, _, _, hw => .inr ⟨rfl, mem_errors.2 (.inl (.inr (.inr (.inl hw))))⟩
  | 13, _, _, hw => .inl (le_spelling 8 rfl hw)
  | 14, _, _, hw => .inr ⟨rfl, mem_errors.2 (.inl (.inr (.inr (.inr hw))))⟩
  | 15, _, _, hw => .inl (le_spelling 5 rfl hw)
  | 16, _, _, hw => .inl (le_spelling 9 rfl hw)
  | _ + 17, _, _, hw => absurd hw (Language.notMem_zero _)

/-- A token is a string, or it ends at a state of its kind. -/
theorem spelling_cases {kind : SymbolId} {w : List Char} (hw : w ∈ spelling kind) :
    (kind = string ∧ w ∈ quoted) ∨
      ∃ s : StateId, s ≠ 0 ∧ kindOf s.toNat = kind ∧ kind ≠ string ∧ w ∈ stateTexts s.toNat := by
  obtain ⟨l, hl, hw⟩ := hw
  simp only [spellings, List.mem_cons, Prod.mk.injEq, List.not_mem_nil, or_false] at hl
  rcases hl with ⟨rfl, rfl⟩ | ⟨rfl, rfl⟩ | ⟨rfl, rfl⟩ | ⟨rfl, rfl⟩ | ⟨rfl, rfl⟩ | ⟨rfl, rfl⟩ |
    ⟨rfl, rfl⟩ | ⟨rfl, rfl⟩ | ⟨rfl, rfl⟩ | ⟨rfl, rfl⟩
  · exact .inr ⟨1, by decide, rfl, by decide, hw⟩
  · exact .inr ⟨2, by decide, rfl, by decide, hw⟩
  · exact .inr ⟨3, by decide, rfl, by decide, hw⟩
  · exact .inr ⟨4, by decide, rfl, by decide, hw⟩
  · rcases mem_operators.1 hw with hw | hw | hw
    · exact .inr ⟨5, by decide, rfl, by decide, hw⟩
    · exact .inr ⟨6, by decide, rfl, by decide, hw⟩
    · exact .inr ⟨8, by decide, rfl, by decide, hw⟩
  · exact .inr ⟨15, by decide, rfl, by decide, hw⟩
  · exact .inl ⟨rfl, hw⟩
  · exact .inr ⟨11, by decide, rfl, by decide, hw⟩
  · exact .inr ⟨13, by decide, rfl, by decide, hw⟩
  · exact .inr ⟨16, by decide, rfl, by decide, hw⟩

theorem number_lt {w : List Char} {n : Nat} (hw : w ∈ stateTexts n) : n < 17 := by
  refine Nat.lt_of_not_le fun hle => ?_
  obtain ⟨m, rfl⟩ := Nat.exists_eq_add_of_le' hle
  exact Language.notMem_zero w hw

/-- Every text that leads to a state starts a token: where the state accepts none, one more
character leads to a state that does. -/
theorem exists_spelling {w : List Char} (hne : w ≠ []) {n : Nat} (hw : w ∈ stateTexts n) :
    ∃ kind rest, w ++ rest ∈ spelling kind := by
  have hends : ∀ m rest, m ≠ 0 → m ≠ 9 → kindOf m ≠ error → w ++ rest ∈ stateTexts m →
      ∃ kind rest, w ++ rest ∈ spelling kind := by
    intro m rest hzero hquote hkind hrest
    rcases lexeme_of_state m hzero hquote hrest with h | ⟨herror, -⟩
    · exact ⟨kindOf m, rest, h⟩
    · exact absurd herror hkind
  have hmore : ∀ {p : Char → Prop} {c : Char}, p c → w ++ [c] ∈ stateTexts n * single p :=
    fun hc => Language.append_mem_mul hw (singleton_mem_single.2 hc)
  have hdigit : IsDigit '0' := ⟨by decide, by decide⟩
  have hstops : ∀ n < 17, kindOf n = error → n = 0 ∨ n = 7 ∨ n = 10 ∨ n = 12 ∨ n = 14 := by decide
  by_cases hkind : kindOf n = error
  · rcases hstops n (number_lt hw) hkind with rfl | rfl | rfl | rfl | rfl
    · exact absurd hw hne
    · exact hends 8 ['='] (by decide) (by decide) (by decide)
        (steps_stateTexts.bangEquals (hmore rfl))
    · exact hends 11 ['0'] (by decide) (by decide) (by decide)
        (steps_stateTexts.minusDigit (hmore hdigit))
    · exact hends 13 ['0'] (by decide) (by decide) (by decide)
        (steps_stateTexts.fraction (hmore hdigit))
    · exact hends 16 ['0'] (by decide) (by decide) (by decide) (steps_stateTexts.day (hmore hdigit))
  · by_cases hquote : n = 9
    · subst hquote
      obtain ⟨c, rfl, rfl⟩ := hw
      exact ⟨string, ['"'], le_spelling 6 rfl (mem_quoted.2 ⟨[], Language.nil_mem_kstar unit, rfl⟩)⟩
    · refine hends n [] ?_ hquote hkind ?_
      · rintro rfl
        exact hkind rfl
      · rwa [List.append_nil]

/-! ### Cuts -/

theorem blockEnd?_of_ne {kind : SymbolId} (h : kind ≠ string) : tables.blockEnd? kind = none := by
  have hindex : string.index ≠ kind.index := fun heq => h (SymbolId.index_inj.1 heq).symm
  have htable : tables.blockEnds = (Array.replicate 19 none).setIfInBounds string.index
      (some ⟨string, "\"", some '\\'⟩) := rfl
  rw [Tables.blockEnd?, htable, Array.getElem?_setIfInBounds_ne hindex, Array.getElem?_replicate]
  split <;> rfl

/-- The first cut ends where the automaton is stuck, unless it is in a string. -/
theorem first_of_reached {s : StateId} {u v : List Char} (hu : u ∈ tables.automaton.reached s)
    (hne : u ≠ []) (hkind : tables.kindAt s ≠ string) (hstuck : tables.automaton.Stuck s v) :
    Cut.first tables (u ++ v) = ⟨tables.kindAt s, u, v⟩ := by
  rw [Cut.first, Cut.munch_eq hu hne hstuck, Cut.extend_of_none (blockEnd?_of_ne hkind)]

theorem quote_reached : ['"'] ∈ tables.automaton.reached 9 := by
  rw [reached_eq]
  exact ⟨_, rfl, rfl⟩

/-- After an opening quote the first cut ends at the closing one, and at the end of the input
without one. -/
theorem first_quote (v : List Char) : Cut.first tables ('"' :: v) =
    (closing [] v).elim ⟨error, '"' :: v, []⟩ fun p => ⟨string, '"' :: p.1, p.2⟩ := by
  have hstuck : tables.automaton.Stuck 9 v := fun c _ => rfl
  have hmunch : Cut.munch tables (['"'] ++ v) = ⟨string, ['"'], v⟩ :=
    Cut.munch_eq quote_reached (List.cons_ne_nil _ _) hstuck
  have hstring : ¬ string = tables.error := by decide
  have hend : tables.blockEnd? string = some ⟨string, "\"", some '\\'⟩ := rfl
  have hsplit : BlockEnd.split ⟨string, "\"", some '\\'⟩ v = closing [] v := rfl
  rw [Cut.first, ← List.singleton_append, hmunch, Cut.extend]
  simp only [hstring, if_false, hend, hsplit]
  cases closing [] v with
  | none => rfl
  | some p => rfl

/-! ### Single tokens -/

/-- A token starts with a character that the automaton reads. -/
theorem step_of_spelling {kind : SymbolId} {c : Char} {rest : List Char}
    (h : c :: rest ∈ spelling kind) :
    tables.automaton.step 0 c ≠ none := by
  have hreads : ∃ s u, c :: u ∈ tables.automaton.reached s := by
    rcases spelling_cases h with ⟨-, hquoted⟩ | ⟨s, -, -, -, hstate⟩
    · obtain ⟨u, -, hu⟩ := mem_quoted.1 hquoted
      cases hu
      exact ⟨9, [], quote_reached⟩
    · exact ⟨s, rest, by rwa [reached_eq]⟩
  obtain ⟨s, u, hpath⟩ := hreads
  rw [Automaton.mem_reached, Automaton.path_cons] at hpath
  intro hstep
  rw [show tables.automaton.step tables.automaton.initial c = none from hstep] at hpath
  cases hpath

/-- The strays are the characters that the automaton cannot start with. -/
theorem mem_strays {w : List Char} :
    w ∈ strays ↔ ∃ c, w = [c] ∧ tables.automaton.step 0 c = none := by
  refine exists_congr fun c => and_congr_right fun _ => ?_
  constructor
  · intro hstray
    refine Option.eq_none_iff_forall_ne_some.2 fun s hstep => ?_
    have hreached : [c] ∈ tables.automaton.reached s := Automaton.path_singleton.trans hstep
    rw [reached_eq] at hreached
    obtain ⟨kind, rest, hspelling⟩ := exists_spelling (List.cons_ne_nil _ _) hreached
    exact hstray kind rest hspelling
  · intro hstep kind rest hspelling
    exact step_of_spelling hspelling hstep

/-- The first cut takes all of a text that leads to a state, unless it is in a string. -/
theorem first_of_state {s : StateId} {w : List Char} (hs : s ≠ 0) (hkind : kindOf s.toNat ≠ string)
    (hw : w ∈ stateTexts s.toNat) : w ≠ [] ∧ Cut.first tables w = ⟨kindOf s.toNat, w, []⟩ := by
  rw [← reached_eq] at hw
  rw [← kindAt_eq] at hkind ⊢
  have hne : w ≠ [] := by
    rintro rfl
    exact hs (Option.some.inj hw).symm
  have hfirst := first_of_reached hw hne hkind Automaton.stuck_nil
  rw [List.append_nil] at hfirst
  exact ⟨hne, hfirst⟩

/-- The first cut takes all of a token. -/
theorem first_of_lexeme {kind : SymbolId} {w : List Char} (h : w ∈ lexemes kind) :
    w ≠ [] ∧ Cut.first tables w = ⟨kind, w, []⟩ := by
  rcases h with hspelling | ⟨rfl, herror⟩
  · rcases spelling_cases hspelling with ⟨rfl, hquoted⟩ | ⟨s, hs, rfl, hkind, hstate⟩
    · obtain ⟨u, hu, rfl⟩ := mem_quoted.1 hquoted
      refine ⟨List.cons_ne_nil _ _, ?_⟩
      rw [first_quote, closing_of_units hu]
      rfl
    · exact first_of_state hs hkind hstate
  · rcases mem_errors.1 herror with (hstate | hstate | hstate | hstate) | hopen | hstray
    · exact first_of_state (s := 10) (by decide) (by decide) hstate
    · exact first_of_state (s := 7) (by decide) (by decide) hstate
    · exact first_of_state (s := 12) (by decide) (by decide) hstate
    · exact first_of_state (s := 14) (by decide) (by decide) hstate
    · obtain ⟨v, rfl⟩ := List.head?_eq_some_iff.1 hopen.1
      refine ⟨List.cons_ne_nil _ _, ?_⟩
      rw [first_quote, mem_unterminated.1 hopen]
      rfl
    · obtain ⟨c, rfl, hstep⟩ := mem_strays.1 hstray
      have hstuck : tables.automaton.Stuck 0 [c] := by
        rintro _ ⟨⟩
        exact hstep
      refine ⟨List.cons_ne_nil _ _, ?_⟩
      rw [Cut.first, Cut.munch_stuck hstuck, Cut.extend_error rfl]
      rfl

/-- A cut after an opening quote is a string or an error. -/
theorem lexeme_of_quote {kind : SymbolId} {v w rest : List Char}
    (h : Cut.first tables ('"' :: v) = ⟨kind, w, rest⟩) : w ∈ lexemes kind := by
  rw [first_quote] at h
  cases hclosing : closing [] v with
  | none =>
    rw [hclosing] at h
    obtain ⟨rfl, rfl, -⟩ := Cut.mk.inj h
    exact .inr ⟨rfl, mem_errors.2 (.inr (.inl (mem_unterminated.2 hclosing)))⟩
  | some p =>
    obtain ⟨body, later⟩ := p
    obtain ⟨u, hu, -, rfl⟩ := units_of_closing hclosing
    rw [hclosing] at h
    obtain ⟨rfl, rfl, -⟩ := Cut.mk.inj h
    exact .inl (le_spelling 6 rfl (mem_quoted.2 ⟨u, hu, rfl⟩))

/-- Whatever is left of a source, the first cut is a token of its kind. -/
theorem lexeme_of_first {kind : SymbolId} {input w rest : List Char} (hne : input ≠ [])
    (h : Cut.first tables input = ⟨kind, w, rest⟩) : w ∈ lexemes kind := by
  -- the automaton is stuck at once, or after an opening quote, or at a state that names the kind
  obtain ⟨u, v, s, rfl, hpath, hstuck⟩ := tables.automaton.exists_path 0 input
  rcases u with _ | ⟨c, u⟩
  · obtain rfl : 0 = s := Option.some.inj hpath
    obtain ⟨c, v, rfl⟩ := List.exists_cons_of_ne_nil hne
    rw [List.nil_append, Cut.first, Cut.munch_stuck hstuck, Cut.extend_error rfl] at h
    obtain ⟨rfl, rfl, -⟩ := Cut.mk.inj h
    exact .inr ⟨rfl, mem_errors.2 (.inr (.inr (mem_strays.2 ⟨c, rfl, hstuck c rfl⟩)))⟩
  · have hu : c :: u ∈ tables.automaton.reached s := hpath
    have htexts : c :: u ∈ stateTexts s.toNat := reached_eq s ▸ hu
    by_cases hs : s.toNat = 9
    · rw [hs] at htexts
      obtain ⟨_, rfl, hquote⟩ := htexts
      cases hquote
      exact lexeme_of_quote h
    · have hstrings : ∀ n < 17, n ≠ 9 → kindOf n ≠ string := by decide
      have hkind : tables.kindAt s ≠ string := kindAt_eq s ▸ hstrings s.toNat (number_lt htexts) hs
      have hzero : s.toNat ≠ 0 := by
        intro hzero
        rw [hzero] at htexts
        cases htexts
      rw [first_of_reached hu (List.cons_ne_nil c u) hkind hstuck] at h
      obtain ⟨rfl, rfl, -⟩ := Cut.mk.inj h
      rw [kindAt_eq]
      exact lexeme_of_state s.toNat hzero hs htexts

/-- Every token of a source is spelled as its kind says. -/
theorem lexeme_of_mem_ahead {source : String} {tok : Token}
    (h : tok ∈ (TokenStream.ofSource tables source).ahead) :
    tok.text.toList ∈ lexemes tok.symbol := by
  refine TokenStream.forall_ofScanner (p := fun tok => tok.text.toList ∈ lexemes tok.symbol) ?_ _
    tok h
  intro s hrest
  rw [Scanner.next]
  split
  · next hnil => exact absurd hnil hrest
  · next c cs _ =>
    rw [String.toList_ofList]
    exact lexeme_of_first (List.cons_ne_nil c cs) rfl

/-- A source is a single token of a kind exactly when it is in the language of that kind. -/
theorem tokenize_eq_iff_lexeme (source : String) (kind : SymbolId) :
    tokenize tables source = [⟨kind, source, .start⟩, ⟨eof, "", Position.start.after source⟩] ↔
      source.toList ∈ lexemes kind := by
  refine (TokenStream.tokenize_eq_iff endsLast).trans ⟨?_, first_of_lexeme⟩
  rintro ⟨hne, hfirst⟩
  exact lexeme_of_first hne hfirst

end TableParser.Script
