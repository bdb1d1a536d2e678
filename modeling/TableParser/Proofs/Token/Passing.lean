import TableParser.Engine.Event
/-!
How a token stream moves on.

Whatever an engine does with its input, it takes tokens off the front: `Passes ts s s'` says that
`s'` is what is left of `s` after the tokens `ts`. Looking for hidden tokens and recovering from an
error are described by the tokens that they pass.
-/

namespace TableParser.TokenStream

variable {t : Tables} {s s' s'' : TokenStream}

/-- `s'` is left of `s` after the tokens `ts`. -/
def Passes (ts : List Token) (s s' : TokenStream) : Prop :=
  s.ahead = ts ++ s'.ahead ∧ s'.last = s.last

namespace Passes

theorem refl (s : TokenStream) : Passes [] s s := ⟨rfl, rfl⟩

theorem trans {ts ts' : List Token} (h : Passes ts s s') (h' : Passes ts' s' s'') :
    Passes (ts ++ ts') s s'' :=
  ⟨by rw [h.1, h'.1, List.append_assoc], h'.2.trans h.2⟩

theorem eq_of_nil (h : Passes [] s s') : s' = s := by
  obtain ⟨ahead, last⟩ := s
  obtain ⟨ahead', last'⟩ := s'
  obtain ⟨hahead, hlast⟩ := h
  simp only [List.nil_append] at hahead hlast
  rw [hahead, hlast]

theorem length_eq {ts : List Token} (h : Passes ts s s') :
    s.ahead.length = ts.length + s'.ahead.length := by
  rw [h.1, List.length_append]

/-- What is left are tokens of the stream. -/
theorem tokens_subset {ts : List Token} (h : Passes ts s s') : s'.tokens ⊆ s.tokens := by
  intro tok htok
  rw [tokens, h.2] at htok
  rw [tokens, h.1, List.append_assoc]
  exact List.mem_append_right ts htok

end Passes

/-! ### The token at hand -/

theorem current_mem_tokens (s : TokenStream) : s.current ∈ s.tokens := by
  rw [current, tokens]
  cases s.ahead <;> simp

theorem current_of_cons {tok : Token} {later : List Token} (h : s.ahead = tok :: later) :
    s.current = tok := by
  rw [current, h]; rfl

theorem current_of_nil (h : s.ahead = []) : s.current = s.last := by
  rw [current, h]; rfl

theorem atEnd_iff : s.atEnd = true ↔ s.ahead = [] := List.isEmpty_iff

theorem not_atEnd_iff : s.atEnd = false ↔ ∃ tok later, s.ahead = tok :: later := by
  rw [atEnd, List.isEmpty_eq_false_iff, List.ne_nil_iff_exists_cons]

/-- Passing the token at hand; at the end nothing is passed. -/
theorem passes_advance (s : TokenStream) : Passes (s.ahead.take 1) s s.advance := by
  refine ⟨?_, rfl⟩
  rw [advance, ← List.drop_one, List.take_append_drop]

/-! ### Hidden tokens -/

/-- A hidden token is shown only if hidden tokens are visible, and then it is the next token. -/
theorem nextHidden_some {visible : Bool} {tok : Token}
    (h : s.nextHidden t visible = (some tok, s')) :
    visible = true ∧ t.isHidden tok.symbol = true ∧ Passes [tok] s s' := by
  rw [nextHidden] at h
  split at h
  · next hv =>
    split at h
    · next first later ha =>
      split at h
      · next hh =>
        simp only [Prod.mk.injEq, Option.some.injEq] at h
        obtain ⟨rfl, rfl⟩ := h
        exact ⟨hv, hh, by rw [advance, ha]; rfl, rfl⟩
      · cases h
    · cases h
  · cases h

/-- Before anything else the engine passes the hidden tokens at the front, unless they are visible;
what is at hand then is not hidden. -/
theorem nextHidden_none {visible : Bool} (h : s.nextHidden t visible = (none, s')) :
    ∃ hs, Passes hs s s' ∧ (∀ tok ∈ hs, t.isHidden tok.symbol = true) ∧ (visible = true → hs = []) ∧
      ∀ tok later, s'.ahead = tok :: later → t.isHidden tok.symbol = false := by
  rw [nextHidden] at h
  cases visible with
  | true =>
    refine ⟨[], ?_⟩
    simp only [if_true] at h
    cases ha : s.ahead with
    | nil =>
      rw [ha] at h
      simp only [Prod.mk.injEq, true_and] at h
      subst h
      exact ⟨.refl s, by simp, fun _ => rfl, by simp [ha]⟩
    | cons first later =>
      rw [ha] at h
      by_cases hh : t.isHidden first.symbol = true
      · simp [hh] at h
      · simp only [hh, Bool.false_eq_true, if_false, Prod.mk.injEq, true_and] at h
        subst h
        refine ⟨.refl s, by simp, fun _ => rfl, fun tok later' he => ?_⟩
        rw [ha, List.cons.injEq] at he
        simpa [← he.1] using hh
  | false =>
    simp only [Bool.false_eq_true, if_false, Prod.mk.injEq, true_and] at h
    subst h
    refine ⟨s.ahead.takeWhile fun tok => t.isHidden tok.symbol, ⟨?_, rfl⟩, ?_, by simp, ?_⟩
    · exact (List.takeWhile_append_dropWhile ..).symm
    · intro tok htok
      exact List.all_eq_true.1 List.all_takeWhile tok htok
    · intro tok later he
      have := List.head?_dropWhile_not (fun tok : Token => t.isHidden tok.symbol) s.ahead
      rw [show s.ahead.dropWhile _ = tok :: later from he] at this
      simpa using this

/-- Hidden tokens are passed up to the last token at most. -/
theorem last_of_nextHidden {visible : Bool} (h : s.nextHidden t visible = (none, s')) :
    s'.last = s.last := by
  obtain ⟨_, hpass, -⟩ := nextHidden_none h
  exact hpass.2

/-- Where nothing is left after the hidden tokens, the last token is at hand. -/
theorem current_of_nextHidden {visible : Bool} (h : s.nextHidden t visible = (none, s'))
    (hend : s'.ahead = []) : s'.current = s.last := by
  rw [current_of_nil hend, last_of_nextHidden h]

/-- After the hidden tokens at the front no hidden token is at hand, as the last one is none. -/
theorem isHidden_current {visible : Bool} (hlast : t.isHidden s.last.symbol = false)
    (h : s.nextHidden t visible = (none, s')) : t.isHidden s'.current.symbol = false := by
  obtain ⟨_, -, -, -, hvisible⟩ := nextHidden_none h
  cases hahead : s'.ahead with
  | nil => rw [current_of_nextHidden h hahead, hlast]
  | cons tok later => rw [current_of_cons hahead, hvisible tok later hahead]

/-- The tokens still to come that are shown. -/
def shown (t : Tables) (visible : Bool) (s : TokenStream) : List Token :=
  s.ahead.filter fun tok => visible || !t.isHidden tok.symbol

/-- Where nothing is shown, only the end is left after the hidden tokens. -/
theorem nextHidden_of_shown {visible : Bool} (h : s.shown t visible = []) :
    s.nextHidden t visible = (none, ⟨[], s.last⟩) := by
  obtain ⟨ahead, last⟩ := s
  cases visible with
  | true =>
    obtain rfl : ahead = [] := by simpa [shown, List.eq_nil_iff_forall_not_mem] using h
    rfl
  | false =>
    have hall : ∀ tok ∈ ahead, t.isHidden tok.symbol = true := by simpa [shown] using h
    have hdrop : ahead.dropWhile (fun tok => t.isHidden tok.symbol) = [] := by
      clear h
      induction ahead with
      | nil => rfl
      | cons tok later ih =>
        rw [List.forall_mem_cons] at hall
        rw [List.dropWhile_cons, if_pos hall.1]
        exact ih hall.2
    rw [nextHidden, dropHidden, if_neg Bool.false_ne_true, hdrop]

/-- The symbols of the tokens still to come that are not hidden. -/
def word (t : Tables) (s : TokenStream) : List SymbolId :=
  (s.shown t false).map Token.symbol

theorem word_of_nil (h : s.ahead = []) : s.word t = [] := by
  rw [word, shown, h]
  rfl

/-- Passing hidden tokens leaves those that are not hidden. -/
theorem Passes.shown_eq {ts : List Token} (h : Passes ts s s')
    (hts : ∀ tok ∈ ts, t.isHidden tok.symbol = true) : s'.shown t false = s.shown t false := by
  have hnone : ts.filter (fun tok => false || !t.isHidden tok.symbol) = [] := by
    simpa using hts
  rw [shown, shown, h.1, List.filter_append, hnone, List.nil_append]

/-- Another token is the first of those that are not hidden. -/
theorem shown_of_cons {tok : Token} {later : List Token} (h : s.ahead = tok :: later)
    (htok : t.isHidden tok.symbol = false) : s.shown t false = tok :: s.advance.shown t false := by
  rw [shown, shown, advance, h, List.filter_cons_of_pos (by simp [htok]), List.tail_cons]

/-- Passing hidden tokens leaves the word as it is. -/
theorem Passes.word_eq {ts : List Token} (h : Passes ts s s')
    (hts : ∀ tok ∈ ts, t.isHidden tok.symbol = true) : s'.word t = s.word t := by
  rw [word, word, h.shown_eq hts]

theorem word_of_nextHidden {visible : Bool} (h : s.nextHidden t visible = (none, s')) :
    s'.word t = s.word t := by
  obtain ⟨_, hpass, hhidden, -⟩ := nextHidden_none h
  exact hpass.word_eq hhidden

/-- Passing another token takes its symbol off the word. -/
theorem word_of_cons {tok : Token} {later : List Token} (h : s.ahead = tok :: later)
    (htok : t.isHidden tok.symbol = false) : s.word t = tok.symbol :: s.advance.word t := by
  rw [word, word, shown_of_cons h htok, List.map_cons]

/-! ### Recovery -/

/-- Recovery at the end passes nothing; anywhere else it passes the token at hand and, of the later
ones, those up to the first that is wanted. -/
theorem recover_passes (sync : SymbolId → Bool) (s : TokenStream) :
    Passes (s.recover t sync).1 s (s.recover t sync).2 := by
  rw [recover]
  split
  · next ha => exact .refl s
  · next first later ha =>
    refine ⟨?_, rfl⟩
    rw [ha, List.cons_append, List.takeWhile_append_dropWhile]

theorem recover_at_end (sync : SymbolId → Bool) (h : s.ahead = []) :
    s.recover t sync = ([], s) := by
  rw [recover, h]

theorem recover_ne_nil (sync : SymbolId → Bool) (h : s.ahead ≠ []) : (s.recover t sync).1 ≠ [] := by
  rw [recover]
  split
  · next ha => exact absurd ha h
  · simp

/-- Recovery stops at the end or before a token that is wanted. -/
theorem recover_wanted {sync : SymbolId → Bool} {tok : Token} {later : List Token}
    (h : (s.recover t sync).2.ahead = tok :: later) :
    t.isHidden tok.symbol = false ∧ sync tok.symbol = true := by
  rw [recover] at h
  split at h
  · next ha =>
    rw [ha] at h
    cases h
  · next first rest ha =>
    have := List.head?_dropWhile_not (isSkipped t sync) rest
    rw [show rest.dropWhile _ = tok :: later from h] at this
    simpa [isSkipped] using this

/-- After recovery the last token is at hand or one that is wanted. -/
theorem recover_current (sync : SymbolId → Bool) (s : TokenStream) :
    (s.recover t sync).2.current = s.last ∨
      (t.isHidden (s.recover t sync).2.current.symbol = false ∧
        sync (s.recover t sync).2.current.symbol = true) := by
  cases hahead : (s.recover t sync).2.ahead with
  | nil => exact .inl (by rw [current_of_nil hahead, (s.recover_passes sync).2])
  | cons tok later =>
    rw [current_of_cons hahead]
    exact .inr (recover_wanted hahead)

end TableParser.TokenStream
