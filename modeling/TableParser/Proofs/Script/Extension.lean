import Mathlib.Data.Bool.AllAny
import TableParser.Proofs.Script.Lexeme
/-!
The tokens of a source that goes on.

A token ends where the automaton is stuck, or, in a string, at the first closing quote. What comes
later in the source makes no difference to either. Only a token that ends with the source could go
on, and if what is added starts with a new line, it does so in blanks and errors alone:

    source              a = "b" c
    tokens              a  ·  =  ·  "b"  ·  c
    source, and more    a = "b" c
                        d
    tokens              a  ·  =  ·  "b"  ·  c  ·  d

Main statement: `exists_ahead_append`.
-/

namespace TableParser.Script

open TokenStream (ofScanner_more ofScanner_last)

variable {input lexeme rest : List Char} {kind : SymbolId}

/-- Only a state of blanks, or the initial one, reads a blank; a comment reads those in its line. -/
theorem step_blank {s : StateId} {c : Char} (hs : s.toNat < 17) (hinitial : s.toNat ≠ 0)
    (hblank : s.toNat ≠ 1) (hc : IsBlank c) (hline : s.toNat = 2 → c = '\n') :
    tables.automaton.step s c = none := by
  have hstates : ∀ n < 17, n ≠ 0 → n ≠ 1 → [' ', '\t', '\n', '\r'].all (fun c =>
      (n = 2 → c = '\n') → tables.automaton.step (UInt32.ofNat n) c = none) = true := by decide
  have hstep := List.all_iff_forall_prop.1 (hstates s.toNat hs hinitial hblank) c hc hline
  rwa [UInt32.ofNat_toNat] at hstep

/-- A cut that is no error stays when more is added, if it leaves something or could not go on with
a new line. -/
theorem first_append (h : Cut.first tables input = ⟨kind, lexeme, rest⟩) (hne : input ≠ [])
    (hkind : kind ≠ error) (more : List Char)
    (hrest : rest ≠ [] ∨ kind ≠ whitespace ∧ more.head? = some '\n') :
    Cut.first tables (input ++ more) = ⟨kind, lexeme, rest ++ more⟩ := by
  obtain ⟨u, v, s, rfl, hpath, hstuck⟩ := tables.automaton.exists_path 0 input
  rcases u with _ | ⟨c, u⟩
  · -- the automaton cannot even start
    obtain rfl : 0 = s := Option.some.inj hpath
    obtain ⟨c, v, rfl⟩ := List.exists_cons_of_ne_nil hne
    rw [List.nil_append, Cut.first, Cut.munch_stuck hstuck, Cut.extend_error rfl] at h
    exact absurd (Cut.mk.inj h).1.symm hkind
  · have hu : c :: u ∈ tables.automaton.reached s := hpath
    have htexts : c :: u ∈ stateTexts s.toNat := reached_eq s ▸ hu
    rw [List.append_assoc]
    by_cases hquote : s.toNat = 9
    · rw [hquote] at htexts
      obtain ⟨_, rfl, hc⟩ := htexts
      cases hc
      rw [List.singleton_append, first_quote] at h ⊢
      cases hclosing : closing [] v with
      | none =>
        rw [hclosing] at h
        exact absurd (Cut.mk.inj h).1.symm hkind
      | some p =>
        obtain ⟨body, later⟩ := p
        obtain ⟨w, hw, rfl, rfl⟩ := units_of_closing hclosing
        rw [hclosing] at h
        obtain ⟨rfl, rfl, rfl⟩ := Cut.mk.inj h
        rw [List.append_assoc, List.cons_append, closing_of_units hw]
        rfl
    · have hstrings : ∀ n < 17, n ≠ 9 → kindOf n ≠ string := by decide
      have hstring : tables.kindAt s ≠ string :=
        kindAt_eq s ▸ hstrings s.toNat (number_lt htexts) hquote
      rw [first_of_reached hu (List.cons_ne_nil c u) hstring hstuck] at h
      obtain ⟨rfl, rfl, rfl⟩ := Cut.mk.inj h
      refine first_of_reached hu (List.cons_ne_nil c u) hstring ?_
      cases v with
      | cons d v => exact hstuck
      | nil =>
        obtain ⟨hblank, hmore⟩ := hrest.resolve_left fun hnil => hnil rfl
        intro d hd
        obtain rfl : '\n' = d := Option.some.inj (hmore.symm.trans hd)
        refine step_blank (number_lt htexts) (fun hzero => ?_) (fun hone => hblank ?_)
          (by decide) fun _ => rfl
        · rw [hzero] at htexts
          cases htexts
        · rw [kindAt_eq, hone]
          rfl

/-- Where there is a token, something is left of the source. -/
theorem rest_ne_nil {source : String} {p : Position} {tok : Token} {before after : List Token}
    (h : (TokenStream.ofScanner tables ⟨source, rest, p⟩).ahead = before ++ tok :: after) :
    rest ≠ [] := by
  rintro rfl
  rw [ofScanner_last rfl] at h
  exact List.append_ne_nil_of_right_ne_nil before (List.cons_ne_nil tok after) h.symm

/-- What is left of a source, if anything is, is one cut and then the tokens of the rest. -/
theorem ahead_ofScanner (source : String) {input : List Char} (hne : input ≠ []) (p : Position)
    (h : Cut.first tables input = ⟨kind, lexeme, rest⟩) :
    (TokenStream.ofScanner tables ⟨source, input, p⟩).ahead = ⟨kind, String.ofList lexeme, p⟩ ::
      (TokenStream.ofScanner tables ⟨source, rest, p.after (String.ofList lexeme)⟩).ahead := by
  obtain ⟨c, cs, rfl⟩ := List.exists_cons_of_ne_nil hne
  have hnext : Scanner.next tables ⟨source, c :: cs, p⟩ = (⟨kind, String.ofList lexeme, p⟩,
      ⟨source, rest, p.after (String.ofList lexeme)⟩) := by
    rw [Scanner.next]
    simp only [h]
  rw [ofScanner_more (endsLast.symbol_ne (List.cons_ne_nil c cs)), hnext]

/-- The tokens of a scan up to one that is not blank stay when a new line and more are added, if no
error is among them. -/
theorem exists_ahead_append (source source' : String) (more : List Char)
    (hmore : more.head? = some '\n') {tok : Token} (hblank : tok.symbol ≠ whitespace)
    {before after : List Token} {rest : List Char} {p : Position}
    (hahead : (TokenStream.ofScanner tables ⟨source, rest, p⟩).ahead = before ++ tok :: after)
    (hok : ∀ x ∈ before ++ [tok], x.symbol ≠ error) :
    ∃ after', (TokenStream.ofScanner tables ⟨source', rest ++ more, p⟩).ahead =
      before ++ tok :: after' := by
  induction before generalizing rest p with
  | nil =>
    have hne := rest_ne_nil hahead
    rcases hcut : Cut.first tables rest with ⟨kind, lexeme, later⟩
    rw [ahead_ofScanner source hne p hcut] at hahead
    obtain ⟨rfl, -⟩ := List.cons.inj hahead
    have hlonger := first_append hcut hne (hok _ List.mem_cons_self) more (.inr ⟨hblank, hmore⟩)
    rw [ahead_ofScanner source' (List.append_ne_nil_of_left_ne_nil hne more) p hlonger]
    exact ⟨_, rfl⟩
  | cons first before ih =>
    have hne := rest_ne_nil hahead
    rcases hcut : Cut.first tables rest with ⟨kind, lexeme, later⟩
    rw [ahead_ofScanner source hne p hcut] at hahead
    obtain ⟨rfl, hlater⟩ := List.cons.inj hahead
    rw [List.cons_append, List.forall_mem_cons] at hok
    -- there is another token, so this one leaves something
    have hleft := rest_ne_nil hlater
    obtain ⟨after', hafter⟩ := ih hlater hok.2
    have hlonger := first_append hcut hne hok.1 more (.inl hleft)
    rw [ahead_ofScanner source' (List.append_ne_nil_of_left_ne_nil hne more) p hlonger, hafter]
    exact ⟨after', rfl⟩

end TableParser.Script
