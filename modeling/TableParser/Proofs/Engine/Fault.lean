import TableParser.Proofs.Engine.CommonBeginning
import TableParser.Proofs.Engine.ViablePrefix
/-!
Where the first error is.

The fault of an input is the first token with which it is no longer the beginning of a sentence. An
engine reports no error before it, as it does what it does on a sentence that begins alike, and
passes no token from it on, as what it has passed without an error is viable. So the first error is
at the fault.

Main statements: `Tables.FaultAt.unique` and `Engine.faultAt_of_error`.
-/

namespace TableParser

variable {t : Tables}

/-! ### Faults -/

/-- The tokens before `tok` are the beginning of a sentence with the end of the stream after it, and
with `tok` they are none. -/
def Tables.FaultAt (t : Tables) (tokens : List Token) (tok : Token) : Prop :=
  ∃ before after, tokens = before ++ tok :: after ∧ t.IsViable (before.map Token.symbol) ∧
    ¬ t.IsViable ((before ++ [tok]).map Token.symbol)

/-- A row up to a place in it, with what stands there. -/
theorem prefix_through {α : Type} (before : List α) (x : α) (after : List α) :
    before ++ [x] <+: before ++ x :: after :=
  ⟨after, by rw [List.append_assoc]; rfl⟩

/-- An input has one fault: before any token after it the input is not viable. -/
theorem Tables.FaultAt.unique {tokens : List Token} {tok tok' : Token} (h : t.FaultAt tokens tok)
    (h' : t.FaultAt tokens tok') : tok = tok' := by
  obtain ⟨before, after, rfl, hviable, hnot⟩ := h
  obtain ⟨before', after', hsplit, hviable', hnot'⟩ := h'
  -- neither fault is passed before the other
  have hlater : ∀ {a rest : List Token} {x : Token}, ¬ t.IsViable ((a ++ [x]).map Token.symbol) →
      ¬ t.IsViable ((a ++ x :: rest).map Token.symbol) := fun hnot hviable =>
    hnot (hviable.of_prefix (List.IsPrefix.map _ (prefix_through _ _ _)))
  rcases List.append_eq_append_iff.1 hsplit with ⟨row, rfl, hrest⟩ | ⟨row, rfl, hrest⟩
  · cases row with
    | nil => exact (List.cons.inj hrest).1
    | cons x row =>
      obtain rfl := (List.cons.inj hrest).1
      exact absurd hviable' (hlater hnot)
  · cases row with
    | nil => exact (List.cons.inj hrest).1.symm
    | cons x row =>
      obtain rfl := (List.cons.inj hrest).1
      exact absurd hviable (hlater hnot')

/-! ### Errors -/

namespace Machine

/-- An error is at the first token that is not hidden. -/
theorem position_of_error {m : Machine} {err : SyntaxError} (h : (m.step t false).1 = .error err) :
    err.position = (m.input.dropHidden t).current.position := by
  have hplain : ∀ {s input : TokenStream}, s.nextHidden t false = (none, input) →
      input = s.dropHidden t :=
    fun next => (Prod.mk.inj next).2.symm
  cases m with
  | predictive table m =>
    obtain ⟨e, m', hstep, hmoves⟩ := Predictive.exists_moves t table false m
    rw [step_predictive hstep] at h
    cases hmoves with
    | rest | close | hidden | expand | take | finish => cases h
    | skip _ _ next | leftOver _ _ next =>
      cases h
      rw [hplain next]
      rfl
  | shiftReduce table m =>
    obtain ⟨e, m', hstep, hmoves⟩ := ShiftReduce.exists_moves t table false m
    rw [step_shiftReduce hstep] at h
    cases hmoves with
    | rest | hidden | shift | reduce | accept => cases h
    | giveUp _ next | skip _ next =>
      cases h
      rw [hplain next]
      rfl

end Machine

namespace Engine

/-- The events of some reads, and the read that a given one of them comes from. -/
theorem events_split {before after : List Event} {ev : Event} :
    ∀ {n : Nat} {e : Engine}, e.events t n = before ++ ev :: after →
      e.events t before.length = before ∧ (e.reads t (before.length + 1)).event = ev := by
  induction before with
  | nil =>
    rintro (_ | n) e h
    · cases h
    · exact ⟨rfl, (List.cons.inj h).1⟩
  | cons first before ih =>
    rintro (_ | n) e h
    · cases h
    · obtain ⟨hfirst, hrest⟩ := List.cons.inj h
      obtain ⟨hevents, hlast⟩ := ih hrest
      exact ⟨by rw [List.length_cons, events, hfirst, hevents], hlast⟩

/-- An engine that reads some events without an error to the end never reports one. -/
theorem clean_of_emits {e : Engine} {machine : Machine} {es : List Event}
    (h : Emits (Machine.step t e.showHidden) e.machine es machine) (hmore : .endDocument ∉ es)
    (hend : (machine.step t e.showHidden).1 = .endDocument) (hok : ∀ ev ∈ es, ev.error? = none)
    (n : Nat) :
    (e.reads t (n + 1)).event.error? = none := by
  have hends := endsAfter_of_emits h hmore hend
  rcases Nat.lt_or_ge n es.length with hlt | hge
  · refine hok _ ?_
    rw [← (reads_of_emits h).1]
    exact mem_events.2 ⟨n, hlt, rfl⟩
  · obtain ⟨k, rfl⟩ := Nat.exists_eq_add_of_le hge
    rw [Nat.add_right_comm, reads_of_ended hends.1, (endsAfter_iff.1 hends).1]
    rfl

/-- An error is at the fault if what was passed before it is viable and every sentence is read
without an error. -/
theorem faultAt_of_error {e : Engine} {n : Nat} {err : SyntaxError} (plain : e.showHidden = false)
    (sealed : e.machine.input.Sealed t)
    (sentences : ∀ w, t.IsSentence w → ∃ e' : Engine, e'.showHidden = false ∧
      Machine.Beside e.machine e'.machine ∧ e'.machine.input.Sealed t ∧
      e'.machine.input.word t = w ∧ ∀ n, (e'.reads t (n + 1)).event.error? = none)
    (viable : ∃ passed, e.machine.input.word t = passed ++ (e.reads t n).machine.input.word t ∧
      t.IsViable passed)
    (herr : (e.reads t (n + 1)).event = .error err) :
    ∃ tok, t.FaultAt (e.machine.input.visible t) tok ∧ err.position = tok.position := by
  obtain ⟨ts, hpass, -⟩ := passes_reads (t := t) sealed.text n
  obtain ⟨before, hbefore⟩ := hpass.visible_eq (t := t)
  obtain ⟨after, hafter⟩ : ∃ after, (e.reads t n).machine.input.visible t =
      ((e.reads t n).machine.input.dropHidden t).current :: after := by
    rcases (e.reads t n).machine.input.visible_cons (t := t) with ⟨-, hcons⟩ | ⟨-, hcons⟩
    · exact ⟨[], hcons⟩
    · exact ⟨_, hcons⟩
  have hsplit := hbefore.trans (congrArg (before ++ ·) hafter)
  refine ⟨_, ⟨before, after, hsplit, ?_, ?_⟩, ?_⟩
  · obtain ⟨passed, hpassed, hviable⟩ := viable
    rw [hpass.map_symbol_eq hbefore hpassed]
    exact hviable
  · rintro ⟨w, hw, hbegin⟩
    obtain ⟨e', plain', beside, sealed', hword, clean⟩ := sentences w hw
    have hc : (before ++ [((e.reads t n).machine.input.dropHidden t).current]).map Token.symbol <+:
        e.machine.input.front t := by
      rw [TokenStream.front, hsplit]
      exact List.IsPrefix.map _ (prefix_through _ _ _)
    have hc' : (before ++ [((e.reads t n).machine.input.dropHidden t).current]).map Token.symbol <+:
        e'.machine.input.front t := by
      rw [TokenStream.front_eq, hword, sealed'.last]
      exact hbegin
    have hok := clean_of_beside plain plain' beside sealed sealed' clean hc hc' n (by
      rw [TokenStream.front, TokenStream.front, hbefore]
      simp only [List.length_map, List.length_append, List.length_singleton]
      omega)
    rw [herr] at hok
    cases hok
  · rw [reads_succ, event_read, showHidden_reads, plain] at herr
    exact Machine.position_of_error herr

end Engine

end TableParser
