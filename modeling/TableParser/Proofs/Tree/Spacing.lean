import TableParser.Proofs.Engine.Spacing
import TableParser.Proofs.Tree.HiddenLeaves
import TableParser.Proofs.Tree.Predicted
/-!
Trees do not depend on hidden tokens.

The builder stores places in every node, but no decision of it reads one, and it never reads the
text of an error. So inputs with the same tokens between whatever hidden ones have the same trees,
up to the places of nodes and the texts of errors: while hidden tokens are not shown, only these can
tell the inputs apart.

Main statement: `Engine.spacing_irrelevant`.
-/

namespace TableParser

open View (Lookalike SameEvent)

variable {t : Tables} {shape : Shape}

namespace View

/-- Trees without places and without the texts of errors. -/
def bare : View where
  omits _ := false
  read l := { l with
    position := .start
    length := 0
    value := if l.error then l.value.map fun _ => "" else l.value }
  omits_hidden := withoutPlaces.omits_hidden
  omits_leaf := withoutPlaces.omits_leaf
  read_hidden _ := rfl
  read_error _ := rfl
  read_collapsed _ := rfl
  read_isSome l := by dsimp only; split <;> simp
  read_inner _ _ _ _ := rfl

/-- Trees that agree in a view that leaves nothing out are both there or both missing. -/
theorem Agree.toList {v : View} {events events' : List Event} (hv : ∀ l, v.omits l = false)
    (h : v.Agree (Builder.build t shape events) (Builder.build t shape events')) :
    v.row (Builder.build t shape events).toList = v.row (Builder.build t shape events').toList := by
  have hseen : ∀ {events : List Event} {n : Node}, Builder.build t shape events = some n →
      v.row n.children ≠ [] := by
    intro events n hn hnil
    rw [row_keeps fun c _ => hv c.label, List.map_eq_nil_iff] at hnil
    exact (Builder.children_ne_nil_of_finish hn).2 hnil
  cases hn : Builder.build t shape events with
  | none =>
    cases hn' : Builder.build t shape events' with
    | none => rfl
    | some n' =>
      rw [hn, hn'] at h
      exact absurd (h.left rfl n' rfl) (hseen hn')
  | some n =>
    cases hn' : Builder.build t shape events' with
    | none =>
      rw [hn, hn'] at h
      exact absurd (h.right rfl n rfl) (hseen hn)
    | some n' =>
      rw [hn, hn'] at h
      exact h.same n rfl n' rfl

end View

/-- Events that say the same have leaves that look the same. -/
theorem Event.Alike.sameEvent {tokens tokens' : List Token} {ev ev' : Event}
    (h : Event.Alike t tokens tokens' ev ev') (shape : Shape) :
    SameEvent View.bare t shape ev ev' := by
  have hleaf : ∀ {tok tok' : Token}, tok.content = tok'.content →
      View.bare.row [Builder.leaf t shape tok] = View.bare.row [Builder.leaf t shape tok'] := by
    rintro ⟨s, text, p⟩ ⟨s', text', p'⟩ hsame
    obtain ⟨rfl, rfl⟩ := Prod.mk.inj hsame
    rfl
  cases h with
  | quiet silent => exact .quiet silent
  | terminal same => exact .leaf rfl rfl (hleaf same) rfl rfl
  | shift same => exact .leaf rfl rfl (hleaf same) rfl rfl
  | error => exact .leaf rfl rfl rfl rfl rfl

namespace Engine

variable {strategy : Strategy} {source source' : String} {e e' : Engine}

/-- Inputs with the same tokens apart from hidden ones give machines that have the same to do. -/
theorem alike_start (hvisible : t.isHidden t.endOfStream = false)
    (hsame : contents t (tokenize t source) = contents t (tokenize t source'))
    (h : Engine.start t strategy false source = .ok e)
    (h' : Engine.start t strategy false source' = .ok e') :
    Machine.Alike t (TokenStream.ofSource t source).ahead (TokenStream.ofSource t source').ahead
      e.machine e'.machine := by
  have hlast : ∀ source, contents t (tokenize t source) =
      contents t (TokenStream.ofSource t source).ahead ++
        [(TokenStream.ofSource t source).last.content] := by
    intro source
    have heos : (TokenStream.ofSource t source).last.symbol = t.endOfStream :=
      (TokenStream.symbol_ofScanner _).1
    rw [tokenize, TokenStream.tokens, contents_append, contents_cons_shown (by rw [heos, hvisible])]
    rfl
  rw [hlast, hlast] at hsame
  obtain ⟨hahead, hend⟩ := List.append_inj' hsame rfl
  have halike : TokenStream.Alike t (TokenStream.ofSource t source).ahead
      (TokenStream.ofSource t source').ahead (.ofSource t source) (.ofSource t source') :=
    ⟨hahead, List.singleton_inj.1 hend, List.suffix_refl _, List.suffix_refl _⟩
  have hm := machine_of_start h
  have hm' := machine_of_start h'
  cases strategy with
  | predictive =>
    rw [Machine.start] at hm hm'
    cases htable : t.getPrediction with
    | error err => rw [htable] at hm; cases hm
    | ok table =>
      rw [htable] at hm hm'
      rw [← Except.ok.inj hm, ← Except.ok.inj hm']
      exact .predictive table ⟨rfl, rfl, halike⟩
  | shiftReduce =>
    rw [Machine.start] at hm hm'
    cases htable : t.getShiftReduce with
    | error err => rw [htable] at hm; cases hm
    | ok table =>
      rw [htable] at hm hm'
      rw [← Except.ok.inj hm, ← Except.ok.inj hm']
      exact .shiftReduce table ⟨rfl, rfl, halike⟩

/-- Events that say the same lead to builders that look the same. -/
theorem lookalike_of_alike {tokens tokens' : List Token}
    (h : Engine.start t strategy false source = .ok e) (shape : Shape) (n : Nat)
    (hevents : ∀ k, Event.Alike t tokens tokens' (e.reads t (k + 1)).event
      (e'.reads t (k + 1)).event) :
    Lookalike View.bare t (e.builder t shape n) (e'.builder t shape n) := by
  induction n with
  | zero => exact .start
  | succ n ih =>
    rw [builder_succ, builder_succ]
    exact ih.feed ((hevents n).sameEvent shape) fun rule hrule => frames_of_reduce h shape hrule

/-- While hidden tokens are passed over, inputs with the same tokens apart from hidden ones have the
same events, up to places and the hidden text of errors, and the same trees, up to places and the
texts of errors. -/
theorem spacing_irrelevant {a : Asset} (hload : a.load = .ok t)
    (hsame : contents t (tokenize t source) = contents t (tokenize t source'))
    (h : Engine.start t strategy false source = .ok e)
    (h' : Engine.start t strategy false source' = .ok e') (shape : Shape) :
    (∀ n, Event.Alike t (TokenStream.ofSource t source).ahead (TokenStream.ofSource t source').ahead
      (e.reads t (n + 1)).event (e'.reads t (n + 1)).event) ∧
    (∀ n, EndsAfter t n e ↔ EndsAfter t n e') ∧
    (∀ n, EndsAfter t n e → View.bare.row (Builder.build t shape (e.events t n)).toList =
      View.bare.row (Builder.build t shape (e'.events t n)).toList) ∧
    ((e.parse t shape).2.ended = true → (e'.parse t shape).2.ended = true →
      View.bare.row (e.parse t shape).1.toList = View.bare.row (e'.parse t shape).1.toList) := by
  have hvisible := (Asset.shown_of_load hload).endOfStream
  have hevents := fun n => (alike_reads (start_eq h).2.1 (start_eq h').2.1
    (alike_start hvisible hsame h h') n).2
  have hended : ∀ n, (e.reads t (n + 1)).ended = (e'.reads t (n + 1)).ended := by
    intro n
    have hevent := hevents n
    rw [ended, ended]
    generalize (e.reads t (n + 1)).event = ev at hevent ⊢
    generalize (e'.reads t (n + 1)).event = ev' at hevent ⊢
    cases hevent <;> rfl
  have hends : ∀ n, EndsAfter t n e ↔ EndsAfter t n e' := by
    intro n
    rw [EndsAfter, EndsAfter, hended]
    exact and_congr_right fun _ => forall₂_congr fun k _ => by rw [hended]
  have htrees : ∀ n, View.bare.row (Builder.build t shape (e.events t n)).toList =
      View.bare.row (Builder.build t shape (e'.events t n)).toList := fun n =>
    View.Agree.toList (fun _ => rfl) (lookalike_of_alike h shape n hevents).agree
  refine ⟨hevents, hends, fun n _ => htrees n, fun hend hend' => ?_⟩
  obtain ⟨n, hn, -, htree⟩ := parse_ended hend
  obtain ⟨k, hk, -, htree'⟩ := parse_ended hend'
  obtain rfl := ((hends n).1 hn).unique hk
  rw [htree, htree']
  exact htrees n

end Engine

namespace Script

/-- The tokens of a name after a blank. -/
theorem ofSource_blank_name : TokenStream.ofSource tables " a" =
    ⟨[⟨whitespace, " ", .start⟩, ⟨symbol, "a", ⟨1, 2, 1⟩⟩], ⟨eof, "", ⟨1, 3, 2⟩⟩⟩ := by
  have hblank : Scanner.next tables (.ofSource " a") =
      (⟨whitespace, " ", .start⟩, ⟨" a", ['a'], ⟨1, 2, 1⟩⟩) := rfl
  have hname : Scanner.next tables ⟨" a", ['a'], ⟨1, 2, 1⟩⟩ =
      (⟨symbol, "a", ⟨1, 2, 1⟩⟩, ⟨" a", [], ⟨1, 3, 2⟩⟩) := rfl
  rw [TokenStream.ofSource, TokenStream.ofScanner_more (by rw [hblank]; decide), hblank,
    TokenStream.ofScanner_more (by rw [hname]; decide), hname, TokenStream.ofScanner_last rfl]
  rfl

end Script

theorem Engine.spacing_irrelevant_name : ∃ e e',
    Engine.start Script.tables .shiftReduce false "a" = .ok e ∧
    Engine.start Script.tables .shiftReduce false " a" = .ok e' ∧
    (∀ n, Event.Alike Script.tables [⟨Script.symbol, "a", .start⟩]
      [⟨Script.whitespace, " ", .start⟩, ⟨Script.symbol, "a", ⟨1, 2, 1⟩⟩]
      (e.reads Script.tables (n + 1)).event (e'.reads Script.tables (n + 1)).event) ∧
    View.bare.row (e.parse Script.tables {}).1.toList =
      View.bare.row (e'.parse Script.tables {}).1.toList := by
  obtain ⟨e, he⟩ := Script.exists_start .shiftReduce false "a"
  obtain ⟨e', he'⟩ := Script.exists_start .shiftReduce false " a"
  have hsame : contents Script.tables (tokenize Script.tables "a") =
      contents Script.tables (tokenize Script.tables " a") := by
    rw [tokenize, tokenize, Script.ofSource_name, Script.ofSource_blank_name]
    rfl
  obtain ⟨hevents, -, -, htrees⟩ := Engine.spacing_irrelevant Script.load_asset hsame he he' {}
  rw [Script.ofSource_name, Script.ofSource_blank_name] at hevents
  exact ⟨e, e', he, he', hevents, htrees (Script.ended_parse (.start he) {})
    (Script.ended_parse (.start he') {})⟩

end TableParser
