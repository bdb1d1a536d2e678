import TableParser.Proofs.Engine.Moves
import TableParser.Proofs.Engine.Reading
import TableParser.Proofs.Grammar.Lookahead
/-!
Sentences are read without an error.

A sentence has derivation trees, and each engine follows the trees. The predictive engine opens a
node, goes through the trees below it and closes it; the shift-reduce engine goes through the trees
below and then reduces. Hidden tokens are shown before the next token is looked at, so the
predictive engine closes complete nodes first (`Forest.opened`) and the shift-reduce engine reduces
last (`Forest.reduced`).

Each table is adequate for the rules when, before every terminal that may come next, it does what
the trees ask for. For the predictive table this is a matter of the terminals that may follow a
non-terminal. In the shift-reduce automaton, what may follow a non-terminal is what the state after
it can go on with.

Main statements: `Predictive.emits_sentence` and `ShiftReduce.emits_sentence`.
-/

namespace TableParser

/-! ### Hidden tokens before a step -/

namespace TokenStream

variable {t : Tables} {g ahead : List Token} {last : Token}

/-- The token at hand, if there is one, is not hidden. -/
def Ready (t : Tables) (ahead : List Token) : Prop :=
  ∀ tok later, ahead = tok :: later → t.isHidden tok.symbol = false

theorem nextHidden_ready (h : Ready t ahead) (visible : Bool) :
    nextHidden t visible ⟨ahead, last⟩ = (none, ⟨ahead, last⟩) := by
  cases ahead with
  | nil => cases visible <;> rfl
  | cons tok later => cases visible <;> simp [nextHidden, dropHidden, h tok later rfl]

theorem nextHidden_shown {tok : Token} (h : t.isHidden tok.symbol = true) :
    nextHidden t true ⟨tok :: ahead, last⟩ = (some tok, ⟨ahead, last⟩) := by
  simp [nextHidden, h, advance]

theorem nextHidden_dropped (hg : ∀ tok ∈ g, t.isHidden tok.symbol = true) (h : Ready t ahead) :
    nextHidden t false ⟨g ++ ahead, last⟩ = (none, ⟨ahead, last⟩) := by
  induction g with
  | nil => exact nextHidden_ready h false
  | cons tok g ih =>
    rw [List.forall_mem_cons] at hg
    simpa [nextHidden, dropHidden, hg.1] using ih hg.2

end TokenStream

/-- The events that show hidden tokens. -/
def shownAs (event : Token → Event) (showHidden : Bool) (g : List Token) : List Event :=
  if showHidden then g.map event else []

/-- An event reports neither an error nor the end, and only tokens with a property. -/
structure Event.Plain (p : Token → Prop) (ev : Event) : Prop where
  ok : ev.error? = none
  more : ev ≠ .endDocument
  tokens : ∀ tok ∈ ev.token?, p tok

theorem plain_token {p : Token → Prop} {event : Token → Event}
    (hevent : event = .terminal ∨ event = .shift) {tok : Token} (h : p tok) :
    (event tok).Plain p := by
  rcases hevent with rfl | rfl <;> exact ⟨rfl, by simp, by rintro tok ⟨⟩; exact h⟩

theorem plain_shownAs {p : Token → Prop} {event : Token → Event}
    (hevent : event = .terminal ∨ event = .shift) {showHidden : Bool} {g : List Token}
    (hg : ∀ tok ∈ g, p tok) : ∀ ev ∈ shownAs event showHidden g, ev.Plain p := by
  intro ev hev
  cases showHidden with
  | false => cases hev
  | true =>
    obtain ⟨tok, htok, rfl⟩ := List.mem_map.1 hev
    exact plain_token hevent (hg tok htok)

open TokenStream (Ready)

/-- Hidden tokens at the front are shown or dropped before a step. -/
theorem emits_hidden {σ : Type} {step : σ → Event × σ} {t : Tables} {event : Token → Event}
    {showHidden : Bool} {ahead : List Token} {last : Token} {ev : Event} {m : σ}
    (machine : TokenStream → σ)
    (hshow : ∀ {input input' tok}, TokenStream.nextHidden t showHidden input = (some tok, input') →
      step (machine input) = (event tok, machine input'))
    (hdrop : ∀ {input input'}, TokenStream.nextHidden t showHidden input =
      TokenStream.nextHidden t showHidden input' → step (machine input) = step (machine input'))
    {g : List Token} (hg : ∀ tok ∈ g, t.isHidden tok.symbol = true) (hready : Ready t ahead)
    (h : step (machine ⟨ahead, last⟩) = (ev, m)) :
    Emits step (machine ⟨g ++ ahead, last⟩) (shownAs event showHidden g ++ [ev]) m := by
  cases showHidden with
  | false =>
    refine .single ?_
    rw [← h]
    apply hdrop
    rw [TokenStream.nextHidden_dropped hg hready, TokenStream.nextHidden_ready hready]
  | true =>
    induction g with
    | nil => exact .single h
    | cons tok g ih =>
      rw [List.forall_mem_cons] at hg
      exact .cons (hshow (TokenStream.nextHidden_shown hg.1)) (ih hg.2)

/-! ### What the trees ask for -/

namespace Forest

variable {t : Tables} {α : List SymbolId} {f : Forest}

/-- The hidden tokens at the end of some trees that are not shown before the last node is closed,
given those before the trees. -/
def left : Forest → List Token → List Token
  | nil, g => g
  | leaf c rest, _ => rest.left c.trivia
  | node _ children rest, _ => rest.left (children.left [])

/-- The events of opening and closing some trees after hidden tokens. -/
def opened (showHidden : Bool) : Forest → List Token → List Event
  | nil, _ => []
  | leaf c rest, g =>
    shownAs .terminal showHidden g ++ .terminal c.token :: rest.opened showHidden c.trivia
  | node rule children rest, g =>
    shownAs .terminal showHidden g ++ .nonTerminal rule :: (children.opened showHidden [] ++
      .endNonTerminal rule :: rest.opened showHidden (children.left []))

/-- The hidden tokens at the end of some trees that are not shown before the last reduction, given
those before the trees. -/
def kept : Forest → List Token → List Token
  | nil, g => g
  | leaf c rest, _ => rest.kept c.trivia
  | node _ _ rest, _ => rest.kept []

/-- The events of shifting and reducing some trees after hidden tokens. -/
def reduced (showHidden : Bool) : Forest → List Token → List Event
  | nil, _ => []
  | leaf c rest, g =>
    shownAs .shift showHidden g ++ .shift c.token :: rest.reduced showHidden c.trivia
  | node rule children rest, g =>
    children.reduced showHidden g ++ (shownAs .shift showHidden (children.kept g) ++
      .reduce rule :: rest.reduced showHidden [])

theorem tokens_leaf (c : Cell) (rest : Forest) :
    (leaf c rest).tokens = c.token :: (c.trivia ++ rest.tokens) := rfl

theorem tokens_node (rule : RuleId) (children rest : Forest) :
    (node rule children rest).tokens = children.tokens ++ rest.tokens := by
  rw [tokens, cells, List.flatMap_append]
  rfl

theorem Derived.proper (h : Derived t f α) : ∀ c ∈ f.cells, c.Proper t := by
  induction h with
  | nil => intro c hc; cases hc
  | leaf proper _ later =>
    rw [cells, List.forall_mem_cons]
    exact ⟨proper, later⟩
  | node _ _ _ below later =>
    rw [cells, List.forall_mem_append]
    exact ⟨below, later⟩

/-- What holds of the hidden tokens before and among some trees holds of those at their end. -/
theorem forall_left {p : Token → Prop} (f : Forest) (hf : ∀ c ∈ f.cells, ∀ tok ∈ c.trivia, p tok) :
    ∀ {g : List Token}, (∀ tok ∈ g, p tok) → ∀ tok ∈ f.left g, p tok := by
  induction f with
  | nil => exact fun hg => hg
  | leaf c rest ih =>
    rw [cells, List.forall_mem_cons] at hf
    exact fun _ => ih hf.2 hf.1
  | node rule children rest ihc ihr =>
    rw [cells, List.forall_mem_append] at hf
    exact fun _ => ihr hf.2 (ihc hf.1 (by simp))

theorem forall_kept {p : Token → Prop} (f : Forest) (hf : ∀ c ∈ f.cells, ∀ tok ∈ c.trivia, p tok) :
    ∀ {g : List Token}, (∀ tok ∈ g, p tok) → ∀ tok ∈ f.kept g, p tok := by
  induction f with
  | nil => exact fun hg => hg
  | leaf c rest ih =>
    rw [cells, List.forall_mem_cons] at hf
    exact fun _ => ih hf.2 hf.1
  | node rule children rest ihc ihr =>
    rw [cells, List.forall_mem_append] at hf
    exact fun _ => ihr hf.2 (by simp)

theorem Derived.left_hidden (h : Derived t f α) {g : List Token}
    (hg : ∀ tok ∈ g, t.isHidden tok.symbol = true) :
    ∀ tok ∈ f.left g, t.isHidden tok.symbol = true :=
  f.forall_left (fun c hc => (h.proper c hc).hidden) hg

theorem Derived.kept_hidden (h : Derived t f α) {g : List Token}
    (hg : ∀ tok ∈ g, t.isHidden tok.symbol = true) :
    ∀ tok ∈ f.kept g, t.isHidden tok.symbol = true :=
  f.forall_kept (fun c hc => (h.proper c hc).hidden) hg

/-- Opening and closing reports only tokens of the trees and before them. -/
theorem plain_opened {p : Token → Prop} (showHidden : Bool) (f : Forest)
    (hf : ∀ c ∈ f.cells, p c.token ∧ ∀ tok ∈ c.trivia, p tok) : ∀ {g : List Token},
      (∀ tok ∈ g, p tok) → ∀ ev ∈ f.opened showHidden g, ev.Plain p := by
  induction f with
  | nil => intro g _ ev hev; cases hev
  | leaf c rest ih =>
    intro g hg
    rw [cells, List.forall_mem_cons] at hf
    rw [opened, List.forall_mem_append, List.forall_mem_cons]
    exact ⟨plain_shownAs (.inl rfl) hg, plain_token (.inl rfl) hf.1.1, ih hf.2 hf.1.2⟩
  | node rule children rest ihc ihr =>
    intro g hg
    rw [cells, List.forall_mem_append] at hf
    rw [opened, List.forall_mem_append, List.forall_mem_cons, List.forall_mem_append,
      List.forall_mem_cons]
    exact ⟨plain_shownAs (.inl rfl) hg, ⟨rfl, by simp, by rintro tok ⟨⟩⟩, ihc hf.1 (by simp),
      ⟨rfl, by simp, by rintro tok ⟨⟩⟩,
      ihr hf.2 (children.forall_left (fun c hc => (hf.1 c hc).2) (by simp))⟩

/-- Shifting and reducing reports only tokens of the trees and before them. -/
theorem plain_reduced {p : Token → Prop} (showHidden : Bool) (f : Forest)
    (hf : ∀ c ∈ f.cells, p c.token ∧ ∀ tok ∈ c.trivia, p tok) : ∀ {g : List Token},
      (∀ tok ∈ g, p tok) → ∀ ev ∈ f.reduced showHidden g, ev.Plain p := by
  induction f with
  | nil => intro g _ ev hev; cases hev
  | leaf c rest ih =>
    intro g hg
    rw [cells, List.forall_mem_cons] at hf
    rw [reduced, List.forall_mem_append, List.forall_mem_cons]
    exact ⟨plain_shownAs (.inr rfl) hg, plain_token (.inr rfl) hf.1.1, ih hf.2 hf.1.2⟩
  | node rule children rest ihc ihr =>
    intro g hg
    rw [cells, List.forall_mem_append] at hf
    rw [reduced, List.forall_mem_append, List.forall_mem_append, List.forall_mem_cons]
    exact ⟨ihc hf.1 hg,
      plain_shownAs (.inr rfl) (children.forall_kept (fun c hc => (hf.1 c hc).2) hg),
      ⟨rfl, by simp, by rintro tok ⟨⟩⟩, ihr hf.2 (by simp)⟩

/-- The first token of some trees is not hidden. -/
theorem Derived.ready (h : Derived t f α) {following : List Token} (hf : Ready t following) :
    Ready t (f.tokens ++ following) := by
  induction h generalizing following with
  | nil => exact hf
  | leaf proper _ _ =>
    rintro tok later' ⟨⟩
    exact proper.visible
  | node _ _ _ below later =>
    rw [tokens_node, List.append_assoc]
    exact below (later hf)

/-- The symbol of the first token of some trees and what follows them. -/
theorem Derived.current (h : Derived t f α) {following : List Token} {last : Token} {a : SymbolId}
    (ha : (TokenStream.current ⟨following, last⟩).symbol = a) :
    (TokenStream.current ⟨f.tokens ++ following, last⟩).symbol = f.ahead a := by
  induction h generalizing following a with
  | nil => exact ha
  | leaf proper _ _ => rfl
  | node _ _ _ below later =>
    rw [tokens_node, List.append_assoc, ahead_node]
    exact below (later ha)

end Forest

/-! ### The predictive engine -/

namespace Predictive

variable {t : Tables} {table : PredictionTable} {sets : FirstSets}
  {follow : SymbolId → List SymbolId} {showHidden : Bool} {stack : List Pending}

theorem step_congr {input input' : TokenStream} (top : ∀ rule below, stack ≠ .close rule :: below)
    (h : input.nextHidden t showHidden = input'.nextHidden t showHidden) :
    step t table showHidden ⟨input, stack, false⟩ =
      step t table showHidden ⟨input', stack, false⟩ := by
  rw [step, step, if_neg Bool.false_ne_true, if_neg Bool.false_ne_true]
  rcases stack with - | ⟨s | rule, below⟩
  · simp only [h]
  · simp only [h]
  · exact absurd rfl (top rule below)

/-- Hidden tokens before a step. -/
theorem emits_trivia {g ahead : List Token} {last : Token} {ev : Event} {m : Predictive}
    (top : ∀ rule below, stack ≠ .close rule :: below)
    (hg : ∀ tok ∈ g, t.isHidden tok.symbol = true) (hready : Ready t ahead)
    (h : step t table showHidden ⟨⟨ahead, last⟩, stack, false⟩ = (ev, m)) :
    Emits (step t table showHidden) ⟨⟨g ++ ahead, last⟩, stack, false⟩
      (shownAs .terminal showHidden g ++ [ev]) m :=
  emits_hidden (fun input => Predictive.mk input stack false) (step_hidden top) (step_congr top) hg
    hready h

/-- Every non-terminal among some symbols may be followed by what comes next. -/
def Fits (t : Tables) (sets : FirstSets) (follow : SymbolId → List SymbolId) :
    List SymbolId → SymbolId → Prop
  | [], _ => True
  | x :: α, a =>
    (t.isNonTerminal x = true → ∀ b ∈ sets.begins α a, b ∈ follow x) ∧ Fits t sets follow α a

instance decidableFits (t : Tables) (sets : FirstSets) (follow : SymbolId → List SymbolId) :
    ∀ α a, Decidable (Fits t sets follow α a)
  | [], _ => .isTrue trivial
  | _ :: α, a =>
    have := decidableFits t sets follow α a
    inferInstanceAs (Decidable (_ ∧ _))

/-- A table that predicts each rule before all that its right side may start with, where what may
follow the left side comes next. -/
structure Adequate (t : Tables) (table : PredictionTable) (sets : FirstSets)
    (follow : SymbolId → List SymbolId) : Prop where
  correct : sets.Correct t
  kind : ∀ {rule r}, t.rule? rule = some r → t.isNonTerminal r.lhs = true
  predicts : ∀ {rule r}, t.rule? rule = some r → ∀ a ∈ follow r.lhs, ∀ b ∈ sets.begins r.rhs a,
    table.get? r.lhs b = some rule
  fits : ∀ {rule r}, t.rule? rule = some r → ∀ a ∈ follow r.lhs, Fits t sets follow r.rhs a

/-- The engine goes through trees whose roots are to come. -/
theorem emits_forest (adequate : Adequate t table sets follow) {f : Forest} {α : List SymbolId}
    (h : f.Derived t α) : ∀ {g following : List Token} {last : Token} {a : SymbolId}
      {below : List Pending}, (∀ tok ∈ g, t.isHidden tok.symbol = true) → Ready t following →
      (TokenStream.current ⟨following, last⟩).symbol = a → Fits t sets follow α a →
      Emits (step t table showHidden)
        ⟨⟨g ++ (f.tokens ++ following), last⟩, α.map .symbol ++ below, false⟩
        (f.opened showHidden g) ⟨⟨f.left g ++ following, last⟩, below, false⟩ := by
  induction h with
  | nil =>
    intro g following last a below _ _ _ _
    exact .nil _
  | @leaf cell rest α proper derived later =>
    intro g following last a below hg hready ha hfits
    have htake : step t table showHidden
        ⟨⟨cell.token :: (cell.trivia ++ (rest.tokens ++ following)), last⟩,
          .symbol cell.symbol :: (α.map .symbol ++ below), false⟩ = (.terminal cell.token,
          ⟨⟨cell.trivia ++ (rest.tokens ++ following), last⟩, α.map .symbol ++ below, false⟩) :=
      step_take proper.terminal (TokenStream.nextHidden_ready
        (fun _ _ heq => by cases heq; exact proper.visible) showHidden) rfl
    have hfirst := emits_trivia (by simp) hg
      (fun _ _ heq => by cases heq; exact proper.visible) htake
    have := hfirst.append (later proper.hidden hready ha hfits.2)
    simpa [Forest.tokens_leaf, Forest.opened, Forest.left] using this
  | @node rule r children rest α known dbelow dlater below' later =>
    intro g following last a below hg hready ha hfits
    have hready' := dlater.ready hready
    have ha' := dlater.current ha
    have hmem := hfits.1 (adequate.kind known) _ (sets.ahead_mem_begins adequate.correct dlater a)
    have hrule := adequate.predicts known _ hmem _
      (sets.ahead_mem_begins adequate.correct dbelow (rest.ahead a))
    rw [← dbelow.current ha'] at hrule
    have hexpand : step t table showHidden ⟨⟨children.tokens ++ (rest.tokens ++ following), last⟩,
        .symbol r.lhs :: (α.map .symbol ++ below), false⟩ = (.nonTerminal rule,
          ⟨⟨children.tokens ++ (rest.tokens ++ following), last⟩,
            r.rhs.map .symbol ++ .close rule :: (α.map .symbol ++ below), false⟩) := by
      rw [← body_of_rule known]
      exact step_expand (adequate.kind known)
        (TokenStream.nextHidden_ready (dbelow.ready hready') showHidden) hrule
    have hopen := emits_trivia (by simp) hg (dbelow.ready hready') hexpand
    have hinner :=
      hopen.append (below' (g := []) (by simp) hready' ha' (adequate.fits known _ hmem))
    have hclosed := hinner.append (.single step_close)
    have := hclosed.append (later (dbelow.left_hidden (by simp)) hready ha hfits.2)
    simpa [Forest.tokens_node, Forest.opened, Forest.left] using this

variable (showHidden) in
/-- The engine reads a sentence to its end. -/
theorem emits_sentence (adequate : Adequate t table sets follow)
    (hstart : t.endOfStream ∈ follow t.start) {f : Forest} (h : f.Derived t [t.start])
    {g : List Token} {last : Token} (hg : ∀ tok ∈ g, t.isHidden tok.symbol = true)
    (hlast : last.symbol = t.endOfStream) :
    ∃ m, Emits (step t table showHidden) (.start t ⟨g ++ f.tokens, last⟩)
      (f.opened showHidden g ++ shownAs .terminal showHidden (f.left g)) m ∧
        (m.step t table showHidden).1 = .endDocument := by
  have hready : Ready t [] := by rintro tok later ⟨⟩
  have hfits : Fits t sets follow [t.start] last.symbol := by
    refine ⟨fun _ b hb => ?_, trivial⟩
    rw [FirstSets.mem_begins_nil.1 hb, hlast]
    exact hstart
  have htrees : Emits (step t table showHidden) (.start t ⟨g ++ f.tokens, last⟩)
      (f.opened showHidden g) ⟨⟨f.left g ++ [], last⟩, [], false⟩ := by
    rw [← List.append_nil f.tokens]
    exact emits_forest adequate h hg hready rfl hfits
  have hfinish : step t table showHidden ⟨⟨[], last⟩, [], false⟩ =
      (.endDocument, ⟨⟨[], last⟩, [], true⟩) :=
    step_finish (TokenStream.nextHidden_ready hready showHidden) rfl
  have := htrees.append (emits_trivia (by simp) (h.left_hidden hg) hready hfinish)
  rw [← List.append_assoc] at this
  obtain ⟨m, hm, hlast⟩ := this.split_last
  exact ⟨m, hm, by rw [hlast]⟩

end Predictive

/-! ### The shift-reduce engine -/

namespace ShiftReduce

variable {t : Tables} {table : ShiftReduceTable} {sets : FirstSets} {showHidden : Bool}

theorem step_congr {input input' : TokenStream} {states : List StateId}
    (h : input.nextHidden t showHidden = input'.nextHidden t showHidden) :
    step t table showHidden ⟨input, states, .running⟩ =
      step t table showHidden ⟨input', states, .running⟩ := by
  rw [step, step]
  simp only [h, top]

/-- Hidden tokens before a step. -/
theorem emits_trivia {g ahead : List Token} {last : Token} {ev : Event} {m : ShiftReduce}
    {s : StateId} {below : List StateId} (hg : ∀ tok ∈ g, t.isHidden tok.symbol = true)
    (hready : Ready t ahead)
    (h : step t table showHidden ⟨⟨ahead, last⟩, s :: below, .running⟩ = (ev, m)) :
    Emits (step t table showHidden) ⟨⟨g ++ ahead, last⟩, s :: below, .running⟩
      (shownAs .shift showHidden g ++ [ev]) m :=
  emits_hidden (fun input => ShiftReduce.mk input (s :: below) .running) step_hidden step_congr hg
    hready h

/-- Where a state goes over a symbol: by a goto over a non-terminal, by a shift over a terminal. -/
def next (t : Tables) (action? : StateId → SymbolId → Option Action)
    (goto? : StateId → SymbolId → Option StateId) (s : StateId) (x : SymbolId) : Option StateId :=
  if t.isNonTerminal x then goto? s x
  else
    match action? s x with
    | some (.shift target) => some target
    | _ => none

/-- Where a state goes over several symbols, if each state on the way can go on with all that may
come next. -/
def walk (t : Tables) (action? : StateId → SymbolId → Option Action)
    (goto? : StateId → SymbolId → Option StateId) (sets : FirstSets) :
    StateId → List SymbolId → SymbolId → Option StateId
  | s, [], _ => some s
  | s, x :: α, a => (next t action? goto? s x).bind fun s' =>
    if (sets.begins α a).all fun b => (action? s' b).isSome then walk t action? goto? sets s' α a
    else none

/-- A table that follows the rules: where a state goes over a left side and can go on from there, it
can walk over the right side and is to reduce after it. -/
structure Adequate (t : Tables) (table : ShiftReduceTable) (sets : FirstSets) : Prop where
  correct : sets.Correct t
  kind : ∀ {rule r}, t.rule? rule = some r → t.isNonTerminal r.lhs = true
  reduces : ∀ {rule r s s' b}, t.rule? rule = some r → table.goto? s r.lhs = some s' →
    (table.action? s' b).isSome = true → ∃ top,
      walk t table.action? table.goto? sets s r.rhs b = some top ∧
        table.action? top b = some (.reduce rule)

/-- One symbol of a walk. -/
theorem walk_cons {s top : StateId} {x a : SymbolId} {α : List SymbolId}
    (h : walk t table.action? table.goto? sets s (x :: α) a = some top) :
    ∃ s', next t table.action? table.goto? s x = some s' ∧
      (∀ b ∈ sets.begins α a, (table.action? s' b).isSome = true) ∧
      walk t table.action? table.goto? sets s' α a = some top := by
  rw [walk, Option.bind_eq_some_iff] at h
  obtain ⟨s', hs', h⟩ := h
  split at h
  · next hall => exact ⟨s', hs', List.all_eq_true.1 hall, h⟩
  · cases h

/-- The engine goes through trees over whose roots the state on top can walk. -/
theorem emits_forest (adequate : Adequate t table sets) {f : Forest} {α : List SymbolId}
    (h : f.Derived t α) :
    ∀ {g following : List Token} {last : Token} {a : SymbolId} {s top : StateId}
      {below : List StateId}, (∀ tok ∈ g, t.isHidden tok.symbol = true) → Ready t following →
      (TokenStream.current ⟨following, last⟩).symbol = a →
      walk t table.action? table.goto? sets s α a = some top →
      ∃ pushed rest, pushed.length = α.length ∧ pushed ++ s :: below = top :: rest ∧
        Emits (step t table showHidden) ⟨⟨g ++ (f.tokens ++ following), last⟩, s :: below, .running⟩
          (f.reduced showHidden g)
          ⟨⟨f.kept g ++ following, last⟩, pushed ++ s :: below, .running⟩ := by
  induction h with
  | nil =>
    intro g following last a s top below _ _ _ hwalk
    cases hwalk
    exact ⟨[], below, rfl, rfl, .nil _⟩
  | @leaf cell rest α proper derived later =>
    intro g following last a s top below hg hready ha hwalk
    obtain ⟨s', hnext, -, hwalk⟩ := walk_cons hwalk
    have haction : table.action? s cell.symbol = some (.shift s') := by
      rw [next, proper.terminal, if_neg Bool.false_ne_true] at hnext
      split at hnext
      · next hshift => cases hnext; exact hshift
      · cases hnext
    have hvisible : Ready t (cell.token :: (cell.trivia ++ (rest.tokens ++ following))) := by
      rintro tok later ⟨⟩
      exact proper.visible
    have hshift : step t table showHidden
        ⟨⟨cell.token :: (cell.trivia ++ (rest.tokens ++ following)), last⟩, s :: below, .running⟩ =
          (.shift cell.token,
            ⟨⟨cell.trivia ++ (rest.tokens ++ following), last⟩, s' :: s :: below, .running⟩) :=
      step_shift (TokenStream.nextHidden_ready hvisible showHidden) haction
    obtain ⟨pushed, rest', hlen, htop, hrest⟩ := later proper.hidden hready ha hwalk
    refine ⟨pushed ++ [s'], rest', by simp [hlen], by simpa using htop, ?_⟩
    have := (emits_trivia hg hvisible hshift).append hrest
    simpa [Forest.tokens_leaf, Forest.reduced, Forest.kept] using this
  | @node rule r children rest α known dbelow dlater below' later =>
    intro g following last a s top below hg hready ha hwalk
    obtain ⟨s', hnext, hgo, hwalk⟩ := walk_cons hwalk
    rw [next, adequate.kind known, if_pos rfl] at hnext
    have hready' := dlater.ready hready
    have ha' := dlater.current ha
    obtain ⟨top', hwalk', hreduce⟩ := adequate.reduces known hnext
      (hgo _ (sets.ahead_mem_begins adequate.correct dlater a))
    obtain ⟨pushed, rest', hlen, htop, hinner⟩ := below' hg hready' ha' hwalk'
    rw [htop] at hinner
    have hexposed : (top' :: rest').drop r.rhs.length = s :: below := by
      rw [← htop, ← hlen, List.drop_left]
    have hstep : step t table showHidden
        ⟨⟨rest.tokens ++ following, last⟩, top' :: rest', .running⟩ =
          (.reduce rule, ⟨⟨rest.tokens ++ following, last⟩, s' :: s :: below, .running⟩) :=
      step_reduce (TokenStream.nextHidden_ready hready' showHidden)
        (by rw [ha']; exact hreduce) known hexposed hnext
    have hreduced := hinner.append (emits_trivia (dbelow.kept_hidden hg) hready' hstep)
    obtain ⟨pushed', rest'', hlen', htop', hrest⟩ := later (g := []) (by simp) hready ha hwalk
    refine ⟨pushed' ++ [s'], rest'', by simp [hlen'], by simpa using htop', ?_⟩
    have := hreduced.append hrest
    simpa [Forest.tokens_node, Forest.reduced, Forest.kept] using this

variable (showHidden) in
/-- The engine reads a sentence to its end. -/
theorem emits_sentence (adequate : Adequate t table sets) {accepting : StateId}
    (hstart : walk t table.action? table.goto? sets table.initial [t.start] t.endOfStream =
      some accepting)
    (haccept : table.action? accepting t.endOfStream = some .accept) {f : Forest}
    (h : f.Derived t [t.start]) {g : List Token} {last : Token}
    (hg : ∀ tok ∈ g, t.isHidden tok.symbol = true) (hlast : last.symbol = t.endOfStream) :
    ∃ m, Emits (step t table showHidden) (.start table ⟨g ++ f.tokens, last⟩)
      (f.reduced showHidden g ++ shownAs .shift showHidden (f.kept g) ++ [.accept]) m ∧
        (m.step t table showHidden).1 = .endDocument := by
  have hready : Ready t [] := by rintro tok later ⟨⟩
  obtain ⟨rest, htrees⟩ : ∃ rest, Emits (step t table showHidden)
      (.start table ⟨g ++ f.tokens, last⟩) (f.reduced showHidden g)
      ⟨⟨f.kept g ++ [], last⟩, accepting :: rest, .running⟩ := by
    rw [← List.append_nil f.tokens]
    obtain ⟨pushed, rest, -, htop, htrees⟩ := emits_forest adequate h hg hready hlast hstart
    exact ⟨rest, htop ▸ htrees⟩
  have hlast' : step t table showHidden ⟨⟨[], last⟩, accepting :: rest, .running⟩ =
      (.accept, ⟨⟨[], last⟩, accepting :: rest, .accepted⟩) := by
    rw [← hlast] at haccept
    exact step_accept (TokenStream.nextHidden_ready hready showHidden) haccept rfl
  have := htrees.append (emits_trivia (h.kept_hidden hg) hready hlast')
  rw [← List.append_assoc] at this
  exact ⟨_, this, rfl⟩

end ShiftReduce

end TableParser
