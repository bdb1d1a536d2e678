import TableParser.Proofs.Engine.Hidden
import TableParser.Proofs.Tree.Lookalike
import TableParser.Proofs.Tree.StackHeight
/-!
Showing hidden tokens only adds hidden leaves.

The builder counts trees, so a hidden leaf could change the shape of a tree where it falls into a
rule of one symbol, which gives way to a single child. It never does: a hidden token is shown only
when no complete rule is to be closed, and a rule of one symbol is complete once its symbol has been
read (`Predictive.Slim`). So the events of hidden tokens can be left out before a tree is built or
their leaves after it, with the same outcome.

Main statement: `Engine.hidden_only_adds`.
-/

namespace TableParser

open View (IsUnit Lookalike SameEvent)

variable {t : Tables} {shape : Shape}

/-! ### Two views -/

/-- A label without the place of an inner node. -/
def Label.placeless (l : Label) : Label :=
  if l.value.isSome then l else { l with position := .start, length := 0 }

namespace View

/-- Trees without their hidden leaves and without the places of inner nodes. -/
def withoutHidden : View where
  omits l := l.hidden && l.value.isSome
  read := Label.placeless
  omits_hidden l h := (Bool.and_eq_true_iff.1 h).1
  omits_leaf l h := (Bool.and_eq_true_iff.1 h).2
  read_hidden l := by rw [Label.placeless]; split <;> rfl
  read_error l := by rw [Label.placeless]; split <;> rfl
  read_collapsed l := by rw [Label.placeless]; split <;> rfl
  read_isSome l := by rw [Label.placeless]; split <;> rfl
  read_inner l position length h := by simp [Label.placeless, h]

/-- Trees without the places of inner nodes. -/
def withoutPlaces : View :=
  { withoutHidden with
    omits := fun _ => false
    omits_hidden := fun _ h => nomatch h
    omits_leaf := fun _ h => nomatch h }

/-- Views that read alike show the same of trees in which neither leaves out a node. -/
theorem row_eq_of_kept {v w : View} (hread : v.read = w.read) : ∀ ns : List Node,
    (∀ n ∈ Node.preorderAll ns, v.omits n.label = false ∧ w.omits n.label = false) →
      v.row ns = w.row ns
  | [], _ => by rw [row_nil, row_nil]
  | .mk l cs :: rest, h => by
    rw [Node.preorderAll_cons, List.forall_mem_cons, Node.preorderAll_append,
      List.forall_mem_append] at h
    obtain ⟨hn, hchildren, hrest⟩ := h
    rw [row_cons_kept hn.1, row_cons_kept hn.2, seen, seen, hread, row_eq_of_kept hread rest hrest]
    simp only [Node.label, Node.children]
    rw [row_eq_of_kept hread cs hchildren]
termination_by ns => sizeOf ns

end View

/-! ### Rules of one symbol -/

/-- The number of symbols that a rule of one symbol may still have to come: none before a hidden
token. -/
def TokenStream.room (t : Tables) (s : TokenStream) : Nat :=
  if t.isHidden s.current.symbol then 0 else 1

theorem TokenStream.room_le (t : Tables) (s : TokenStream) : s.room t ≤ 1 := by
  rw [room]
  split <;> omega

/-- Recovery stops before a token that is not hidden. -/
theorem TokenStream.room_recover {s : TokenStream} (sync : SymbolId → Bool)
    (hlast : t.isHidden s.last.symbol = false) : (s.recover t sync).2.room t = 1 := by
  have hvisible : t.isHidden (s.recover t sync).2.current.symbol = false := by
    rcases s.recover_current (t := t) sync with hover | ⟨hvisible, -⟩
    · rw [hover, hlast]
    · exact hvisible
  rw [room, hvisible, if_neg Bool.false_ne_true]

namespace Predictive

/-- An open rule of one symbol has it still to come only if it is the innermost open rule and there
is room, that is if no hidden token is at hand. -/
inductive Slim (t : Tables) : (room : Nat) → List Pending → List OpenRule → Prop where
  | outermost {room : Nat} (todo : List SymbolId) : Slim t room (todo.map .symbol) []
  | inside {room base : Nat} {todo : List SymbolId} {rule : RuleId} {p : Position}
      {below : List Pending} {outer : List OpenRule} (fits : IsUnit t rule → todo.length ≤ room)
      (outside : Slim t 0 below outer) :
      Slim t room (todo.map .symbol ++ .close rule :: below) (⟨rule, base, p⟩ :: outer)

namespace Slim

variable {room room' : Nat} {stack below : List Pending} {frames : List OpenRule} {s : SymbolId}
  {rule : RuleId}

theorem mono (h : Slim t room stack frames) (hle : room ≤ room') : Slim t room' stack frames := by
  cases h with
  | outermost todo => exact .outermost todo
  | inside fits outside => exact .inside (fun hunit => Nat.le_trans (fits hunit) hle) outside

/-- Once its symbol is off the stack, a rule of one symbol is complete. -/
theorem pop (h : Slim t 1 (.symbol s :: below) frames) : Slim t 0 below frames := by
  generalize hstack : (.symbol s :: below : List Pending) = stack at h
  cases h with
  | outermost todo =>
    cases todo with
    | nil => cases hstack
    | cons s' todo => cases hstack; exact .outermost todo
  | @inside _ _ todo _ _ _ _ fits outside =>
    cases todo with
    | nil => cases hstack
    | cons s' todo =>
      cases hstack
      refine .inside (fun hunit => ?_) outside
      have := fits hunit
      rw [List.length_cons] at this
      omega

/-- A rule is opened. -/
theorem enter (h : Slim t 0 below frames) (rule : RuleId) (base : Nat) (p : Position) :
    Slim t 1 (body t rule ++ .close rule :: below) (⟨rule, base, p⟩ :: frames) := by
  have hbody : body t rule = ((t.rule? rule).elim [] Rule.rhs).map .symbol := by
    rw [body]
    cases t.rule? rule <;> rfl
  rw [hbody]
  refine .inside (fun hunit => ?_) h
  obtain ⟨r, known, hone⟩ := hunit
  rw [known, Option.elim_some, hone]

/-- The innermost rule is closed. -/
theorem leave (h : Slim t room (.close rule :: below) frames) :
    ∃ frame outer, frames = frame :: outer ∧ Slim t 0 below outer := by
  generalize hstack : (.close rule :: below : List Pending) = stack at h
  cases h with
  | outermost todo => cases todo <;> cases hstack
  | @inside _ _ todo _ _ _ _ fits outside =>
    cases todo with
    | nil => cases hstack; exact ⟨_, _, rfl, outside⟩
    | cons => cases hstack

/-- Where a hidden token is shown, the innermost rule is none of one symbol. -/
theorem not_isUnit (h : Slim t 0 stack frames) (top : ∀ rule below, stack ≠ .close rule :: below) :
    ∀ frame ∈ frames.head?, ¬ IsUnit t frame.rule := by
  cases h with
  | outermost => simp
  | @inside _ _ todo rule _ below _ fits =>
    rintro _ ⟨⟩ hunit
    obtain rfl := List.length_eq_zero_iff.1 (Nat.le_zero.1 (fits hunit))
    exact top rule below rfl

end Slim

variable {table : PredictionTable} {m : Predictive} {b : Builder}

/-- A step that shows hidden tokens keeps the rules of one symbol complete before them. -/
theorem slim_step (hlast : t.isHidden m.input.last.symbol = false)
    (h : Slim t (m.input.room t) m.stack b.frames) :
    Slim t ((m.step t table true).2.input.room t) (m.step t table true).2.stack
      (Builder.feed t shape b (m.step t table true).1).frames := by
  have hone := h.mono (m.input.room_le t)
  obtain ⟨e, m', hstep, hmoves⟩ := exists_moves t table true m
  rw [hstep]
  cases hmoves with
  | rest => exact h
  | close _ top =>
    rw [top] at h
    obtain ⟨frame, outer, hframes, houtside⟩ := h.leave
    rw [Builder.feed, hframes]
    exact houtside.mono (Nat.zero_le _)
  | hidden _ _ next =>
    obtain ⟨-, hhidden, hpass⟩ := TokenStream.nextHidden_some next
    rw [TokenStream.room, TokenStream.current_of_cons hpass.1, if_pos hhidden] at h
    exact h.mono (Nat.zero_le _)
  | @expand s below input rule _ top next =>
    obtain ⟨rfl, -⟩ := TokenStream.dropHidden_of_none next
    rw [top] at hone
    have hroom : m.input.room t = 1 := by
      rw [TokenStream.room, TokenStream.isHidden_current hlast next, if_neg Bool.false_ne_true]
    rw [hroom]
    exact hone.pop.enter rule _ _
  | take _ top =>
    rw [top] at hone
    exact hone.pop.mono (Nat.zero_le _)
  | @skip s below input _ sync _ top next =>
    obtain ⟨rfl, -⟩ := TokenStream.dropHidden_of_none next
    rw [TokenStream.room_recover sync hlast]
    dsimp only
    split
    · exact hone
    · rw [top] at hone
      exact hone.pop.mono (Nat.zero_le _)
  | @leftOver input _ top next =>
    obtain ⟨rfl, -⟩ := TokenStream.dropHidden_of_none next
    rw [TokenStream.room_recover _ hlast]
    exact hone
  | finish _ top next =>
    obtain ⟨rfl, -⟩ := TokenStream.dropHidden_of_none next
    exact h

/-- A predictive engine reports no reduction. -/
theorem step_ne_reduce (m : Predictive) (showHidden : Bool) (rule : RuleId) :
    (m.step t table showHidden).1 ≠ .reduce rule := by
  obtain ⟨e, m', hstep, hmoves⟩ := exists_moves t table showHidden m
  rw [hstep]
  cases hmoves <;> rintro ⟨⟩

end Predictive

namespace ShiftReduce

variable {table : ShiftReduceTable} {b : Builder}

/-- A shift-reduce engine opens no rule. -/
theorem frames_step (m : ShiftReduce) (showHidden : Bool) (h : b.frames = []) :
    (Builder.feed t shape b (m.step t table showHidden).1).frames = [] := by
  obtain ⟨e, m', hstep, hmoves⟩ := exists_moves t table showHidden m
  rw [hstep]
  cases hmoves <;> exact h

end ShiftReduce

namespace Engine

variable {strategy : Strategy} {showHidden : Bool} {source : String} {e e' : Engine}

/-! ### Open rules along a run -/

/-- Reads of a predictive engine that shows hidden tokens. -/
theorem slim_reads {table : PredictionTable} {input : TokenStream} (hshow : e.showHidden = true)
    (hmachine : e.machine = .predictive table (.start t input))
    (hlast : t.isHidden input.last.symbol = false) (shape : Shape) (n : Nat) :
    ∃ m, (e.reads t n).machine = .predictive table m ∧ t.isHidden m.input.last.symbol = false ∧
      Predictive.Slim t (m.input.room t) m.stack (e.builder t shape n).frames := by
  induction n with
  | zero => exact ⟨_, hmachine, hlast, .outermost [t.start]⟩
  | succ n ih =>
    obtain ⟨m, hm, hlast, hslim⟩ := ih
    obtain ⟨hevent, hnext⟩ := reads_predictive hm
    rw [hshow] at hevent hnext
    refine ⟨_, hnext, by rw [Predictive.last_step, hlast], ?_⟩
    rw [builder_succ, hevent]
    exact Predictive.slim_step hlast hslim

/-- Reads of a shift-reduce engine open no rule. -/
theorem frames_reads {table : ShiftReduceTable} {m : ShiftReduce}
    (hmachine : e.machine = .shiftReduce table m) (shape : Shape) (n : Nat) :
    (e.builder t shape n).frames = [] := by
  induction n with
  | zero => rfl
  | succ n ih =>
    obtain ⟨m', hm⟩ := machine_reads (t := t) hmachine n
    rw [builder_succ, (reads_shiftReduce hm).1]
    exact ShiftReduce.frames_step m' e.showHidden ih

/-- A reduction comes only while no rule is open. -/
theorem frames_of_reduce (h : Engine.start t strategy showHidden source = .ok e)
    (shape : Shape) {n : Nat} {rule : RuleId} (hreduce : (e.reads t (n + 1)).event = .reduce rule) :
    (e.builder t shape n).frames = [] := by
  rcases Machine.start_cases (machine_of_start h) with ⟨table, hmachine⟩ | ⟨table, hmachine⟩
  · have hreads : ∀ n, ∃ m, (e.reads t n).machine = .predictive table m := by
      intro n
      induction n with
      | zero => exact ⟨_, hmachine⟩
      | succ n ih =>
        obtain ⟨m, hm⟩ := ih
        exact ⟨_, (reads_predictive hm).2⟩
    obtain ⟨m, hm⟩ := hreads n
    rw [(reads_predictive hm).1] at hreduce
    exact absurd hreduce (m.step_ne_reduce e.showHidden rule)
  · exact frames_reads hmachine shape n

/-- A hidden token does not fall into a rule of one symbol. -/
theorem not_isUnit_of_hidden (hvisible : t.isHidden t.endOfStream = false)
    (h : Engine.start t strategy true source = .ok e) (shape : Shape) {n : Nat}
    (hhidden : (e.reads t (n + 1)).event.isHidden t = true) :
    ∀ frame ∈ (e.builder t shape n).frames.head?, ¬ IsUnit t frame.rule := by
  obtain ⟨hinput, hshow, -⟩ := start_eq h
  rcases Machine.start_cases (machine_of_start h) with ⟨table, hmachine⟩ | ⟨table, hmachine⟩
  · have hlast : t.isHidden (TokenStream.ofSource t source).last.symbol = false := by
      rw [show (TokenStream.ofSource t source).last.symbol = t.endOfStream from
        (TokenStream.symbol_ofScanner _).1, hvisible]
    obtain ⟨m, hm, hlast, hslim⟩ := slim_reads hshow hmachine hlast shape n
    rw [(reads_predictive hm).1, hshow] at hhidden
    obtain ⟨ev, m', hstep, hmoves⟩ := Predictive.exists_moves t table true m
    rw [hstep] at hhidden
    cases hmoves with
    | rest | close | expand | skip | leftOver | finish => cases hhidden
    | take _ _ next =>
      rw [Event.isHidden, Event.token?, Option.any_some,
        TokenStream.isHidden_current hlast next] at hhidden
      cases hhidden
    | hidden _ top next =>
      obtain ⟨-, hh, hpass⟩ := TokenStream.nextHidden_some next
      rw [TokenStream.room, TokenStream.current_of_cons hpass.1, if_pos hh] at hslim
      exact hslim.not_isUnit top
  · rw [frames_reads hmachine shape n]
    simp

/-! ### Trees -/

/-- An event that is not about a hidden token gives both builders the same to do. -/
theorem sameEvent_of_visible {ev : Event} (h : ev.isHidden t = false) (shape : Shape) :
    SameEvent View.withoutHidden t shape ev ev := by
  have hleaf : ∀ tok : Token, t.isHidden tok.symbol = false →
      View.withoutHidden.omits (Builder.leaf t shape tok).label = false := by
    intro tok htok
    have hhidden : (Builder.leaf t shape tok).label.hidden = false := htok
    simp [View.withoutHidden, hhidden]
  cases ev with
  | initial | nonTerminal | endNonTerminal | reduce | accept | endDocument => exact .quiet rfl
  | terminal tok | shift tok => exact .leaf rfl rfl rfl (hleaf tok h) (hleaf tok h)
  | error err => exact .leaf rfl rfl rfl rfl rfl

/-- The events without those of hidden tokens lead to a builder that looks the same but for hidden
leaves. -/
theorem lookalike_reads (hvisible : t.isHidden t.endOfStream = false)
    (h : Engine.start t strategy true source = .ok e) (shape : Shape) (n : Nat) :
    Lookalike View.withoutHidden t (e.builder t shape n)
      ((visible t (e.events t n)).foldl (Builder.feed t shape) {}) := by
  induction n with
  | zero => exact .start
  | succ n ih =>
    rw [builder_succ, events_succ, visible_append, List.foldl_append]
    cases hev : (e.reads t (n + 1)).event.isHidden t with
    | true =>
      rw [visible_cons_hidden hev]
      obtain ⟨tok, htok, hh⟩ := (Option.any_eq_true _ _).1 hev
      have hleaf :
          Builder.leafOf t shape (e.reads t (n + 1)).event = [Builder.leaf t shape tok] := by
        cases hk : (e.reads t (n + 1)).event with
        | initial | nonTerminal | endNonTerminal | reduce | accept | endDocument | error =>
          rw [hk] at htok; cases htok
        | terminal | shift => rw [hk] at htok; cases htok; rfl
      exact ih.feed_omitted hleaf (Bool.and_eq_true_iff.2 ⟨hh, rfl⟩)
        (not_isUnit_of_hidden hvisible h shape hev)
    | false =>
      rw [visible_cons_shown hev]
      exact ih.feed (sameEvent_of_visible hev shape) fun rule hrule =>
        frames_of_reduce h shape hrule

/-- Without the hidden leaves of `shown` there is left what `plain` is, up to the places of inner
nodes. There is no plain tree where nothing is left below the root. -/
structure HiddenAdded (shown plain : Option Node) : Prop where
  none_iff : plain = none ↔ ∀ n ∈ shown, View.withoutHidden.row n.children = []
  some : ∀ p ∈ plain, ∃ n ∈ shown, View.withoutHidden.row [n] = View.withoutPlaces.row [p]

/-- A tree without hidden tokens has no hidden leaves. -/
theorem kept_of_build {events : List Event} (hvisible : ∀ ev ∈ events, ev.isHidden t = false)
    {p : Node} (h : Builder.build t shape events = some p) :
    ∀ m ∈ Node.preorderAll [p], View.withoutHidden.omits m.label = false := by
  intro m hm
  refine Bool.eq_false_iff.2 fun homits => ?_
  obtain ⟨hhidden, hleaf⟩ := Bool.and_eq_true_iff.1 homits
  have hmem : m ∈ events.flatMap (Builder.leafOf t shape) := by
    rw [← Builder.leavesOf_build, h, Option.toList_some, Node.leavesOf, List.mem_filter]
    exact ⟨hm, hleaf⟩
  obtain ⟨ev, hev, hm⟩ := List.mem_flatMap.1 hmem
  have hev := hvisible ev hev
  cases ev with
  | initial | nonTerminal | endNonTerminal | reduce | accept | endDocument => cases hm
  | error err =>
    obtain rfl := List.mem_singleton.1 hm
    cases hhidden
  | terminal tok | shift tok =>
    obtain rfl := List.mem_singleton.1 hm
    rw [Builder.hidden_leaf, show t.isHidden tok.symbol = false from hev] at hhidden
    cases hhidden

/-- The tree of some events, and that of the events that are not about hidden tokens. -/
theorem hiddenAdded_build (hvisible : t.isHidden t.endOfStream = false)
    (h : Engine.start t strategy true source = .ok e) (shape : Shape) (n : Nat) :
    HiddenAdded (Builder.build t shape (e.events t n))
      (Builder.build t shape (visible t (e.events t n))) := by
  have agree : View.withoutHidden.Agree (Builder.build t shape (e.events t n))
      (Builder.build t shape (visible t (e.events t n))) :=
        (lookalike_reads hvisible h shape n).agree
  have hkept : ∀ ev ∈ visible t (e.events t n), ev.isHidden t = false := fun ev hev => by
    simpa using (List.mem_filter.1 hev).2
  -- below the root of the plain tree there is something, and all of it is seen
  have hseen : ∀ p, Builder.build t shape (visible t (e.events t n)) = some p →
      View.withoutHidden.row p.children ≠ [] := by
    intro p hp hnil
    obtain ⟨-, hne⟩ := Builder.children_ne_nil_of_finish hp
    have hp := kept_of_build hkept hp
    rw [Node.preorderAll_singleton, Node.preorder_eq, List.forall_mem_cons] at hp
    rw [View.row_keeps fun c hc => hp.2 c (Node.mem_preorderAll hc), List.map_eq_nil_iff] at hnil
    exact hne hnil
  cases hplain : Builder.build t shape (visible t (e.events t n)) with
  | none =>
    rw [hplain] at agree
    exact ⟨iff_of_true rfl (agree.right rfl), fun p hp => nomatch hp⟩
  | some p =>
    rw [hplain] at agree
    have hp := hseen p hplain
    obtain ⟨shown, hshown⟩ : ∃ shown, Builder.build t shape (e.events t n) = some shown :=
      Option.ne_none_iff_exists'.1 fun hnone => hp (agree.left hnone p rfl)
    rw [hshown] at agree ⊢
    have hsame := agree.same shown rfl p rfl
    have hchildren := View.row_children_eq (Builder.children_ne_nil_of_finish hshown).1
      (Builder.children_ne_nil_of_finish hplain).1 hsame
    constructor
    · refine iff_of_false nofun fun hnil => hp ?_
      rw [← hchildren]
      exact hnil shown rfl
    · rintro _ ⟨⟩
      have hread : View.withoutHidden.read = View.withoutPlaces.read := rfl
      refine ⟨shown, rfl, hsame.trans (View.row_eq_of_kept hread _ fun m hm => ⟨?_, rfl⟩)⟩
      exact kept_of_build hkept hplain m hm

/-- Showing hidden tokens only adds their events and their leaves: without the events of hidden
tokens, an engine that shows them reports what an engine reports that passes over them, and one ends
if the other does. Without its hidden leaves, the tree is the plain one up to the places of inner
nodes. -/
theorem hidden_only_adds {a : Asset} (hload : a.load = .ok t)
    (h : Engine.start t strategy true source = .ok e)
    (h' : Engine.start t strategy false source = .ok e') (shape : Shape) :
    (∀ n, ∃ k ≤ n, visible t (e.events t n) = e'.events t k) ∧
    (∀ k, ∃ n, visible t (e.events t n) = e'.events t k) ∧
    ((∃ n, EndsAfter t n e) ↔ ∃ k, EndsAfter t k e') ∧
    (∀ n k, EndsAfter t n e → EndsAfter t k e' → visible t (e.events t n) = e'.events t k ∧
      HiddenAdded (Builder.build t shape (e.events t n)) (Builder.build t shape (e'.events t k))) ∧
    ((e.parse t shape).2.ended = true → (e'.parse t shape).2.ended = true →
      visible t (e.run t).1 = (e'.run t).1 ∧
        HiddenAdded (e.parse t shape).1 (e'.parse t shape).1) := by
  have hvisible := (Asset.shown_of_load hload).endOfStream
  have shadows := Shadows.start hvisible h h'
  have hends : ∀ n k, EndsAfter t n e → EndsAfter t k e' →
      visible t (e.events t n) = e'.events t k ∧
        HiddenAdded (Builder.build t shape (e.events t n))
          (Builder.build t shape (e'.events t k)) := by
    intro n k hn hk
    obtain ⟨k', hk', hevents⟩ := shadows.endsAfter.1 n hn
    obtain rfl := hk.unique hk'
    exact ⟨hevents, hevents ▸ hiddenAdded_build hvisible h shape n⟩
  refine ⟨fun n => ?_, fun k => ?_, ⟨?_, ?_⟩, hends, fun hend hend' => ?_⟩
  · obtain ⟨k, hk, hevents, -⟩ := shadows.reads n
    exact ⟨k, hk, hevents⟩
  · obtain ⟨n, hevents, -⟩ := shadows.exists_reads k
    exact ⟨n, hevents⟩
  · rintro ⟨n, hn⟩
    obtain ⟨k, hk, -⟩ := shadows.endsAfter.1 n hn
    exact ⟨k, hk⟩
  · rintro ⟨k, hk⟩
    obtain ⟨n, hn, -⟩ := shadows.endsAfter.2 k hk
    exact ⟨n, hn⟩
  · obtain ⟨n, hn, hrun, htree⟩ := parse_ended hend
    obtain ⟨k, hk, hrun', htree'⟩ := parse_ended hend'
    rw [hrun, hrun', htree, htree']
    exact hends n k hn hk

theorem hidden_only_adds_broken :
    ∃ e e', Engine.start Script.tables .predictive true Script.broken = .ok e ∧
    Engine.start Script.tables .predictive false Script.broken = .ok e' ∧
    visible Script.tables (e.run Script.tables).1 = (e'.run Script.tables).1 ∧
    HiddenAdded (e.parse Script.tables {}).1 (e'.parse Script.tables {}).1 := by
  obtain ⟨e, he⟩ := Script.exists_start .predictive true Script.broken
  obtain ⟨e', he'⟩ := Script.exists_start .predictive false Script.broken
  exact ⟨e, e', he, he', (hidden_only_adds Script.load_asset he he' {}).2.2.2.2
    (Script.ended_parse (.start he) {}) (Script.ended_parse (.start he') {})⟩

end Engine

end TableParser
