import TableParser.Proofs.Tree.View
/-!
Two builders whose rows look the same.

Two builders are compared part by part: the trees behind each open rule look the same in both, and
so do the trees before the first open rule (`View.Matches`). Events that leave leaves of the same
looks keep this up, and so does a leaf that one of the builders gets alone and that is left out,
unless it falls into a rule of one symbol. Builders that match in the end give trees that agree.

Main statements: `View.Lookalike.feed`, `View.Lookalike.feed_omitted` and `View.Lookalike.agree`.
-/

namespace TableParser

namespace View

variable {v : View} {t : Tables} {shape : Shape}

/-- A rule of one symbol, which may give way to its child. -/
def IsUnit (t : Tables) (rule : RuleId) : Prop :=
  ∃ r, t.rule? rule = some r ∧ r.rhs.length = 1

/-- Open rules and rows that look the same part by part. Of the trees behind a rule of one symbol
none is left out. -/
inductive Matches (v : View) (t : Tables) :
    List OpenRule → List Node → List OpenRule → List Node → Prop where
  /-- No rule is open. -/
  | outermost {nodes nodes' : List Node} (same : v.row nodes = v.row nodes') :
      Matches v t [] nodes [] nodes'
  /-- The same rule is open, and the trees behind it look the same. -/
  | inside {rule : RuleId} {before before' inside inside' : List Node}
      {outer outer' : List OpenRule} {p p' : Position}
      (outside : Matches v t outer before outer' before')
      (same : v.row inside = v.row inside')
      (full : IsUnit t rule → v.Keeps inside ∧ v.Keeps inside') :
      Matches v t (⟨rule, before.length, p⟩ :: outer) (before ++ inside)
        (⟨rule, before'.length, p'⟩ :: outer') (before' ++ inside')

namespace Matches

variable {frames frames' : List OpenRule} {frame frame' : OpenRule} {nodes nodes' : List Node}
  {n n' : Node}

/-- As many rules are open. -/
theorem length_eq (h : Matches v t frames nodes frames' nodes') :
    frames.length = frames'.length := by
  induction h with
  | outermost => rfl
  | inside _ _ _ ih => rw [List.length_cons, List.length_cons, ih]

theorem frames_eq_nil (h : Matches v t [] nodes frames' nodes') : frames' = [] :=
  List.length_eq_zero_iff.1 h.length_eq.symm

/-- Rows that match look the same. -/
theorem row_eq (h : Matches v t frames nodes frames' nodes') : v.row nodes = v.row nodes' := by
  induction h with
  | outermost same => exact same
  | inside outside same full ih => rw [row_append, row_append, ih, same]

/-- Both rows get a tree that looks the same and is not left out. -/
theorem push (h : Matches v t frames nodes frames' nodes') (hsame : v.row [n] = v.row [n'])
    (hn : v.omits n.label = false) (hn' : v.omits n'.label = false) :
    Matches v t frames (nodes ++ [n]) frames' (nodes' ++ [n']) := by
  cases h with
  | outermost same => exact .outermost (by rw [row_append, row_append, same, hsame])
  | inside outside same full =>
    rw [List.append_assoc, List.append_assoc]
    refine .inside outside (by rw [row_append, row_append, same, hsame]) fun hunit => ?_
    rw [keeps_append, keeps_append, keeps_singleton, keeps_singleton]
    exact ⟨⟨(full hunit).1, hn⟩, (full hunit).2, hn'⟩

/-- One row gets a tree that is left out. -/
theorem push_omitted (h : Matches v t frames nodes frames' nodes') (hn : v.omits n.label = true)
    (hunit : ∀ frame ∈ frames.head?, ¬ IsUnit t frame.rule) :
    Matches v t frames (nodes ++ [n]) frames' nodes' := by
  have hrow : ∀ ns, v.row (ns ++ [n]) = v.row ns := by
    intro ns
    rw [row_append, row_singleton, node_omitted hn, List.append_nil]
  cases h with
  | outermost same => exact .outermost (by rw [hrow, same])
  | inside outside same full =>
    rw [List.append_assoc]
    exact .inside outside (by rw [hrow, same]) fun h => absurd h (hunit _ rfl)

/-- The same rule is opened. -/
theorem enter (h : Matches v t frames nodes frames' nodes') (rule : RuleId) (p p' : Position) :
    Matches v t (⟨rule, nodes.length, p⟩ :: frames) nodes
      (⟨rule, nodes'.length, p'⟩ :: frames') nodes' := by
  have hinside : Matches v t (⟨rule, nodes.length, p⟩ :: frames) (nodes ++ [])
      (⟨rule, nodes'.length, p'⟩ :: frames') (nodes' ++ []) :=
    .inside h rfl fun _ => ⟨keeps_nil, keeps_nil⟩
  rwa [List.append_nil, List.append_nil] at hinside

/-- The innermost rule is closed. -/
theorem leave {nodes nodes' : Array Node}
    (h : Matches v t (frame :: frames) nodes.toList (frame' :: frames') nodes'.toList) :
    Matches v t frames (Builder.close t shape nodes frame).toList
      frames' (Builder.close t shape nodes' frame').toList := by
  rw [Builder.toList_close, Builder.toList_close]
  generalize nodes.toList = row at h ⊢
  generalize nodes'.toList = row' at h ⊢
  cases h with
  | @inside rule before before' inside inside' _ _ p p' outside same full =>
    have hfull : ∀ r, t.rule? rule = some r → r.rhs.length = 1 → v.Keeps inside ∧ v.Keeps inside' :=
      fun r known hone => full ⟨r, known, hone⟩
    dsimp only
    rw [List.take_left, List.drop_left, List.take_left, List.drop_left]
    exact outside.push (row_ruleNode same hfull)
      (omits_ruleNode fun r known hone => (hfull r known hone).1)
      (omits_ruleNode fun r known hone => (hfull r known hone).2)

/-- All rules that are still open are closed. -/
theorem row_closed {nodes nodes' : Array Node}
    (h : Matches v t frames nodes.toList frames' nodes'.toList) :
    v.row (frames.foldl (Builder.close t shape) nodes).toList =
      v.row (frames'.foldl (Builder.close t shape) nodes').toList := by
  induction frames generalizing frames' nodes nodes' with
  | nil =>
    obtain rfl := h.frames_eq_nil
    exact h.row_eq
  | cons frame frames ih =>
    obtain ⟨frame', frames', rfl⟩ : ∃ f fs, frames' = f :: fs :=
      List.exists_cons_of_length_eq_add_one h.length_eq.symm
    rw [List.foldl_cons, List.foldl_cons]
    exact ih h.leave

end Matches

/-! ### Events -/

/-- Two builders that match. -/
def Lookalike (v : View) (t : Tables) (b b' : Builder) : Prop :=
  Matches v t b.frames b.nodes.toList b'.frames b'.nodes.toList

/-- Two events that look the same to a builder: the same event, or leaves of the same looks. -/
inductive SameEvent (v : View) (t : Tables) (shape : Shape) : Event → Event → Prop where
  | quiet {ev : Event} (silent : ev.value? = none) : SameEvent v t shape ev ev
  | leaf {ev ev' : Event} {n n' : Node} (left : Builder.leafOf t shape ev = [n])
      (right : Builder.leafOf t shape ev' = [n']) (same : v.row [n] = v.row [n'])
      (kept : v.omits n.label = false) (kept' : v.omits n'.label = false) :
      SameEvent v t shape ev ev'

namespace Lookalike

variable {b b' : Builder} {ev ev' : Event}

theorem start : Lookalike v t {} {} := .outermost rfl

/-- Events that look the same keep the builders alike, if reductions come only while no rule is
open. -/
theorem feed (h : Lookalike v t b b') (hev : SameEvent v t shape ev ev')
    (hreduce : ∀ rule, ev = .reduce rule → b.frames = []) :
    Lookalike v t (Builder.feed t shape b ev) (Builder.feed t shape b' ev') := by
  cases hev with
  | leaf left right same kept kept' =>
    obtain ⟨hframes, hnodes⟩ := Builder.feed_leaf left b
    obtain ⟨hframes', hnodes'⟩ := Builder.feed_leaf right b'
    rw [Lookalike, hframes, hnodes, hframes', hnodes']
    exact h.push same kept kept'
  | quiet silent =>
    cases ev with
    | terminal | shift | error => cases silent
    | initial | accept | endDocument => exact h
    | nonTerminal rule =>
      have := h.enter rule b.last b'.last
      rwa [Array.length_toList, Array.length_toList] at this
    | endNonTerminal rule =>
      rw [Builder.feed, Builder.feed]
      rw [Lookalike] at h
      cases hb : b.frames with
      | nil =>
        rw [hb] at h
        have hb' := h.frames_eq_nil
        rw [Lookalike, hb']
        simpa only [hb, hb'] using h
      | cons frame outer =>
        rw [hb] at h
        obtain ⟨frame', outer', hb'⟩ := List.exists_cons_of_length_eq_add_one h.length_eq.symm
        rw [hb'] at h ⊢
        exact h.leave
    | reduce rule =>
      rw [Lookalike, hreduce rule rfl] at h
      have hframes' := h.frames_eq_nil
      rw [Lookalike, Builder.feed, Builder.feed, hreduce rule rfl, hframes']
      exact .outermost (row_reduce h.row_eq)

/-- A leaf that is left out keeps the builders alike, if it does not fall into a rule of one
symbol. -/
theorem feed_omitted (h : Lookalike v t b b') {n : Node} (hleaf : Builder.leafOf t shape ev = [n])
    (hn : v.omits n.label = true) (hunit : ∀ frame ∈ b.frames.head?, ¬ IsUnit t frame.rule) :
    Lookalike v t (Builder.feed t shape b ev) b' := by
  obtain ⟨hframes, hnodes⟩ := Builder.feed_leaf hleaf b
  rw [Lookalike, hframes, hnodes]
  exact h.push_omitted hn hunit

/-- Events that leave the builders alike give trees that agree. -/
theorem agree {events events' : List Event} (h : Lookalike v t
      (events.foldl (Builder.feed t shape) {}) (events'.foldl (Builder.feed t shape) {})) :
    v.Agree (Builder.build t shape events) (Builder.build t shape events') :=
  agree_finish _ _ h.row_closed

end Lookalike

end View

end TableParser
