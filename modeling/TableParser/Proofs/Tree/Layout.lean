import TableParser.Proofs.Tree.HiddenLeaves
import TableParser.Proofs.Tree.Places
import TableParser.Proofs.Tree.SourceText
/-!
Where the trees of a builder lie.

What has been read of a source is a beginning of it, and an event with a text stands where the text
starts (`Event.Stands`). The builder remembers where the last text ended. A rule that is opened gets
this place, and its trees follow from there, so the row lies in parts, one for each open rule
(`Builder.Laid`):

    source    a = { b
    frames    Config     Block
    row       a =        { b
    places    0          3          7

A rule that is closed puts its node where its part of the row is. A reduction puts its node where
the trees lie that it takes, if there is a leaf under them; where it takes none, its node goes to
the end of the row.

Main statements: `Builder.upTo_feed` and `Engine.placed_of_build`.
-/

namespace TableParser

open Node (Placed leavesOf)
open TokenStream (Passes)

variable {source before before' : String} {shown : Bool} {t : Tables} {shape : Shape}

/-! ### What is left of a source -/

theorem Position.after_counted (before text : String) :
    (counted before).after text = counted (before ++ text) := by
  rw [← after_start, ← after_append, after_start]

/-- A stream holds what is left of a source after a beginning. -/
structure TokenStream.Left (source before : String) (s : TokenStream) : Prop where
  join : before ++ String.join (s.ahead.map Token.text) = source
  chain : Token.Chain (.counted before) s.ahead s.last.position
  last : s.last.text = ""

namespace TokenStream

theorem Left.start (ends : EndsLast t) (source : String) : Left source "" (ofSource t source) := by
  obtain ⟨hlast, hjoin⟩ := ends.join_ofSource source
  exact ⟨by rw [hjoin, String.empty_append], ofSource_chain t source, hlast⟩

variable {s s' : TokenStream} {ts : List Token}

theorem Left.pass (h : Left source before s) (hpass : Passes ts s s') :
    Left source (before ++ String.join (ts.map Token.text)) s' := by
  have hjoin := h.join
  have hchain := h.chain
  rw [hpass.1, List.map_append, String.join_append, ← String.append_assoc] at hjoin
  rw [hpass.1, ← hpass.2] at hchain
  obtain ⟨p, hts, hrest⟩ := hchain.split
  rw [hts.eq_after, Position.after_counted] at hrest
  exact ⟨hjoin, hrest, hpass.2 ▸ h.last⟩

end TokenStream

/-- An event between two beginnings of a source: without a text it passes nothing that is shown, and
with one it stands where the text starts. -/
inductive Event.Stands (shown : Bool) (before before' : String) (e : Event) : Prop where
  | quiet (silent : e.value? = none) (gap : Gap shown before.utf8ByteSize before'.utf8ByteSize)
  | loud {middle text : String} (gap : Gap shown before.utf8ByteSize middle.utf8ByteSize)
      (value : e.value? = some text) (position : e.position? = some (.counted middle))
      (after : before' = middle ++ text)

/-- What a step reports stands where the step found it. -/
theorem Reports.stands {s s' : TokenStream} {e : Event} (h : Reports t shown s s' e)
    (left : TokenStream.Left source before s) :
    ∃ before', TokenStream.Left source before' s' ∧ e.Stands shown before before' := by
  -- tokens that are passed without a word are not shown
  have hgap : ∀ hs : List Token, (shown = true → hs = []) → Gap shown before.utf8ByteSize
      (before ++ String.join (hs.map Token.text)).utf8ByteSize := by
    intro hs hnone
    rw [String.utf8ByteSize_append]
    refine ⟨Nat.le_add_right .., fun hshow => ?_⟩
    rw [hnone hshow]
    rfl
  cases h with
  | quiet unseen _ none silent => exact ⟨_, left.pass unseen, .quiet silent (hgap _ none)⟩
  | loud unseen _ none carried value position =>
    have hmiddle := left.pass unseen
    rw [TokenStream.position_current hmiddle.chain] at position
    exact ⟨_, hmiddle.pass carried, .loud (hgap _ none) value position rfl⟩

namespace Builder

/-! ### The parts of the row -/

/-- The row lies in parts, one for each open rule and one before them all, and ends at a place. -/
inductive Laid (source : String) (shown : Bool) : List OpenRule → List Node → Position → Prop where
  | outermost {nodes : List Node} {q : Position} (placed : Placed source shown 0 nodes q.offset)
      (place : q.IsIn source) : Laid source shown [] nodes q
  | inside {rule : RuleId} {p q : Position} {outer : List OpenRule} {before inside : List Node}
      (outside : Laid source shown outer before p)
      (placed : Placed source shown p.offset inside q.offset) (place : q.IsIn source) :
      Laid source shown (⟨rule, before.length, p⟩ :: outer) (before ++ inside) q

namespace Laid

variable {frames outer : List OpenRule} {nodes row : List Node} {frame : OpenRule} {p q : Position}

theorem place (h : Laid source shown frames nodes q) : q.IsIn source := by
  cases h with
  | outermost _ place => exact place
  | inside _ _ place => exact place

/-- The row goes on from where it ends. -/
theorem extend (h : Laid source shown frames nodes p)
    (hrow : Placed source shown p.offset row q.offset) (hq : q.IsIn source) :
    Laid source shown frames (nodes ++ row) q := by
  cases h with
  | outermost placed => exact .outermost (Node.placed_append.2 ⟨_, placed, hrow⟩) hq
  | inside outside placed =>
    rw [List.append_assoc]
    exact .inside outside (Node.placed_append.2 ⟨_, placed, hrow⟩) hq

/-- A rule is opened at the end of the row. -/
theorem enter (h : Laid source shown frames nodes q) (rule : RuleId) :
    Laid source shown (⟨rule, nodes.length, q⟩ :: frames) nodes q := by
  have hinside : Laid source shown (⟨rule, nodes.length, q⟩ :: frames) (nodes ++ []) q :=
    .inside h (Node.placed_nil.2 (Gap.refl shown q.offset)) h.place
  rwa [List.append_nil] at hinside

/-- The innermost rule is closed. -/
theorem close {nodes : Array Node} (h : Laid source shown (frame :: outer) nodes.toList q) :
    Laid source shown outer (Builder.close t shape nodes frame).toList q := by
  rw [toList_close]
  generalize nodes.toList = row at h
  cases h with
  | inside outside placed place =>
    rw [List.take_left, List.drop_left]
    exact outside.extend (placed_ruleNode placed outside.place rfl _) place

/-- All open rules are closed. -/
theorem foldl_close : ∀ {frames : List OpenRule} {nodes : Array Node},
    Laid source shown frames nodes.toList q →
      Placed source shown 0 (frames.foldl (Builder.close t shape) nodes).toList q.offset
  | [], _, h => by
    cases h with
    | outermost placed => exact placed
  | _ :: _, _, h => by
    rw [List.foldl_cons]
    exact foldl_close h.close

end Laid

/-! ### Reductions -/

/-- A reduction puts its node in the place of a stretch of the row: one with leaves, or an empty one
at the end. -/
def Replaces (t : Tables) (shape : Shape) (rule : RuleId) (p : Position)
    (nodes nodes' : List Node) : Prop :=
  ∃ before core after, nodes = before ++ core ++ after ∧
    nodes' = before ++ [ruleNode t shape rule p core] ++ after ∧
    (leavesOf core ≠ [] ∨ core = [] ∧ after = [])

/-- A node in the place of a stretch of the row lies where the stretch did. -/
theorem Replaces.placed {rule : RuleId} {p : Position} {nodes nodes' : List Node}
    (h : Replaces t shape rule p nodes nodes') (hp : p.IsIn source)
    (hnodes : Placed source shown 0 nodes p.offset) : Placed source shown 0 nodes' p.offset := by
  obtain ⟨before, core, after, rfl, rfl, hcore⟩ := h
  obtain ⟨d, hfront, hafter⟩ := Node.placed_append.1 hnodes
  obtain ⟨c, hbefore, hstretch⟩ := Node.placed_append.1 hfront
  rcases hcore with hleaves | ⟨rfl, rfl⟩
  · cases core with
    | nil => exact absurd Node.leavesOf_nil hleaves
    | cons first rest =>
      -- the place that the node was given does not matter, so it may be that of the first tree
      rw [ruleNode_position rule p first.label.position hleaves]
      have hfirst : Placed source shown first.offset (first :: rest) d :=
        ⟨hstretch.fits, hstretch.spans.first⟩
      have hplace := (hstretch.fits first (Node.mem_preorderAll List.mem_cons_self)).place
      have hnode : Placed source shown first.offset [ruleNode t shape rule _ (first :: rest)] d :=
        placed_ruleNode hfirst hplace rfl rule
      exact Node.placed_append.2 ⟨d, Node.placed_append.2
        ⟨c, hbefore, hnode.of_gap hstretch.spans.1⟩, hafter⟩
  · rw [List.append_nil, List.append_nil] at hnodes
    rw [List.append_nil]
    exact Node.placed_append.2 ⟨_, hnodes,
      placed_ruleNode (Node.placed_nil.2 (Gap.refl shown _)) hp rfl rule⟩

/-! ### Events -/

/-- The builder holds what is shown of a beginning of the source. -/
structure UpTo (source : String) (shown : Bool) (before : String) (b : Builder) : Prop where
  laid : Laid source shown b.frames b.nodes.toList b.last
  gap : Gap shown b.last.offset before.utf8ByteSize

theorem UpTo.start (source : String) (shown : Bool) : UpTo source shown "" {} :=
  ⟨.outermost (Node.placed_nil.2 (Gap.refl shown 0)) ⟨"", source, String.empty_append, rfl⟩,
    Gap.refl shown 0⟩

/-- A leaf at the end of the row. -/
theorem UpTo.push {b : Builder} {n : Node} {middle text after : String}
    (h : UpTo source shown before b) (hgap : Gap shown before.utf8ByteSize middle.utf8ByteSize)
    (hsource : middle ++ text ++ after = source)
    (hvalue : n.label.value = some text) (hposition : n.label.position = .counted middle)
    (hlength : n.label.length = text.utf8ByteSize) (hchildren : n.children = []) :
    UpTo source shown (middle ++ text)
      { b with nodes := b.nodes.push n, last := (Position.counted middle).after text } := by
  have hleaf : Placed source shown n.offset [n] _ :=
    Node.placed_leaf hsource hvalue hposition hlength hchildren
  have hoffset : n.offset = middle.utf8ByteSize := by rw [Node.offset, hposition]; rfl
  rw [hposition] at hleaf
  constructor
  · rw [Array.toList_push]
    refine h.laid.extend (hleaf.of_gap ?_) ⟨middle ++ text, after, hsource,
      Position.after_counted ..⟩
    rw [hoffset]
    exact h.gap.trans hgap
  · rw [Position.after_counted]
    exact Gap.refl shown _

/-- An event leaves the builder with what is shown up to where the event ends. -/
theorem upTo_feed {b : Builder} {e : Event} {after : String} (h : UpTo source shown before b)
    (he : e.Stands shown before before') (hsource : before' ++ after = source)
    (hreduce : ∀ rule, e = .reduce rule → b.frames = [] ∧
      Replaces t shape rule b.last b.nodes.toList (reduce t shape rule b.last b.nodes).toList) :
    UpTo source shown before' (feed t shape b e) := by
  cases he with
  | quiet silent gap =>
    have hgap := h.gap.trans gap
    cases e with
    | terminal | shift | error => cases silent
    | initial | accept | endDocument => exact ⟨h.laid, hgap⟩
    | nonTerminal rule =>
      refine ⟨?_, hgap⟩
      have henter := h.laid.enter rule
      rw [Array.length_toList] at henter
      exact henter
    | endNonTerminal rule =>
      rw [feed]
      split
      · exact ⟨h.laid, hgap⟩
      · next frame outer hframes =>
        have hlaid := h.laid
        rw [hframes] at hlaid
        exact ⟨hlaid.close, hgap⟩
    | reduce rule =>
      obtain ⟨hframes, hreplaces⟩ := hreduce rule rfl
      have hlaid := h.laid
      rw [hframes] at hlaid
      cases hlaid with
      | outermost placed place =>
        refine ⟨?_, hgap⟩
        rw [feed]
        dsimp only
        rw [hframes]
        exact .outermost (hreplaces.placed place placed) place
  | loud gap value position after =>
    subst after
    cases e with
    | initial | accept | endDocument | nonTerminal | endNonTerminal | reduce => cases value
    | terminal tok | shift tok =>
      cases value
      have hposition := Option.some.inj position
      rw [feed, Token.stop, hposition]
      exact h.push gap hsource rfl hposition rfl rfl
    | error err =>
      cases value
      have hposition := Option.some.inj position
      rw [feed, hposition]
      exact h.push gap hsource rfl hposition rfl rfl

end Builder

namespace Engine

variable {strategy : Strategy} {e : Engine}

/-! ### A whole run -/

/-- After any number of reads the builder holds what is shown of what has been read. -/
theorem upTo_reads (ends : TokenStream.EndsLast t)
    (h : Engine.start t strategy shown source = .ok e) (shape : Shape)
    (hreduce : ∀ n rule, (e.reads t (n + 1)).event = .reduce rule →
      Builder.Replaces t shape rule (e.builder t shape n).last (e.builder t shape n).nodes.toList
        (Builder.reduce t shape rule (e.builder t shape n).last (e.builder t shape n).nodes).toList)
    (n : Nat) :
    ∃ before, (e.reads t n).machine.input.Left source before ∧
      Builder.UpTo source shown before (e.builder t shape n) := by
  obtain ⟨hinput, hshow, -⟩ := start_eq h
  induction n with
  | zero => exact ⟨"", hinput ▸ .start ends source, .start source shown⟩
  | succ n ih =>
    obtain ⟨before, left, upTo⟩ := ih
    have hreports := Machine.reports_step (t := t) (m := (e.reads t n).machine) shown left.last
    obtain ⟨before', left', stands⟩ := hreports.stands left
    have hevent : (e.reads t (n + 1)).event = ((e.reads t n).machine.step t shown).1 := by
      rw [reads_succ, event_read, showHidden_reads, hshow]
    have hmachine : (e.reads t (n + 1)).machine = ((e.reads t n).machine.step t shown).2 := by
      rw [reads_succ, machine_read, showHidden_reads, hshow]
    rw [← hmachine] at left'
    rw [← hevent] at stands
    refine ⟨before', left', ?_⟩
    rw [builder_succ]
    exact Builder.upTo_feed upTo stands left'.join fun rule hrule =>
      ⟨frames_of_reduce h shape hrule, hreduce n rule hrule⟩

/-- The tree of a document that was not given up is placed in its source. -/
theorem placed_of_build (ends : TokenStream.EndsLast t)
    (h : Engine.start t strategy shown source = .ok e) (shape : Shape)
    (hreduce : ∀ n rule, (e.reads t (n + 1)).event = .reduce rule →
      Builder.Replaces t shape rule (e.builder t shape n).last (e.builder t shape n).nodes.toList
        (Builder.reduce t shape rule (e.builder t shape n).last (e.builder t shape n).nodes).toList)
    {n : Nat} (hn : EndsAfter t n e) (hgives : ∀ k < n, ¬ (e.reads t k).machine.GivesUp t shown)
    {root : Node} (hroot : Builder.build t shape (e.events t n) = some root) :
    Placed source shown 0 [root] source.utf8ByteSize := by
  obtain ⟨before, left, upTo⟩ := upTo_reads ends h shape hreduce (n + 1)
  have hbefore := left.join
  rw [ahead_of_endsAfter h hn hgives, List.map_nil, String.join_nil, String.append_empty] at hbefore
  subst hbefore
  have hend : (e.reads t (n + 1)).event = .endDocument := of_decide_eq_true hn.1
  rw [builder_succ, hend, Builder.feed] at upTo
  exact (Builder.placed_finish upTo.laid.foldl_close hroot).of_le_gap upTo.gap

end Engine

end TableParser
