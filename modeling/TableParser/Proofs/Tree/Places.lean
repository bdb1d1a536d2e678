import TableParser.Proofs.Token.Coverage
import TableParser.Proofs.Tree.View
/-!
Where the trees of a row lie.

The trees of a row span pieces of the source, one after the other (`Spans`). An inner node spans its
children, so its children lie from its start to its end, and where they stand in its place the row
spans the same. Where hidden tokens are shown nothing is between two neighbours.

    source    a =  { b }
    row       Scalar Specifier Value          0..1, 2..3, 5..10
    below     ……………………………… Block           5..10

A node over no children has no length, and it lies where the row is when it is put there.

Main statements: `Builder.placed_ruleNode`, `Builder.placed_finish` and
`Node.Placed.exists_sourceText`.
-/

namespace TableParser

/-! ### Pieces of a source -/

/-- A place in a source, as counting the text before it gives it. -/
def Position.IsIn (source : String) (p : Position) : Prop :=
  ∃ before after, before ++ after = source ∧ p = .counted before

/-- Of two beginnings of a text, the longer one goes on from the shorter one. -/
theorem exists_between {before after before' after' : String}
    (h : before ++ after = before' ++ after') (hle : before.utf8ByteSize ≤ before'.utf8ByteSize) :
    ∃ inside, before' = before ++ inside := by
  rcases List.append_eq_append_iff.1 (by simpa using congrArg String.toList h) with
    ⟨row, hrow, -⟩ | ⟨row, hrow, -⟩
  · refine ⟨String.ofList row, String.toList_inj.1 ?_⟩
    rw [String.toList_append, String.toList_ofList, hrow]
  · have hbefore : before = before' ++ String.ofList row := String.toList_inj.1 (by
      rw [String.toList_append, String.toList_ofList, hrow])
    rw [hbefore, String.utf8ByteSize_append] at hle
    have hempty : String.ofList row = "" := String.utf8ByteSize_eq_zero_iff.1 (by omega)
    refine ⟨"", ?_⟩
    rw [hbefore, hempty, String.append_empty, String.append_empty]

/-- Beginnings of a text that have the same size are the same. -/
theorem append_inj_of_size {before after before' after' : String}
    (h : before ++ after = before' ++ after') (hsize : before.utf8ByteSize = before'.utf8ByteSize) :
    before = before' ∧ after = after' := by
  obtain ⟨inside, rfl⟩ := exists_between h (Nat.le_of_eq hsize)
  rw [String.utf8ByteSize_append] at hsize
  have hempty : inside = "" := String.utf8ByteSize_eq_zero_iff.1 (by omega)
  rw [hempty, String.append_empty] at h ⊢
  exact ⟨rfl, (String.append_right_inj before).1 h⟩

/-- One offset is not behind another one, and it is the same where all of the input is shown. -/
def Gap (shown : Bool) (a b : Nat) : Prop :=
  a ≤ b ∧ (shown = true → a = b)

variable {source : String} {shown : Bool} {a b c : Nat}

theorem Gap.refl (shown : Bool) (a : Nat) : Gap shown a a := ⟨Nat.le_refl a, fun _ => rfl⟩

theorem Gap.trans (h : Gap shown a b) (h' : Gap shown b c) : Gap shown a c :=
  ⟨Nat.le_trans h.1 h'.1, fun hs => (h.2 hs).trans (h'.2 hs)⟩

namespace Node

variable {n : Node} {ns cs : List Node}

/-- Where a node starts. -/
def offset (n : Node) : Nat := n.label.position.offset

theorem offset_le_stop (n : Node) : n.offset ≤ n.stop := Nat.le_add_right ..

/-! ### Rows from one offset to another -/

/-- The trees of a row lie one after the other between two offsets. -/
def Spans (shown : Bool) : Nat → List Node → Nat → Prop
  | a, [], b => Gap shown a b
  | a, n :: ns, b => Gap shown a n.offset ∧ Spans shown n.stop ns b

theorem Spans.of_gap (hgap : Gap shown a b) (h : Spans shown b ns c) : Spans shown a ns c := by
  cases ns with
  | nil => exact hgap.trans h
  | cons n ns => exact ⟨hgap.trans h.1, h.2⟩

theorem Spans.le : ∀ {ns : List Node} {a : Nat}, Spans shown a ns b → a ≤ b
  | [], _, h => h.1
  | n :: _, _, h => Nat.le_trans h.1.1 (Nat.le_trans n.offset_le_stop (Spans.le h.2))

theorem Spans.of_le_gap : ∀ {ns : List Node} {a : Nat}, Spans shown a ns b → Gap shown b c →
    Spans shown a ns c
  | [], _, h, hgap => h.trans hgap
  | _ :: _, _, h, hgap => ⟨h.1, h.2.of_le_gap hgap⟩

theorem spans_append : ∀ {xs ys : List Node} {a : Nat},
    Spans shown a (xs ++ ys) b ↔ ∃ c, Spans shown a xs c ∧ Spans shown c ys b
  | [], _, a => ⟨fun h => ⟨a, Gap.refl shown a, h⟩, fun ⟨_, hgap, h⟩ => h.of_gap hgap⟩
  | n :: xs, ys, a => by
    rw [List.cons_append, Spans, spans_append]
    constructor
    · rintro ⟨hgap, c, hxs, hys⟩
      exact ⟨c, ⟨hgap, hxs⟩, hys⟩
    · rintro ⟨c, ⟨hgap, hxs⟩, hys⟩
      exact ⟨hgap, c, hxs, hys⟩

/-- A row starts where its first tree does. -/
theorem Spans.first (h : Spans shown a (n :: ns) b) : Spans shown n.offset (n :: ns) b :=
  ⟨Gap.refl shown _, h.2⟩

/-- Neighbours lie one after the other. -/
theorem Spans.isChain : ∀ {ns : List Node} {a : Nat}, Spans shown a ns b →
    ns.IsChain fun m n => Gap shown m.stop n.offset
  | [], _, _ => .nil
  | [_], _, _ => .singleton _
  | _ :: _ :: _, _, h => .cons_cons h.2.1 (Spans.isChain h.2)

/-- Trees that lie one after the other span what is from the first to the last. -/
theorem spans_of_isChain :
    ∀ {ns : List Node} {n : Node}, (n :: ns).IsChain (fun m n => Gap shown m.stop n.offset) →
    ∀ last ∈ (n :: ns).getLast?, Spans shown n.offset (n :: ns) last.stop
  | [], n, _, last, hlast => by
    cases hlast
    exact ⟨Gap.refl shown _, Gap.refl shown _⟩
  | m :: ns, n, h, last, hlast => by
    cases h with
    | cons_cons hgap h =>
      rw [List.getLast?_cons_cons] at hlast
      exact ⟨Gap.refl shown _, (spans_of_isChain h last hlast).of_gap hgap⟩

/-! ### Trees that fit a source -/

/-- A node lies in a source as its children do: it spans a piece of the source, which is what a leaf
stands for; an inner node starts with its first child and ends with its last one, its children lie
one after the other, and without children it has no length. -/
structure Fits (source : String) (shown : Bool) (n : Node) : Prop where
  piece : ∃ before inside after, before ++ inside ++ after = source ∧
    n.label.position = .counted before ∧
    n.label.length = inside.utf8ByteSize ∧ ∀ text ∈ n.label.value, text = inside
  leaf : n.isLeaf = true → n.children = []
  first : ∀ c ∈ n.children.head?, n.label.position = c.label.position
  last : ∀ c ∈ n.children.getLast?, n.stop = c.stop
  siblings : n.children.IsChain fun c d => Gap shown c.stop d.offset
  childless : n.isLeaf = false → n.children = [] → n.label.length = 0

/-- An inner node spans what its children do. -/
theorem Fits.spans (h : Fits source shown n) (hinner : n.isLeaf = false) :
    Spans shown n.offset n.children n.stop := by
  cases hcs : n.children with
  | nil =>
    rw [stop, h.childless hinner hcs]
    exact Gap.refl shown _
  | cons first rest =>
    have hsiblings := h.siblings
    rw [hcs] at hsiblings
    obtain ⟨last, hlast⟩ : ∃ last, (first :: rest).getLast? = some last :=
      ⟨_, List.getLast?_eq_some_getLast (by simp)⟩
    have hspans := spans_of_isChain hsiblings last hlast
    rw [h.last last (by rw [hcs]; exact hlast), offset, h.first first (by rw [hcs]; rfl)]
    exact hspans

theorem Fits.place (h : Fits source shown n) : n.label.position.IsIn source := by
  obtain ⟨before, inside, after, hsource, hposition, -⟩ := h.piece
  exact ⟨before, inside ++ after, by rw [← String.append_assoc, hsource], hposition⟩

/-- The trees of a row fit the source and lie one after the other between two offsets. -/
structure Placed (source : String) (shown : Bool) (a : Nat) (ns : List Node) (b : Nat) : Prop where
  fits : ∀ m ∈ preorderAll ns, Fits source shown m
  spans : Spans shown a ns b

theorem Placed.of_gap (h : Placed source shown b ns c) (hgap : Gap shown a b) :
    Placed source shown a ns c :=
  ⟨h.fits, h.spans.of_gap hgap⟩

theorem Placed.of_le_gap (h : Placed source shown a ns b) (hgap : Gap shown b c) :
    Placed source shown a ns c :=
  ⟨h.fits, h.spans.of_le_gap hgap⟩

theorem placed_nil : Placed source shown a [] b ↔ Gap shown a b :=
  ⟨fun h => h.spans, fun h => ⟨by simp, h⟩⟩

theorem placed_append {xs ys : List Node} : Placed source shown a (xs ++ ys) b ↔
    ∃ c, Placed source shown a xs c ∧ Placed source shown c ys b := by
  constructor
  · rintro ⟨hfits, hspans⟩
    rw [preorderAll_append, List.forall_mem_append] at hfits
    obtain ⟨c, hxs, hys⟩ := spans_append.1 hspans
    exact ⟨c, ⟨hfits.1, hxs⟩, ⟨hfits.2, hys⟩⟩
  · rintro ⟨c, hxs, hys⟩
    refine ⟨?_, spans_append.2 ⟨c, hxs.spans, hys.spans⟩⟩
    rw [preorderAll_append, List.forall_mem_append]
    exact ⟨hxs.fits, hys.fits⟩

theorem placed_singleton : Placed source shown a [n] b ↔ Fits source shown n ∧
    (∀ m ∈ preorderAll n.children, Fits source shown m) ∧ Gap shown a n.offset ∧
    Gap shown n.stop b := by
  constructor
  · rintro ⟨hfits, hgap, hgap'⟩
    rw [preorderAll_singleton, preorder_eq, List.forall_mem_cons] at hfits
    exact ⟨hfits.1, hfits.2, hgap, hgap'⟩
  · rintro ⟨hn, hbelow, hgap, hgap'⟩
    refine ⟨?_, hgap, hgap'⟩
    rw [preorderAll_singleton, preorder_eq, List.forall_mem_cons]
    exact ⟨hn, hbelow⟩

/-- The children of an inner node are placed where it is. -/
theorem Placed.children (h : Placed source shown a [n] b) (hinner : n.isLeaf = false) :
    Placed source shown a n.children b := by
  obtain ⟨hn, hbelow, hgap, hgap'⟩ := placed_singleton.1 h
  exact ⟨hbelow, ((hn.spans hinner).of_gap hgap).of_le_gap hgap'⟩

/-- A leaf of a piece of the source. -/
theorem placed_leaf {before after text : String} (hsource : before ++ text ++ after = source)
    (hvalue : n.label.value = some text) (hposition : n.label.position = .counted before)
    (hlength : n.label.length = text.utf8ByteSize) (hchildren : n.children = []) :
    Placed source shown n.offset [n] (n.label.position.after text).offset := by
  have hfits : Fits source shown n := by
    refine ⟨⟨before, text, after, hsource, hposition, hlength, ?_⟩, fun _ => hchildren,
      ?_, ?_, ?_, ?_⟩
    · rw [hvalue]
      rintro _ ⟨⟩
      rfl
    · simp [hchildren]
    · simp [hchildren]
    · simp [hchildren]
    · intro hinner
      rw [isLeaf, hvalue] at hinner
      cases hinner
  refine placed_singleton.2 ⟨hfits, by simp [hchildren], Gap.refl shown _, ?_⟩
  rw [Position.offset_after, stop, hlength]
  exact Gap.refl shown _

/-! ### Inner nodes over a row -/

/-- What a row spans, from its first tree to its last one, is a piece of the source. -/
theorem Placed.exists_piece {first last : Node} {rest : List Node}
    (h : Placed source shown a (first :: rest) b) (hlast : (first :: rest).getLast? = some last) :
    ∃ length, last.stop = first.offset + length ∧
      ∃ before inside after, before ++ inside ++ after = source ∧
        first.label.position = .counted before ∧ length = inside.utf8ByteSize := by
  have hspans := spans_of_isChain h.spans.isChain last hlast
  obtain ⟨before, _, after, hsource, hposition, -⟩ :=
    (h.fits first (mem_preorderAll List.mem_cons_self)).piece
  obtain ⟨before', inside', after', hsource', hposition', hlength', -⟩ :=
    (h.fits last (mem_preorderAll (List.mem_of_getLast? hlast))).piece
  have hoffset : first.offset = before.utf8ByteSize := by rw [offset, hposition]; rfl
  have hstop : last.stop = (before' ++ inside').utf8ByteSize := by
    rw [stop, hposition', hlength', String.utf8ByteSize_append]
    rfl
  have hle := hspans.le
  rw [hoffset, hstop] at hle
  obtain ⟨inside, hinside⟩ :=
    exists_between (by rw [hsource', ← String.append_assoc, hsource]) hle
  refine ⟨inside.utf8ByteSize, ?_,
    before, inside, after', by rw [← hinside, hsource'], hposition, rfl⟩
  rw [hstop, hinside, String.utf8ByteSize_append, hoffset]

/-- An inner node that takes its span from a row is placed where the row is; over no row it has to
be placed by itself. -/
theorem Placed.updateSpan {l : Label} (h : Placed source shown a cs b) (hvalue : l.value = none)
    (hempty : cs = [] → Placed source shown a [.mk l []] b) :
    Placed source shown a [(Node.mk l cs).updateSpan] b := by
  cases hcs : cs with
  | nil =>
    have hsame : (Node.mk l []).updateSpan = .mk l [] := by rw [Node.updateSpan, hvalue]; rfl
    rw [hsame]
    exact hempty hcs
  | cons first rest =>
    rw [hcs] at h
    obtain ⟨last, hlast⟩ : ∃ last, (first :: rest).getLast? = some last :=
      ⟨_, List.getLast?_eq_some_getLast (by simp)⟩
    obtain ⟨length, hlength, before, inside, after, hsource, hposition, hsize⟩ :=
      h.exists_piece hlast
    have hspan : (Node.mk l (first :: rest)).updateSpan =
        .mk { l with position := first.label.position, length } (first :: rest) := by
      have hlen : last.stop - first.label.position.offset = length := by
        rw [hlength]
        exact Nat.add_sub_cancel_left ..
      simp only [Node.updateSpan, hvalue, List.head?_cons, hlast, hlen]
    rw [hspan]
    have hstop :
        (Node.mk { l with position := first.label.position, length } (first :: rest)).stop =
        last.stop :=
      hlength.symm
    refine placed_singleton.2 ⟨⟨⟨before, inside, after, hsource, hposition, hsize, ?_⟩, ?_, ?_, ?_,
      h.spans.isChain, ?_⟩, h.fits, h.spans.1, ?_⟩
    · rw [label, hvalue]
      rintro _ ⟨⟩
    · rw [isLeaf, label, hvalue]
      rintro ⟨⟩
    · rintro _ ⟨⟩
      rfl
    · intro c hc
      obtain rfl : last = c := Option.some.inj (hlast.symm.trans hc)
      exact hstop
    · exact fun _ hnil => absurd (show first :: rest = [] from hnil) (List.cons_ne_nil first rest)
    · rw [hstop]
      obtain ⟨init, hinit⟩ := List.getLast?_eq_some_iff.1 hlast
      have hspans := h.spans
      rw [hinit] at hspans
      obtain ⟨_, -, -, hgap⟩ := spans_append.1 hspans
      exact hgap

/-- An inner node over a row is placed where the row is, if the place that it has without children
is where the row starts. -/
theorem Placed.branch (h : Placed source shown a cs b) {p : Position} (hp : p.IsIn source)
    (ha : p.offset = a) (symbol : String) (id : SymbolId) (collapsed : Bool)
    (substituteFor : Option String) :
    Placed source shown a [.branch symbol id collapsed substituteFor p cs] b := by
  refine h.updateSpan rfl fun hcs => ?_
  rw [hcs, placed_nil] at h
  obtain ⟨before, after, hsource, rfl⟩ := hp
  subst ha
  have hpiece : before ++ "" ++ after = source := by rw [String.append_empty, hsource]
  exact placed_singleton.2 ⟨⟨⟨before, "", after, hpiece, rfl, rfl, nofun⟩, nofun, nofun, nofun,
    .nil, fun _ _ => rfl⟩, by simp [Node.children], Gap.refl shown _, h⟩

/-! ### Texts -/

/-- Where all of the input is shown, the leaves of a row spell what it spans. -/
theorem Placed.exists_textOf :
    ∀ {ns : List Node} {before rest : String} {b : Nat}, before ++ rest = source →
    Placed source true before.utf8ByteSize ns b →
      ∃ after, rest = textOf ns ++ after ∧ (before ++ textOf ns).utf8ByteSize = b
  | [], before, rest, _, _, h => ⟨rest, by simp, by simpa using (placed_nil.1 h).2 rfl⟩
  | .mk l cs :: ns, before, rest, b, hsource, h => by
    obtain ⟨c, hn, hns⟩ := placed_append.1 (show Placed source true _ ([.mk l cs] ++ ns) b from h)
    obtain ⟨hfits, -, hgap, hgap'⟩ := placed_singleton.1 hn
    obtain ⟨before', inside, after, hpiece, hposition, hlength, hvalue⟩ := hfits.piece
    have hoffset : (Node.mk l cs).offset = before'.utf8ByteSize := by rw [offset, hposition]; rfl
    rw [String.append_assoc, ← hsource] at hpiece
    -- nothing is before the node, so the rest begins with the piece that it spans
    obtain ⟨rfl, rfl⟩ := append_inj_of_size hpiece (by rw [← hoffset, ← hgap.2 rfl])
    rw [← String.append_assoc] at hsource
    have hstop : (Node.mk l cs).stop = (before' ++ inside).utf8ByteSize := by
      rw [String.utf8ByteSize_append, ← hoffset, ← hlength]
      rfl
    have htext : textOf [.mk l cs] = inside := by
      cases hleaf : (Node.mk l cs).isLeaf with
      | true =>
        obtain ⟨text, htext⟩ := Option.isSome_iff_exists.1 hleaf
        rw [textOf, leavesOf_leaf hleaf, hfits.leaf hleaf, leavesOf_nil, List.map_singleton, htext]
        simpa using hvalue text htext
      | false =>
        have hbelow : Placed source true _ cs c := hn.children hleaf
        rw [← hgap'.2 rfl] at hbelow
        -- the children spell a beginning of the rest too, and it is as long as the piece
        obtain ⟨after', hrest, hsize⟩ := exists_textOf (String.append_assoc .. ▸ hsource) hbelow
        rw [hstop, String.utf8ByteSize_append, String.utf8ByteSize_append] at hsize
        rw [textOf, leavesOf_inner hleaf]
        exact (append_inj_of_size hrest.symm (Nat.add_left_cancel hsize)).1
    rw [← hgap'.2 rfl, hstop] at hns
    obtain ⟨after', hrest, hsize⟩ := exists_textOf hsource hns
    have happend : textOf (.mk l cs :: ns) = inside ++ textOf ns := by
      rw [textOf, leavesOf_cons, List.map_append, String.join_append]
      exact congrArg (· ++ textOf ns) htext
    exact ⟨after', by rw [happend, hrest, String.append_assoc],
      by rw [happend, ← String.append_assoc, hsize]⟩
termination_by ns => sizeOf ns

/-- Where all of the input is shown, a node spans the text of its leaves. -/
theorem Placed.exists_sourceText (h : Placed source true a ns b) (hn : n ∈ preorderAll ns) :
    ∃ before after, before ++ n.sourceText ++ after = source ∧ n.label.position = .counted before ∧
      n.label.length = n.sourceText.utf8ByteSize := by
  have hfits := h.fits n hn
  obtain ⟨before, inside, after, hsource, hposition, hlength, -⟩ := hfits.piece
  have hoffset : n.offset = before.utf8ByteSize := by rw [offset, hposition]; rfl
  have hplaced : Placed source true before.utf8ByteSize [n] n.stop := by
    refine placed_singleton.2
      ⟨hfits, fun m hm => ?_, by rw [hoffset]; exact Gap.refl .., Gap.refl ..⟩
    refine h.fits m (mem_preorderAll_of_mem ?_ ns hn)
    rw [preorder_eq]
    exact List.mem_cons_of_mem _ hm
  rw [String.append_assoc] at hsource
  obtain ⟨after', hrest, hsize⟩ := Placed.exists_textOf hsource hplaced
  rw [← sourceText_eq] at hrest hsize
  refine ⟨before, after', by rw [String.append_assoc, ← hrest, hsource], hposition, ?_⟩
  rw [String.utf8ByteSize_append, stop,
    show n.label.position.offset = before.utf8ByteSize from hoffset] at hsize
  exact (Nat.add_left_cancel hsize).symm

end Node

/-! ### The nodes of the builder -/

namespace Builder

open Node (Placed placed_append placed_singleton preorderAll)

variable {t : Tables} {shape : Shape} {cs : List Node} {p : Position}

/-- The children of collapsed nodes are placed where the nodes were. -/
theorem placed_splice : ∀ {cs : List Node} {a : Nat}, Placed source shown a cs b →
    Placed source shown a (splice cs) b
  | [], _, h => h
  | n :: rest, a, h => by
    rw [splice_eq_flatMap, List.flatMap_cons, ← splice_eq_flatMap]
    obtain ⟨c, hn, hrest⟩ := placed_append.1 (show Placed source shown a ([n] ++ rest) b from h)
    refine placed_append.2 ⟨c, ?_, placed_splice hrest⟩
    split
    · next hdissolves =>
      rw [dissolves, Bool.and_eq_true, Bool.not_eq_true'] at hdissolves
      exact hn.children hdissolves.2
    · exact hn

theorem placed_wrap (h : Placed source shown a cs b) (hp : p.IsIn source) (ha : p.offset = a)
    (s : SymbolId) :
    Placed source shown a [wrap t shape s p cs] b := by
  rw [wrap]
  refine Placed.branch ?_ hp ha _ _ _ _
  split
  · exact placed_splice h
  · exact h

theorem placed_ruleNode (h : Placed source shown a cs b) (hp : p.IsIn source) (ha : p.offset = a)
    (rule : RuleId) :
    Placed source shown a [ruleNode t shape rule p cs] b := by
  rw [ruleNode]
  split
  · exact placed_wrap h hp ha _
  · split
    · split
      · exact h
      · exact placed_wrap h hp ha _
    · exact placed_wrap h hp ha _

/-- The tree of a row is placed where the row is. -/
theorem placed_finish {nodes : List Node} {root : Node} (h : Placed source shown 0 nodes b)
    (hroot : finish t shape p nodes = some root) : Placed source shown 0 [root] b := by
  have hne := (children_ne_nil_of_finish hroot).2
  rw [root_of_finish hroot] at hne ⊢
  rcases @root_cases t shape p nodes with
    ⟨-, before, core, after, hnodes, hcore, -, -, ⟨rfl, rfl, heq⟩ | heq⟩ | ⟨-, heq⟩
  · rw [heq]
    rw [hnodes, List.nil_append, List.append_nil] at h
    exact h
  · rw [heq, absorb, Node.children_updateSpan] at hne
    rw [hnodes, placed_append] at h
    obtain ⟨d, hfront, hafter⟩ := h
    obtain ⟨c, hbefore, hcore'⟩ := placed_append.1 hfront
    rw [heq, absorb]
    -- the new children are the trees of the row, with those of the core in its place
    refine Placed.updateSpan ?_ (Option.isSome_eq_false_iff.1 hcore |> Option.isNone_iff_eq_none.1)
      fun hnil =>
      absurd hnil hne
    exact placed_append.2 ⟨d, placed_append.2 ⟨c, hbefore, hcore'.children hcore⟩, hafter⟩
  · rw [heq] at hne ⊢
    rw [wrap_of_children t.start p .start hne]
    exact placed_wrap h ⟨"", source, String.empty_append, rfl⟩ rfl t.start

end Builder

end TableParser
