import TableParser.Proofs.Grammar.Loading
import TableParser.Proofs.Script.Termination
/-!
Trees keep the source.

While hidden tokens are shown, every token that an engine passes is reported, alone or within an
error, and the builder keeps what is reported in the leaves. So after every read the leaves spell
the source up to the token at hand, and a tree whose document was not given up spells all of it,
whatever is wrong with the source.

Main statement: `Engine.source_kept`.
-/

namespace TableParser

open Node (leavesOf textOf)

variable {t : Tables}

/-- The leaves of some events spell what the events carry. -/
theorem Builder.join_leafOf (shape : Shape) (events : List Event) :
    String.join ((events.flatMap (leafOf t shape)).map fun n => n.label.value.getD "") =
      String.join (events.map fun ev => ev.value?.getD "") := by
  induction events with
  | nil => rfl
  | cons ev events ih =>
    have hleaf : String.join ((leafOf t shape ev).map fun n => n.label.value.getD "") =
        ev.value?.getD "" := by
      cases ev <;> simp [leafOf, leaf, errorLeaf, Event.value?, Node.label]
    rw [List.flatMap_cons, List.map_append, String.join_append, ih, hleaf, List.map_cons,
      String.join_cons]

/-- A tree spells what its events carry; without a tree they carry nothing. -/
theorem Builder.sourceText_build (shape : Shape) (events : List Event) :
    (build t shape events).elim "" Node.sourceText =
      String.join (events.map fun ev => ev.value?.getD "") := by
  have helim : (build t shape events).elim "" Node.sourceText =
      textOf (build t shape events).toList := by
    cases build t shape events with
    | none => exact Node.textOf_nil.symm
    | some n => exact Node.sourceText_eq n
  rw [helim, textOf, leavesOf_build, join_leafOf]

namespace Engine

variable {strategy : Strategy} {source : String} {e : Engine}

/-- What the first reads have reported, when hidden tokens are shown, is the source up to the token
at hand. -/
theorem source_of_reads (ends : TokenStream.EndsLast t)
    (h : Engine.start t strategy true source = .ok e) (n : Nat) :
    String.join ((e.events t n).map fun ev => ev.value?.getD "") ++
        String.join ((e.reads t n).machine.input.ahead.map Token.text) = source ∧
      (String.join ((e.events t n).map fun ev => ev.value?.getD "")).utf8ByteSize =
        (e.reads t n).position.offset := by
  obtain ⟨hinput, hshow, -⟩ := start_eq h
  obtain ⟨hlast, hjoin⟩ := ends.join_ofSource source
  obtain ⟨ts, hpass, -, htext⟩ := passes_reads (t := t) (e := e) (by rw [hinput, hlast]) n
  rw [htext hshow, ← hjoin, ← hinput]
  refine ⟨by rw [hpass.1, List.map_append, String.join_append], ?_⟩
  have hchain := TokenStream.ofSource_chain t source
  rw [← hinput, hpass.1, ← hpass.2] at hchain
  obtain ⟨p, hts, hahead⟩ := hchain.split
  rw [position, TokenStream.position_current hahead, hts.offset_eq]
  exact (Nat.zero_add _).symm

/-- The events of a document that was not given up carry the whole source. -/
theorem source_of_endsAfter (ends : TokenStream.EndsLast t)
    (h : Engine.start t strategy true source = .ok e) {n : Nat} (hn : EndsAfter t n e)
    (hgives : ∀ k < n, ¬ (e.reads t k).machine.GivesUp t true) :
    String.join ((e.events t n).map fun ev => ev.value?.getD "") = source := by
  have hsource := (source_of_reads ends h (n + 1)).1
  rw [ahead_of_endsAfter h hn hgives, events_of_endsAfter hn, List.map_append,
    String.join_append] at hsource
  simpa [Event.value?] using hsource

/-- With hidden tokens shown, the leaves of the trees that a builder holds after any number of reads
spell the source up to the token at hand. So at the end of a document that was not given up the tree
spells the whole source, and without a tree the source is empty. -/
theorem source_kept {a : Asset} (hload : a.load = .ok t)
    (hends : ∀ st ∈ t.automaton.states, st.accept ≠ some t.endOfStream)
    (h : Engine.start t strategy true source = .ok e) (shape : Shape) :
    (∀ n, ∃ text rest, text ++ rest = source ∧ text.utf8ByteSize = (e.reads t n).position.offset ∧
      textOf ((e.events t n).foldl (Builder.feed t shape) {}).nodes.toList = text) ∧
    (∀ n, EndsAfter t n e → (∀ k < n, ¬ (e.reads t k).machine.GivesUp t true) →
      (Builder.build t shape (e.events t n)).elim "" Node.sourceText = source) ∧
    ((e.parse t shape).2.ended = true → (∀ k, ¬ (e.reads t k).machine.GivesUp t true) →
      (e.parse t shape).1.elim "" Node.sourceText = source) := by
  obtain ⟨-, -, hcheck, rfl⟩ := Asset.load_eq_ok.1 hload
  have ends : TokenStream.EndsLast a.tables := ⟨Tables.error_ne_endOfStream hcheck, hends⟩
  refine ⟨fun n => ?_, fun n hn hgives => ?_, fun hend hgives => ?_⟩
  · obtain ⟨hsource, hoffset⟩ := source_of_reads ends h n
    refine ⟨_, _, hsource, hoffset, ?_⟩
    rw [textOf, Builder.leavesOf_foldl_feed, ← Builder.join_leafOf]
    rfl
  · rw [Builder.sourceText_build]
    exact source_of_endsAfter ends h hn hgives
  · obtain ⟨n, hn, -, htree⟩ := parse_ended hend
    rw [htree, Builder.sourceText_build]
    exact source_of_endsAfter ends h hn fun k _ => hgives k

theorem source_kept_broken :
    ∃ e, Engine.start Script.tables .shiftReduce true Script.broken = .ok e ∧
    (e.parse Script.tables {}).1.elim "" Node.sourceText = Script.broken := by
  obtain ⟨e, he⟩ : ∃ e, Engine.start Script.tables .shiftReduce true Script.broken = .ok e :=
    ⟨_, rfl⟩
  have hreach := Reachable.start he
  obtain ⟨n, hn, hlimit⟩ := Script.endsAfter_of_reachable hreach
  refine ⟨e, he, (source_kept Script.load_asset Script.endsLast.2 he {}).2.2 ?_ ?_⟩
  · rw [Engine.parse, run_eq hn hlimit]
    exact hn.1
  · exact fun k => Script.not_givesUp_of_reachable (hreach.reads k) true

end Engine

end TableParser
