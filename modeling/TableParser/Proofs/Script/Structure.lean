import TableParser.Proofs.Script.Termination
import TableParser.Proofs.Tree.NodeStack
/-!
The structure of trees of the settings language.

The shift-reduce table of the settings language is closed and never shifts an error. So the
builder's row mirrors the state stack through every document, and whatever is wrong with the
document, each node of a tree has the children that a rule asks for, with hidden leaves and errors
between them.

Main statement: `reductions_exact`.
-/

namespace TableParser.Script

open ShiftReduce (Exact Mirrors Quiet)
open Node (spelled AllInner)

/-- No state does anything before an error. -/
theorem error_rows : ∀ row ∈ stateRows, ∀ q ∈ row.actions, q.1 ≠ tables.error := by
  decide

theorem quiet : Quiet tables shiftReduce where
  error := by
    intro s target h
    obtain ⟨row, hrow, hmem⟩ := ShiftReduceTable.mem_of_action? h
    exact error_rows row (List.mem_of_getElem? hrow) _ hmem rfl
  endOfStream := by decide

variable {showHidden : Bool} {source : String} {e : Engine}

/-- After any number of reads the row mirrors the stack, and every inner node in it is exact. -/
theorem mirrors_reads (h : Engine.start tables .shiftReduce showHidden source = .ok e) (n : Nat) :
    ∃ m, (e.reads tables n).machine = .shiftReduce shiftReduce m ∧
      Mirrors shiftReduce m (e.builder tables Builder.plain n) ∧
      AllInner (Exact tables) (e.builder tables Builder.plain n).nodes.toList := by
  induction n with
  | zero =>
    cases h
    exact ⟨_, rfl, ⟨⟨[], .start, rfl⟩, rfl⟩, Node.allInner_nil⟩
  | succ n ih =>
    obtain ⟨m, hm, hmirrors, hexact⟩ := ih
    have hreach := (Engine.Reachable.start h).reads n
    have hlast : m.input.last.symbol = tables.endOfStream := by
      have := (hreach.last endsLast).1
      rwa [hm] at this
    have hgives : ¬ m.GivesUp tables shiftReduce e.showHidden := by
      have := not_givesUp_of_reachable hreach e.showHidden
      rwa [hm] at this
    obtain ⟨hevent, hmachine⟩ := Engine.reads_shiftReduce hm
    rw [Engine.builder_succ, hevent]
    exact ⟨_, hmachine, ShiftReduce.mirrors_step quiet hlast hgives hmirrors,
      ShiftReduce.exact_step closed hmirrors hexact⟩

/-- Through every document, valid or not, the builder has one structural node for each state above
the initial one, and each reduction groups structural nodes that spell the right side of its rule.
So in the tree every inner node has structural children that spell the right side of a rule of its
symbol, the root left out where it was put over a whole row. -/
theorem reductions_exact (h : Engine.start tables .shiftReduce showHidden source = .ok e) :
    (∀ n, (e.builder tables Builder.plain n).nodes.toList.countP Node.isStructural + 1 =
      (e.reads tables n).machine.depth) ∧
    (∀ n rule, (e.reads tables (n + 1)).event = .reduce rule →
      ∃ r before core after node, tables.rule? rule = some r ∧
        (e.builder tables Builder.plain n).nodes.toList = before ++ core ++ after ∧
        (e.builder tables Builder.plain (n + 1)).nodes.toList = before ++ [node] ++ after ∧
        node.label.id = r.lhs ∧ node.children = core ∧
        core.countP Node.isStructural = r.rhs.length ∧ spelled core = r.rhs ∧
        ∀ n ∈ after, n.isStructural = false) ∧
    ∃ n, Engine.EndsAfter tables n e ∧
      ∀ root, parse tables .shiftReduce ⟨Builder.plain, showHidden⟩ source = .ok (some root) →
        (∀ m ∈ Node.preorderAll root.children, m.isLeaf = false → Exact tables m) ∧
        (Builder.Rooted (Builder.row tables Builder.plain (e.events tables n)) →
          Exact tables root) ∧
        (¬ Builder.Rooted (Builder.row tables Builder.plain (e.events tables n)) →
          ∃ p, root = Builder.wrap tables Builder.plain config p
            (Builder.row tables Builder.plain (e.events tables n))) := by
  refine ⟨fun n => ?_, fun n rule hevent => ?_, ?_⟩
  · obtain ⟨m, hm, hmirrors, -⟩ := mirrors_reads h n
    rw [hm]
    exact hmirrors.count
  · obtain ⟨m, hm, hmirrors, -⟩ := mirrors_reads h n
    have hstep := (Engine.reads_shiftReduce hm).1.symm.trans hevent
    obtain ⟨r, before, core, after, known, hnodes, hnew, hcount, hcore, hafter⟩ :=
      hmirrors.exact closed hstep
    rw [Engine.builder_succ, hevent]
    exact ⟨r, before, core, after, _, known, hnodes, hnew, Builder.id_wrap ..,
      Builder.children_plain .., hcount, hcore, hafter⟩
  · obtain ⟨n, hn, hlimit⟩ := endsAfter_of_reachable (.start h)
    refine ⟨n, hn, fun root hroot => ?_⟩
    rw [parse, h] at hroot
    have hroot := Except.ok.inj hroot
    rw [Engine.parse, Engine.run_eq hn hlimit] at hroot
    obtain ⟨m, -, hmirrors, hexact⟩ := mirrors_reads h n
    have hrow : Builder.row tables Builder.plain (e.events tables n) =
        (e.builder tables Builder.plain n).nodes.toList := by
      have hframes : ((e.events tables n).foldl (Builder.feed tables Builder.plain) {}).frames =
          [] :=
        hmirrors.frames
      rw [Builder.row, hframes]
      rfl
    refine Builder.allInner_build ?_ (hrow ▸ hexact) hroot
    rintro m m' hid hspelled - ⟨rule, r, known, hlhs, hrhs⟩
    exact ⟨rule, r, known, hlhs.trans hid, hspelled ▸ hrhs⟩

theorem reductions_exact_broken : ∃ e, Engine.start tables .shiftReduce true broken = .ok e ∧
    (∀ n, (e.builder tables Builder.plain n).nodes.toList.countP Node.isStructural + 1 =
      (e.reads tables n).machine.depth) ∧
    ∃ n, Engine.EndsAfter tables n e ∧
      ∀ root, parse tables .shiftReduce ⟨Builder.plain, true⟩ broken = .ok (some root) →
        ∀ m ∈ Node.preorderAll root.children, m.isLeaf = false → Exact tables m := by
  obtain ⟨e, he⟩ := exists_start .shiftReduce true broken
  obtain ⟨hcount, -, n, hn, htree⟩ := reductions_exact he
  exact ⟨e, he, hcount, n, hn, fun root hroot => (htree root hroot).1⟩

end TableParser.Script
