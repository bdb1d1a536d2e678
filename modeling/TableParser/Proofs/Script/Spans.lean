import TableParser.Proofs.Script.Agreement
import TableParser.Proofs.Script.Structure
import TableParser.Proofs.Tree.Root
/-!
The places of trees of the settings language.

Each rule of the language is empty or has a symbol that never is, so whatever is wrong with a
document, a reduction puts its node over leaves or, empty, at the end of the row. No rule of a
document is of a single symbol and every single non-terminal but a document can go on at the end of
the stream, so the root is a document:

    source    a = 1 }
    tree      Config 0..7    Statement 0..5, Error 6..7

Main statement: `tree_fits_source`.
-/

namespace TableParser.Script

open ShiftReduceTable

/-! ### The tables -/

theorem solid_numbered : ∀ q ∈ numbered, (q.2.rhs ≠ [] → ∃ x ∈ q.2.rhs, sets.nullable x = false) ∧
    (q.2.lhs = config → q.2.rhs.length ≠ 1) := by
  decide

theorem predictive_certain : Predictive.Certain tables prediction where
  start := by decide
  final := by rw [get?_eq]; decide
  length known := (solid_numbered _ (mem_numbered known)).2

theorem certain_of_prediction {table : PredictionTable} (h : tables.prediction = some table) :
    Predictive.Certain tables table := by
  obtain rfl : prediction = table := Option.some.inj h
  exact predictive_certain

/-- No state shifts a document. -/
theorem start_rows : ∀ row ∈ stateRows, ∀ q ∈ row.actions, q.1 ≠ config := by
  decide

/-- Over a single non-terminal that is no document there is something to do at the end of the
stream. -/
theorem final_arcs : ∀ e ∈ arcs stateRows, e.1 = 0 → tables.isNonTerminal e.2.1 = true →
    (writtenAction 7 12 stateRows e.2.2 eof = none ∨
      writtenAction 7 12 stateRows e.2.2 eof = some .accept) → e.2.1 = config := by
  decide

theorem shiftReduce_certain : ShiftReduce.Certain tables shiftReduce sets (arcs stateRows) where
  closed := closed
  quiet := quiet
  correct := correct
  kind known := (first_numbered _ (mem_numbered known)).1
  solid known := (solid_numbered _ (mem_numbered known)).1
  length known := (solid_numbered _ (mem_numbered known)).2
  shift {s target} h := by
    obtain ⟨row, hrow, hmem⟩ := mem_of_action? h
    exact start_rows row (List.mem_of_getElem? hrow) _ hmem rfl
  final {x s} leads hkind hend := by
    rw [action?_eq] at hend
    exact final_arcs _ (mem_arcs_of_leads leads) rfl hkind hend

theorem certain_of_shiftReduce {table : ShiftReduceTable} (h : tables.shiftReduce = some table) :
    ShiftReduce.Certain tables table sets (arcs stateRows) := by
  obtain rfl : shiftReduce = table := Option.some.inj h
  exact shiftReduce_certain

/-! ### Trees -/

variable {strategy : Strategy} {showHidden : Bool} {source : String} {e : Engine}

theorem heads_of_build (h : Engine.start tables strategy showHidden source = .ok e)
    {shape : Shape} {n : Nat} (hn : Engine.EndsAfter tables n e) {root : Node}
    (hroot : Builder.build tables shape (e.events tables n) = some root) :
    Builder.Heads tables shape root := by
  cases strategy with
  | predictive =>
    exact Engine.heads_of_predictive load_asset (fun _ => certain_of_prediction) h hn hroot
  | shiftReduce => exact Engine.heads_of_shiftReduce (fun _ => certain_of_shiftReduce) h hn hroot

theorem placed_of_build (h : Engine.start tables strategy showHidden source = .ok e)
    {shape : Shape} {n : Nat} (hn : Engine.EndsAfter tables n e) {root : Node}
    (hroot : Builder.build tables shape (e.events tables n) = some root) :
    Node.Placed source showHidden 0 [root] source.utf8ByteSize := by
  refine Engine.placed_of_build endsLast h shape (fun k rule hreduce => ?_) hn
    (fun k _ => not_givesUp_of_reachable ((Engine.Reachable.start h).reads k) showHidden) hroot
  cases strategy with
  | predictive =>
    obtain ⟨_, _, hreads⟩ := Engine.follows_reads load_asset h
    obtain ⟨m, hm, -⟩ := hreads k
    rw [(Engine.reads_predictive hm).1] at hreduce
    exact absurd hreduce (m.step_ne_reduce e.showHidden rule)
  | shiftReduce =>
    exact Engine.replaces_reads (fun _ => certain_of_shiftReduce) h shape k rule hreduce

/-- Whatever the input is, each strategy and each setting of the options gives no tree or a document
that fits the input. Every node spans a piece of the input and stands where counting what is before
it says. An inner node starts with its first child and ends with its last one, its children lie one
after the other, and without children it has no length. Where hidden tokens are shown, there is
nothing between two neighbours, so every node spans its own text and the root spans the whole
input. -/
theorem tree_fits_source (strategy : Strategy) (options : ParseOptions) (source : String) :
    ∃ tree, parse tables strategy options source = .ok tree ∧ ∀ root ∈ tree,
      (root.isLeaf = false ∧ root.label.id = config ∧ root.label.symbol = "Config") ∧
      (∀ n ∈ root.preorder, n.Fits source options.showHidden) ∧
      (options.showHidden = true →
        (∀ n ∈ root.preorder, ∃ before after, before ++ n.sourceText ++ after = source ∧
          n.label.position = .counted before ∧ n.label.length = n.sourceText.utf8ByteSize) ∧
        root.label.position.offset = 0 ∧ root.label.length = source.utf8ByteSize) := by
  obtain ⟨e, he⟩ := exists_start strategy options.showHidden source
  obtain ⟨n, hn, hlimit⟩ := endsAfter_of_reachable (.start he)
  refine ⟨(e.parse tables options.shape).1, by rw [parse, he]; rfl, fun root hroot => ?_⟩
  rw [Engine.parse, Engine.run_eq hn hlimit] at hroot
  have hheads := heads_of_build he hn hroot
  have hplaced := placed_of_build he hn hroot
  rw [← Node.preorderAll_singleton]
  refine ⟨⟨hheads.inner, hheads.id, hheads.symbol⟩, hplaced.fits, fun hshow => ?_⟩
  rw [hshow] at hplaced
  obtain ⟨-, -, hstart, hstop⟩ := Node.placed_singleton.1 hplaced
  have hoffset : root.label.position.offset = 0 := (hstart.2 rfl).symm
  refine ⟨fun n hn => hplaced.exists_sourceText hn, hoffset, ?_⟩
  have hlength := hstop.2 rfl
  rwa [Node.stop, hoffset, Nat.zero_add] at hlength

end TableParser.Script
