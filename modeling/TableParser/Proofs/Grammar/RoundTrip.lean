import TableParser.Grammar.Asset.Bytes
import TableParser.Proofs.Grammar.Compact
import TableParser.Proofs.Grammar.Consistency
/-!
Tables written in the compact form and loaded again.

Tables that loaded are written down as a grammar that loads as the same tables, and the compact form
of that grammar is read back as it is. There is a compact form whenever the counts of the tables fit
the widths they are written in (`Tables.Bounded`). Tables that come from a compact form always fit:
their counts were read in these widths, and putting lists into tables makes none of them longer.

Each part of the form tells how long it is before it comes, so the form needs no mark at its end: a
beginning of it is never taken for another form, and what follows it is left alone.

Main statements: `Compact.round_trip` and `Compact.self_delimiting`.
-/

namespace TableParser

/-! ### Counts that fit -/

/-- The length of the text in bytes fits 32 bits. -/
def TextFits (s : String) : Prop := s.utf8ByteSize < 4294967296

/-- The texts of a symbol and the number of its attributes fit. -/
def SymbolFits (s : GrammarSymbol) : Prop :=
  TextFits s.name ∧ s.attributes.entries.length ≤ 65535 ∧
    ∀ p ∈ s.attributes.entries, TextFits p.1 ∧ TextFits p.2

/-- The numbers of the edges and of the ranges of an automaton state fit. -/
def StateFits (s : AutomatonState) : Prop :=
  s.edges.length ≤ 65535 ∧ ∀ e ∈ s.edges, e.ranges.length ≤ 65535

/-- Tables whose counts fit the widths of the compact form. -/
structure Tables.Bounded (t : Tables) : Prop where
  name : TextFits t.name
  symbols : ∀ sym ∈ t.symbols, SymbolFits sym
  rules_size : t.rules.size < 4294967296
  rules : ∀ r ∈ t.rules, r.rhs.length ≤ 65535
  states_size : t.automaton.states.size < 4294967296
  states : ∀ st ∈ t.automaton.states, StateFits st
  terminators : ∀ b ∈ t.blockEndList, TextFits b.terminator
  rows_size : ∀ sr ∈ t.shiftReduce, sr.states < 4294967296

/-! ### What is written -/

namespace Compact

theorem exists_putLength16 {n : Nat} (count : String) :
    (∃ x, putLength16 n count = .ok x) ↔ n ≤ 65535 := by
  simp only [putLength16_eq_ok, exists_and_left, exists_eq', and_true]
  omega

theorem exists_putLength32 {n : Nat} (count : String) :
    (∃ x, putLength32 n count = .ok x) ↔ n < 4294967296 := by
  simp only [putLength32_eq_ok, exists_and_left, exists_eq', and_true]

theorem exists_putText {s : String} : (∃ x, putText s = .ok x) ↔ TextFits s := by
  simp only [putText_eq_ok, exists_and_left, exists_eq', and_true, Utf8.length_encode, TextFits]

theorem exists_putEach {α : Type} {put : α → Except TableError (List UInt8)} {items : List α} :
    (∃ x, putEach put items = .ok x) ↔ ∀ a ∈ items, ∃ x, put a = .ok x := by
  induction items with
  | nil => simp [putEach_nil]
  | cons a items ih =>
    rw [List.forall_mem_cons, ← ih]
    simp only [putEach_cons_eq_ok]
    constructor
    · rintro ⟨_, x, hx, y, hy, -⟩
      exact ⟨⟨x, hx⟩, y, hy⟩
    · rintro ⟨⟨x, hx⟩, y, hy⟩
      exact ⟨_, x, hx, y, hy, rfl⟩

theorem exists_putAttribute {p : String × String} :
    (∃ x, putAttribute p = .ok x) ↔ TextFits p.1 ∧ TextFits p.2 := by
  rw [← exists_putText, ← exists_putText]
  simp only [putAttribute_eq_ok]
  constructor
  · rintro ⟨_, x, hx, y, hy, -⟩
    exact ⟨⟨x, hx⟩, y, hy⟩
  · rintro ⟨⟨x, hx⟩, y, hy⟩
    exact ⟨_, x, hx, y, hy, rfl⟩

theorem exists_putGrammarSymbol {s : GrammarSymbol} :
    (∃ x, putGrammarSymbol s = .ok x) ↔ SymbolFits s := by
  have hattributes : (∀ p ∈ s.attributes.entries, TextFits p.1 ∧ TextFits p.2) ↔
      ∃ x, putEach putAttribute s.attributes.entries = .ok x := by
    simp only [exists_putEach, exists_putAttribute]
  rw [SymbolFits, hattributes, ← exists_putText, ← exists_putLength16 "attribute count"]
  simp only [putGrammarSymbol_eq_ok]
  constructor
  · rintro ⟨_, name, hname, count, hcount, attributes, hattributes, -⟩
    exact ⟨⟨name, hname⟩, ⟨count, hcount⟩, attributes, hattributes⟩
  · rintro ⟨⟨name, hname⟩, ⟨count, hcount⟩, attributes, hattributes⟩
    exact ⟨_, name, hname, count, hcount, attributes, hattributes, rfl⟩

theorem exists_putRule {r : Rule} : (∃ x, putRule r = .ok x) ↔ r.rhs.length ≤ 65535 := by
  rw [← exists_putLength16 "rule length"]
  simp only [putRule_eq_ok]
  constructor
  · rintro ⟨_, count, hcount, -⟩
    exact ⟨count, hcount⟩
  · rintro ⟨count, hcount⟩
    exact ⟨_, count, hcount, rfl⟩

theorem exists_putEdge {e : Edge} : (∃ x, putEdge e = .ok x) ↔ e.ranges.length ≤ 65535 := by
  rw [← exists_putLength16 "DFA range count"]
  simp only [putEdge_eq_ok]
  constructor
  · rintro ⟨_, count, hcount, -⟩
    exact ⟨count, hcount⟩
  · rintro ⟨count, hcount⟩
    exact ⟨_, count, hcount, rfl⟩

theorem exists_putAutomatonState {s : AutomatonState} :
    (∃ x, putAutomatonState s = .ok x) ↔ StateFits s := by
  have hedges : (∀ e ∈ s.edges, e.ranges.length ≤ 65535) ↔
      ∃ x, putEach putEdge s.edges = .ok x := by
    simp only [exists_putEach, exists_putEdge]
  rw [StateFits, hedges, ← exists_putLength16 "DFA edge count"]
  simp only [putAutomatonState_eq_ok]
  constructor
  · rintro ⟨_, count, hcount, edges, hedges, -⟩
    exact ⟨⟨count, hcount⟩, edges, hedges⟩
  · rintro ⟨⟨count, hcount⟩, edges, hedges⟩
    exact ⟨_, count, hcount, edges, hedges, rfl⟩

theorem exists_putBlockEnd {b : BlockEnd} :
    (∃ x, putBlockEnd b = .ok x) ↔ TextFits b.terminator := by
  rw [← exists_putText]
  simp only [putBlockEnd_eq_ok]
  constructor
  · rintro ⟨_, terminator, hterminator, -⟩
    exact ⟨terminator, hterminator⟩
  · rintro ⟨terminator, hterminator⟩
    exact ⟨_, terminator, hterminator, rfl⟩

theorem exists_putStateRow {r : StateRow} :
    (∃ x, putStateRow r = .ok x) ↔ r.actions.length ≤ 65535 ∧ r.gotos.length ≤ 65535 := by
  rw [← exists_putLength16 "LALR(1) action count", ← exists_putLength16 "LALR(1) goto count"]
  simp only [putStateRow_eq_ok]
  constructor
  · rintro ⟨_, actions, hactions, gotos, hgotos, -⟩
    exact ⟨⟨actions, hactions⟩, gotos, hgotos⟩
  · rintro ⟨⟨actions, hactions⟩, gotos, hgotos⟩
    exact ⟨_, actions, hactions, gotos, hgotos, rfl⟩

theorem exists_putPredictionPart {ps : Option (List Prediction)} :
    (∃ x, putPredictionPart ps = .ok x) ↔ ∀ l ∈ ps, l.length < 4294967296 := by
  cases ps with
  | none => exact ⟨fun _ l hl => (by cases hl), fun _ => ⟨_, rfl⟩⟩
  | some l =>
    simp only [Option.mem_some_iff, forall_eq', ← exists_putLength32 "LL(1) entry count",
      putPredictionPart_some_eq_ok]
    constructor
    · rintro ⟨_, count, hcount, -⟩
      exact ⟨count, hcount⟩
    · rintro ⟨count, hcount⟩
      exact ⟨_, count, hcount, rfl⟩

theorem exists_putShiftReducePart {sr : Option ShiftReduceAsset} :
    (∃ x, putShiftReducePart sr = .ok x) ↔ ∀ s ∈ sr, s.states.length < 4294967296 ∧
      ∀ row ∈ s.states, row.actions.length ≤ 65535 ∧ row.gotos.length ≤ 65535 := by
  cases sr with
  | none => exact ⟨fun _ l hl => (by cases hl), fun _ => ⟨_, rfl⟩⟩
  | some s =>
    simp only [Option.mem_some_iff, forall_eq', ← exists_putLength32 "LALR(1) state count",
      ← exists_putStateRow, ← exists_putEach, putShiftReducePart_some_eq_ok]
    constructor
    · rintro ⟨_, count, hcount, states, hstates, -⟩
      exact ⟨⟨count, hcount⟩, states, hstates⟩
    · rintro ⟨⟨count, hcount⟩, states, hstates⟩
      exact ⟨_, count, hcount, states, hstates, rfl⟩

/-- A grammar has a compact form when each of its counts fits the width that it is written in. -/
theorem exists_encodeAsset {a : Asset} : (∃ x, encodeAsset a = .ok x) ↔
    TextFits a.name ∧
    a.symbols.length < 4294967296 ∧ (∀ sym ∈ a.symbols, SymbolFits sym) ∧
    a.rules.length < 4294967296 ∧ (∀ r ∈ a.rules, r.rhs.length ≤ 65535) ∧
    a.automaton.states.size < 4294967296 ∧ (∀ st ∈ a.automaton.states, StateFits st) ∧
    a.blockEnds.length ≤ 65535 ∧ (∀ b ∈ a.blockEnds, TextFits b.terminator) ∧
    (∀ l ∈ a.prediction, l.length < 4294967296) ∧
    ∀ s ∈ a.shiftReduce, s.states.length < 4294967296 ∧
      ∀ row ∈ s.states, row.actions.length ≤ 65535 ∧ row.gotos.length ≤ 65535 := by
  have hsymbols : (∀ sym ∈ a.symbols, SymbolFits sym) ↔
      ∃ x, putEach putGrammarSymbol a.symbols = .ok x := by
    simp only [exists_putEach, exists_putGrammarSymbol]
  have hrules : (∀ r ∈ a.rules, r.rhs.length ≤ 65535) ↔ ∃ x, putEach putRule a.rules = .ok x := by
    simp only [exists_putEach, exists_putRule]
  have hstates : (∀ st ∈ a.automaton.states, StateFits st) ↔
      ∃ x, putEach putAutomatonState a.automaton.states.toList = .ok x := by
    simp only [exists_putEach, exists_putAutomatonState, Array.mem_toList_iff]
  have hblockEnds : (∀ b ∈ a.blockEnds, TextFits b.terminator) ↔
      ∃ x, putEach putBlockEnd a.blockEnds = .ok x := by
    simp only [exists_putEach, exists_putBlockEnd]
  rw [hsymbols, hrules, hstates, hblockEnds, ← exists_putText, ← exists_putLength32 "symbol count",
    ← exists_putLength32 "rule count", ← exists_putLength32 "DFA state count",
    ← exists_putLength16 "block-end count", ← exists_putPredictionPart, ← exists_putShiftReducePart]
  simp only [encodeAsset_eq_ok]
  constructor
  · rintro ⟨_, name, h1, symbolCount, h2, symbols, h3, ruleCount, h4, rules, h5, stateCount, h6,
      states, h7, blockEndCount, h8, blockEnds, h9, predictions, h10, shiftReduce, h11, -⟩
    exact ⟨⟨name, h1⟩, ⟨symbolCount, h2⟩, ⟨symbols, h3⟩, ⟨ruleCount, h4⟩, ⟨rules, h5⟩,
      ⟨stateCount, h6⟩, ⟨states, h7⟩, ⟨blockEndCount, h8⟩, ⟨blockEnds, h9⟩, ⟨predictions, h10⟩,
      shiftReduce, h11⟩
  · rintro ⟨⟨name, h1⟩, ⟨symbolCount, h2⟩, ⟨symbols, h3⟩, ⟨ruleCount, h4⟩, ⟨rules, h5⟩,
      ⟨stateCount, h6⟩, ⟨states, h7⟩, ⟨blockEndCount, h8⟩, ⟨blockEnds, h9⟩, ⟨predictions, h10⟩,
      shiftReduce, h11⟩
    exact ⟨_, name, h1, symbolCount, h2, symbols, h3, ruleCount, h4, rules, h5, stateCount, h6,
      states, h7, blockEndCount, h8, blockEnds, h9, predictions, h10, shiftReduce, h11, rfl⟩

/-! ### What is read -/

/-- What a reader gives, if it gives anything, has a property. -/
def Gives {α : Type} (r : Reader α) (P : α → Prop) : Prop :=
  ∀ bytes a rest, r bytes = .ok (a, rest) → P a

section Gives

variable {α β : Type} {r : Reader α} {P : α → Prop} {Q : β → Prop} {f : α → Reader β}

theorem gives_true : Gives r fun _ => True :=
  fun _ _ _ _ => trivial

theorem gives_pure {b : β} (h : Q b) : Gives (pure b : Reader β) Q := by
  intro bytes a rest hread
  cases hread
  exact h

theorem gives_throw {e : TableError} : Gives (throw e : Reader β) Q := by
  intro bytes a rest hread
  cases hread

theorem Gives.bind (hr : Gives r P) (hf : ∀ a, P a → Gives (f a) Q) : Gives (r >>= f) Q := by
  intro bytes b rest hread
  change (r bytes >>= fun p => f p.1 p.2) = _ at hread
  obtain ⟨⟨a, rest'⟩, ha, hb⟩ := bind_eq_ok.1 hread
  exact hf a (hr _ _ _ ha) _ _ _ hb

/-- A reader whose result does not matter for what comes after it. -/
theorem gives_of_bind (hf : ∀ a, Gives (f a) Q) : Gives (r >>= f) Q :=
  gives_true.bind fun a _ => hf a

theorem gives_getMany (h : Gives r P) (n : Nat) :
    Gives (getMany n r) fun l => l.length = n ∧ ∀ a ∈ l, P a := by
  induction n with
  | zero => exact gives_pure ⟨rfl, by simp⟩
  | succ n ih =>
    rw [getMany_succ]
    refine h.bind fun a ha => ih.bind fun l hl => gives_pure ⟨?_, ?_⟩
    · rw [List.length_cons, hl.1]
    · exact List.forall_mem_cons.2 ⟨ha, hl.2⟩

theorem gives_getList16 {count : String} (h : Gives r P) :
    Gives (getList16 count r) fun l => l.length ≤ 65535 ∧ ∀ a ∈ l, P a := by
  refine gives_of_bind fun n bytes l rest hread => ?_
  obtain ⟨hlen, hall⟩ := gives_getMany h n.toNat _ _ _ hread
  have hlt : n.toNat < 65536 := n.toNat_lt
  exact ⟨by omega, hall⟩

theorem gives_getList32 {count : String} (h : Gives r P) :
    Gives (getList32 count r) fun l => l.length < 4294967296 ∧ ∀ a ∈ l, P a := by
  refine gives_of_bind fun n bytes l rest hread => ?_
  obtain ⟨hlen, hall⟩ := gives_getMany h n.toNat _ _ _ hread
  have hlt : n.toNat < 4294967296 := n.toNat_lt
  exact ⟨by omega, hall⟩

end Gives

theorem gives_take {n : Nat} {part : String} : Gives (take n part) fun l => l.length ≤ n := by
  intro bytes l rest hread
  rw [take] at hread
  split at hread
  · cases hread
  · cases hread
    exact List.length_take_le ..

theorem gives_getText {part : String} : Gives (getText part) TextFits := by
  refine gives_of_bind fun n => gives_take.bind fun bytes hlen => ?_
  have hlt : n.toNat < 4294967296 := n.toNat_lt
  cases hs : Utf8.decode bytes with
  | error f => exact gives_throw
  | ok s =>
    refine gives_pure ?_
    rw [TextFits, ← Utf8.length_encode, Utf8.decode_eq_ok.1 hs]
    omega

/-- An insertion makes a list longer by at most the new pair. -/
theorem length_insertPair_le (key value : String) : ∀ l : List (String × String),
    (insertPair key value l).length ≤ l.length + 1
  | [] => Nat.le_refl _
  | (k, v) :: rest => by
    have ih := length_insertPair_le key value rest
    rw [insertPair]
    split
    · exact Nat.le_refl _
    · split <;> simp only [List.length_cons] <;> omega

theorem mem_insertPair {key value : String} {p : String × String} :
    ∀ {l : List (String × String)}, p ∈ insertPair key value l → p = (key, value) ∨ p ∈ l
  | [], h => .inl (List.mem_singleton.1 h)
  | (k, v) :: rest, h => by
    rw [insertPair] at h
    split at h
    · exact List.mem_cons.1 h
    · split at h
      · exact (List.mem_cons.1 h).imp_right (List.mem_cons_of_mem _)
      · rcases List.mem_cons.1 h with h | h
        · exact .inr (h ▸ List.mem_cons_self)
        · exact (mem_insertPair h).imp_right (List.mem_cons_of_mem _)

/-- Attributes are no more than the pairs they are made of. -/
theorem entries_ofList (l : List (String × String)) :
    (Attributes.ofList l).entries.length ≤ l.length ∧
      ∀ p ∈ (Attributes.ofList l).entries, p ∈ l := by
  have hfold : ∀ (l : List (String × String)) (acc : Attributes),
      (l.foldl (fun a p => a.insert p.1 p.2) acc).entries.length ≤ acc.entries.length + l.length ∧
        ∀ p ∈ (l.foldl (fun a p => a.insert p.1 p.2) acc).entries, p ∈ acc.entries ∨ p ∈ l := by
    intro l
    induction l with
    | nil => exact fun acc => ⟨Nat.le_refl _, fun p hp => .inl hp⟩
    | cons q l ih =>
      intro acc
      obtain ⟨hlen, hmem⟩ := ih (acc.insert q.1 q.2)
      have hinsert : (acc.insert q.1 q.2).entries.length ≤ acc.entries.length + 1 :=
        length_insertPair_le q.1 q.2 acc.entries
      rw [List.foldl_cons, List.length_cons]
      refine ⟨by omega, fun p hp => ?_⟩
      rcases hmem p hp with h | h
      · rcases mem_insertPair h with rfl | h
        · exact .inr List.mem_cons_self
        · exact .inl h
      · exact .inr (List.mem_cons_of_mem _ h)
  obtain ⟨hlen, hmem⟩ := hfold l .empty
  have hempty : Attributes.empty.entries.length = 0 := rfl
  rw [hempty, Nat.zero_add] at hlen
  refine ⟨hlen, fun p hp => ?_⟩
  rcases hmem p hp with h | h
  · cases h
  · exact h

theorem gives_getGrammarSymbol : Gives getGrammarSymbol SymbolFits := by
  have hattribute : Gives getAttribute fun p => TextFits p.1 ∧ TextFits p.2 :=
    gives_getText.bind fun _ hkey => gives_getText.bind fun _ hvalue => gives_pure ⟨hkey, hvalue⟩
  refine gives_getText.bind fun name hname => gives_of_bind fun kind =>
    gives_of_bind fun collapsed =>
    gives_of_bind fun substitute => (gives_getList16 hattribute).bind fun l hl => gives_pure ?_
  obtain ⟨hlen, hmem⟩ := entries_ofList l
  exact ⟨hname, Nat.le_trans hlen hl.1, fun p hp => hl.2 p (hmem p hp)⟩

theorem gives_getRule : Gives getRule fun r => r.rhs.length ≤ 65535 :=
  gives_of_bind fun _ => (gives_getList16 gives_true).bind fun _ hl => gives_pure hl.1

theorem gives_getAutomatonState : Gives getAutomatonState StateFits := by
  have hedge : Gives getEdge fun e => e.ranges.length ≤ 65535 :=
    gives_of_bind fun _ => (gives_getList16 gives_true).bind fun _ hl => gives_pure hl.1
  exact gives_of_bind fun _ => (gives_getList16 hedge).bind fun _ hl => gives_pure hl

theorem gives_getBlockEnd : Gives getBlockEnd fun b => TextFits b.terminator :=
  gives_of_bind fun _ => gives_getText.bind fun _ ht => gives_of_bind fun _ => gives_pure ht

theorem gives_getShiftReducePart :
    Gives getShiftReducePart fun sr => ∀ s ∈ sr, s.states.length < 4294967296 := by
  refine gives_of_bind fun flag => ?_
  split
  · exact gives_pure fun s hs => (by cases hs)
  · refine gives_of_bind fun initial => (gives_getList32 gives_true).bind fun l hl => gives_pure ?_
    intro s hs
    cases hs
    exact hl.1

/-- What is known of the counts of a grammar that was read from a compact form. -/
structure Counted (a : Asset) : Prop where
  name : TextFits a.name
  symbols : ∀ sym ∈ a.symbols, SymbolFits sym
  rules_length : a.rules.length < 4294967296
  rules : ∀ r ∈ a.rules, r.rhs.length ≤ 65535
  states_size : a.automaton.states.size < 4294967296
  states : ∀ st ∈ a.automaton.states, StateFits st
  terminators : ∀ b ∈ a.blockEnds, TextFits b.terminator
  rows_length : ∀ s ∈ a.shiftReduce, s.states.length < 4294967296

theorem gives_decodeAsset : Gives decodeAsset Counted := by
  refine gives_of_bind fun mark => ?_
  split
  · exact gives_throw.bind (P := fun _ => False) fun _ h => h.elim
  refine gives_of_bind fun version => gives_getText.bind fun name hname =>
    gives_of_bind fun start =>
    gives_of_bind fun endOfStream => gives_of_bind fun error =>
    (gives_getList32 gives_getGrammarSymbol).bind fun symbols hsymbols =>
    (gives_getList32 gives_getRule).bind fun rules hrules => gives_of_bind fun initial =>
    (gives_getList32 gives_getAutomatonState).bind fun states hstates =>
    (gives_getList16 gives_getBlockEnd).bind fun blockEnds hblockEnds =>
    gives_of_bind fun prediction => gives_getShiftReducePart.bind fun sr hsr => gives_pure ?_
  exact {
    name := hname
    symbols := hsymbols.2
    rules_length := hrules.1
    rules := hrules.2
    states_size := hstates.1
    states := fun st hst => hstates.2 st (List.mem_toArray.1 hst)
    terminators := hblockEnds.2
    rows_length := hsr }

end Compact

/-! ### Loaded tables -/

namespace Grid

theorem length_row_le {α : Type} (g : Grid α) (r : Nat) : (g.row r).length ≤ g.width := by
  have h :=
    List.length_filterMap_le (fun c => (g.get? r c).map fun v => (c, v)) (List.range g.width)
  rwa [List.length_range] at h

/-- A grid has at most one entry for each place. -/
theorem length_entries_le {α : Type} (g : Grid α) : g.entries.length ≤ g.rows * g.width := by
  have hsum : ∀ l : List Nat, (l.flatMap fun r => (g.row r).map fun q => (r, q.1, q.2)).length ≤
      l.length * g.width := by
    intro l
    induction l with
    | nil => simp
    | cons r l ih =>
      rw [List.flatMap_cons, List.length_append, List.length_map, List.length_cons, Nat.succ_mul]
      have := g.length_row_le r
      omega
  have h := hsum (List.range g.rows)
  rwa [List.length_range] at h

end Grid

namespace ShiftReduceTable

variable {t : ShiftReduceTable} {row : StateRow}

/-- The rows of a table have at most one entry for each of its columns. -/
theorem length_of_mem_toRows (hrow : row ∈ t.toRows) :
    row.actions.length ≤ t.actions.width ∧ row.gotos.length ≤ t.nonTerminals := by
  obtain ⟨s, -, rfl⟩ := List.mem_map.1 hrow
  rw [List.length_map, List.length_map]
  exact ⟨t.actions.length_row_le s, t.gotos.length_row_le s⟩

end ShiftReduceTable

namespace Asset

variable {a : Asset}

theorem length_blockEndList_le : a.tables.blockEndList.length ≤ a.symbols.length := by
  have hsize : a.tables.blockEnds.toList.length = a.symbols.length := size_blockEndTable ..
  rw [← hsize]
  exact List.length_filterMap_le ..

/-- The written form of tables fits into them. -/
theorem fits_ofTables (fits : a.Fits) : (ofTables a.tables).Fits where
  symbols_le := fits.symbols_le
  names_nodup := fits.names_nodup
  blockEnds := fun b hb => fits.blockEnds b ((mem_blockEndList rfl fits.blockEnds).1 hb).mem
  predictions := by
    intro ps hps p hp
    cases hprediction : a.prediction with
    | none => simp [ofTables, tables, hprediction] at hps
    | some written =>
      simp only [ofTables, tables, hprediction, Option.map_some, Option.mem_some_iff] at hps
      subst hps
      exact fits.predictions written hprediction p (PredictionTable.mem_of_mem_entries hp)
  shiftReduce := by
    intro sr hsr
    cases hshiftReduce : a.shiftReduce with
    | none => simp [ofTables, tables, hshiftReduce] at hsr
    | some written =>
      simp only [ofTables, tables, hshiftReduce, Option.map_some, Option.mem_some_iff] at hsr
      subst hsr
      refine ⟨?_, fun row hrow => ?_⟩
      · rw [ShiftReduceTable.length_toRows_ofRows]
        exact (fits.shiftReduce written hshiftReduce).1
      · rw [← symbols_add]
        exact ShiftReduceTable.columns_of_mem_toRows hrow

/-- Loaded tables load again from their written form. -/
theorem load_ofTables {t : Tables} (h : a.load = .ok t) : (ofTables t).load = .ok t := by
  obtain ⟨hheader, hshape, hcheck, rfl⟩ := load_eq_ok.1 h
  have fits := checkShape_eq_ok.1 hshape
  have htables : (ofTables a.tables).tables = a.tables :=
    tables_ofTables fits.blockEnds
  refine load_eq_ok.2 ⟨?_, checkShape_eq_ok.2 (fits_ofTables fits), by rwa [htables], htables⟩
  exact checkHeader_eq_ok.2 ⟨rfl, (checkHeader_eq_ok.1 hheader).2⟩

/-- The written form of loaded tables names no symbol by the id that stands for none. -/
theorem named_ofTables {t : Tables} (h : a.load = .ok t) : Compact.Named (ofTables t) := by
  obtain ⟨-, hshape, hcheck, rfl⟩ := load_eq_ok.1 h
  have hle : a.tables.symbols.size ≤ 65535 := (checkShape_eq_ok.1 hshape).symbols_le
  have checked := Tables.check_eq_ok.1 hcheck
  refine ⟨fun sym hsym s hs => ?_, fun st hst s hs => ?_⟩
  · exact Nat.lt_of_lt_of_le (checked.substitutes sym (Array.mem_toList_iff.1 hsym) s hs) hle
  · obtain ⟨sym, hsym, -⟩ := (checked.states st hst).1 s hs
    exact Nat.lt_of_lt_of_le (Array.getElem?_eq_some_iff.1 hsym).1 hle

end Asset

namespace Compact

/-- The LL(1) entries of loaded tables are fewer than 2^32: a prediction table has less than 2^16
rows and less than 2^16 columns. -/
theorem predictions_fit {a : Asset} (fits : a.Fits) :
    ∀ l ∈ (Asset.ofTables a.tables).prediction, l.length < 4294967296 := by
  intro l hl
  obtain ⟨p, hp, rfl⟩ := Option.map_eq_some_iff.1 hl
  obtain ⟨written, -, rfl⟩ := Option.map_eq_some_iff.1 hp
  have hle : a.symbols.length ≤ 65535 := fits.symbols_le
  have hsum := a.symbols_add
  have hentries := Grid.length_entries_le
    (PredictionTable.ofEntries a.nonTerminals a.terminals written).grid
  rw [PredictionTable.ofEntries, Grid.rows_ofEntries, Grid.width_ofEntries] at hentries
  have hcells : a.nonTerminals * a.terminals ≤ 65535 * 65535 := Nat.mul_le_mul (by omega) (by omega)
  rw [PredictionTable.entries, List.length_map]
  exact Nat.lt_of_le_of_lt (Nat.le_trans hentries hcells) (by decide)

/-- The rows of a loaded shift-reduce table have less than 2^16 actions and gotos each. -/
theorem rows_fit {a : Asset} (fits : a.Fits) : ∀ s ∈ (Asset.ofTables a.tables).shiftReduce,
    ∀ row ∈ s.states, row.actions.length ≤ 65535 ∧ row.gotos.length ≤ 65535 := by
  intro s hs row hrow
  obtain ⟨sr, hsr, rfl⟩ := Option.map_eq_some_iff.1 hs
  obtain ⟨written, -, rfl⟩ := Option.map_eq_some_iff.1 hsr
  have hle : a.symbols.length ≤ 65535 := fits.symbols_le
  have hsum := a.symbols_add
  have hlength := ShiftReduceTable.length_of_mem_toRows hrow
  rw [ShiftReduceTable.nonTerminals_ofRows, ShiftReduceTable.ofRows,
    Grid.width_ofEntries] at hlength
  omega

/-- Loaded tables have a compact form when they are bounded. -/
theorem exists_encode {a : Asset} {t : Tables} (h : a.load = .ok t) :
    (∃ bytes, encode t = .ok bytes) ↔ t.Bounded := by
  obtain ⟨-, hshape, -, rfl⟩ := Asset.load_eq_ok.1 h
  have fits := Asset.checkShape_eq_ok.1 hshape
  have hle : a.symbols.length ≤ 65535 := fits.symbols_le
  have hrows : (∀ s ∈ (Asset.ofTables a.tables).shiftReduce, s.states.length < 4294967296) ↔
      ∀ sr ∈ a.tables.shiftReduce, sr.states < 4294967296 := by
    simp [Asset.ofTables, ShiftReduceTable.length_toRows]
  rw [encode, exists_encodeAsset]
  constructor
  · rintro ⟨hname, -, hsymbols, hrulesSize, hrules, hstatesSize, hstates, -, hterminators, -, hsr⟩
    exact {
      name := hname
      symbols := fun sym hsym => hsymbols sym (Array.mem_toList_iff.2 hsym)
      rules_size := hrulesSize
      rules := fun r hr => hrules r (Array.mem_toList_iff.2 hr)
      states_size := hstatesSize
      states := hstates
      terminators := hterminators
      rows_size := hrows.1 fun s hs => (hsr s hs).1 }
  · intro hb
    have hsymbols : a.symbols.length < 4294967296 := by omega
    have hblockEnds : a.tables.blockEndList.length ≤ 65535 :=
      Nat.le_trans Asset.length_blockEndList_le hle
    exact ⟨hb.name, hsymbols, fun sym hsym => hb.symbols sym (Array.mem_toList_iff.1 hsym),
      hb.rules_size, fun r hr => hb.rules r (Array.mem_toList_iff.1 hr), hb.states_size, hb.states,
      hblockEnds, hb.terminators, predictions_fit fits,
      fun s hs => ⟨hrows.2 hb.rows_size s hs, rows_fit fits s hs⟩⟩

/-- The compact form of loaded tables is loaded as the same tables, whatever follows it. -/
theorem decode_encode {a : Asset} {t : Tables} {bytes : List UInt8} (h : a.load = .ok t)
    (hbytes : encode t = .ok bytes) : decode bytes = .ok t := by
  have hread := (reads_decodeAsset rfl (Asset.named_ofTables h) hbytes).leaves []
  rw [List.append_nil] at hread
  rw [decode, hread]
  exact Asset.load_ofTables h

/-- Tables that were loaded from a compact form are bounded. -/
theorem bounded_of_decode {bytes : List UInt8} {t : Tables} (h : decode bytes = .ok t) :
    t.Bounded := by
  obtain ⟨⟨a, rest⟩, hread, hload⟩ := bind_eq_ok.1 h
  have counted := gives_decodeAsset _ _ _ hread
  obtain ⟨-, hshape, -, rfl⟩ := Asset.load_eq_ok.1 hload
  have fits := Asset.checkShape_eq_ok.1 hshape
  exact {
    name := counted.name
    symbols := fun sym hsym => counted.symbols sym (List.mem_toArray.1 hsym)
    rules_size := counted.rules_length
    rules := fun r hr => counted.rules r (List.mem_toArray.1 hr)
    states_size := counted.states_size
    states := counted.states
    terminators := fun b hb =>
      counted.terminators b ((Asset.mem_blockEndList rfl fits.blockEnds).1 hb).mem
    rows_size := by
      intro sr hsr
      obtain ⟨written, hwritten, rfl⟩ := Option.map_eq_some_iff.1 hsr
      rw [ShiftReduceTable.states, ShiftReduceTable.ofRows, Grid.rows_ofEntries]
      exact counted.rows_length written hwritten }

/-- Bounded tables that loaded, from a written grammar, from JSON or from a compact form, have a
compact form, and it loads as the same tables. Tables loaded from a compact form are bounded. -/
theorem round_trip :
    (∀ (a : Asset) (t : Tables), a.load = .ok t → t.Bounded →
      ∃ bytes, encode t = .ok bytes ∧ decode bytes = .ok t) ∧
    (∀ (source : List UInt8) (t : Tables), Tables.loadJson source = .ok t → t.Bounded →
      ∃ bytes, encode t = .ok bytes ∧ decode bytes = .ok t) ∧
    ∀ (source : List UInt8) (t : Tables), decode source = .ok t →
      t.Bounded ∧ ∃ bytes, encode t = .ok bytes ∧ decode bytes = .ok t := by
  have hasset : ∀ (a : Asset) (t : Tables), a.load = .ok t → t.Bounded →
      ∃ bytes, encode t = .ok bytes ∧ decode bytes = .ok t := by
    intro a t hload hbounded
    obtain ⟨bytes, hbytes⟩ := (exists_encode hload).2 hbounded
    exact ⟨bytes, hbytes, decode_encode hload hbytes⟩
  refine ⟨hasset, fun source t h hbounded => ?_, fun source t h => ⟨bounded_of_decode h, ?_⟩⟩
  · rw [Tables.loadJson] at h
    split at h
    · next a ha => exact hasset a t h hbounded
    · cases h
  · obtain ⟨⟨a, rest⟩, -, hload⟩ := bind_eq_ok.1 h
    exact hasset a t hload (bounded_of_decode h)

/-- Where the bytes of a compact form end before its last part does, reading says that they are cut
off. -/
theorem decode_cut {a : Asset} {t : Tables} {front back : List UInt8} (h : a.load = .ok t)
    (hbytes : encode t = .ok (front ++ back)) (hback : back ≠ []) :
    ∃ part, decode front = .error (.truncated part) := by
  obtain ⟨part, hcut⟩ :=
    (reads_decodeAsset rfl (Asset.named_ofTables h) hbytes).cut front back rfl hback
  exact ⟨part, by rw [decode, hcut]; rfl⟩

/-- A compact form says itself where it ends. Wherever it is cut off, reading finds that out and
nothing else, before it could take some other fault in what is left, or tables, from a beginning.
What follows the form is not looked at. -/
theorem self_delimiting {a : Asset} {t : Tables} {bytes : List UInt8} (h : a.load = .ok t)
    (hbytes : encode t = .ok bytes) :
    (∀ front, front <+: bytes → front ≠ bytes → ∃ part, decode front = .error (.truncated part)) ∧
    decode bytes = .ok t ∧ ∀ extra, decode (bytes ++ extra) = decode bytes := by
  refine ⟨?_, decode_encode h hbytes, ?_⟩
  · rintro front ⟨back, rfl⟩ hne
    refine decode_cut h hbytes ?_
    rintro rfl
    exact hne (List.append_nil front).symm
  · intro extra
    have hread := reads_decodeAsset rfl (Asset.named_ofTables h) hbytes
    have hwhole := hread.leaves []
    rw [List.append_nil] at hwhole
    rw [decode, hread.leaves, decode, hwhole]
    rfl

end Compact

namespace Script

theorem bounded_tables : tables.Bounded where
  name := by unfold TextFits; decide
  symbols := by unfold SymbolFits TextFits; decide
  rules_size := by decide
  rules := by decide
  states_size := by decide
  states := by unfold StateFits; decide
  terminators := by unfold TextFits; decide
  rows_size := by
    intro sr hsr
    obtain rfl : ShiftReduceTable.ofRows 7 12 0 stateRows = sr := Option.some.inj hsr
    rw [ShiftReduceTable.states, ShiftReduceTable.ofRows, Grid.rows_ofEntries]
    decide

/-- The settings language has a compact form. -/
theorem round_trip_tables :
    ∃ bytes, Compact.encode tables = .ok bytes ∧ Compact.decode bytes = .ok tables :=
  Compact.round_trip.1 asset tables load_asset bounded_tables

/-- The compact form of the settings language, without its last byte and with one more. -/
theorem self_delimiting_tables :
    ∃ bytes, Compact.encode tables = .ok bytes ∧ bytes.dropLast ≠ bytes ∧
    (∃ part, Compact.decode bytes.dropLast = .error (.truncated part)) ∧
    Compact.decode (bytes ++ [0]) = .ok tables := by
  obtain ⟨bytes, hbytes⟩ := (Compact.exists_encode load_asset).2 bounded_tables
  obtain ⟨hcut, hwhole, hextra⟩ := Compact.self_delimiting load_asset hbytes
  have hne : bytes.dropLast ≠ bytes := by
    intro heq
    have hlength := congrArg List.length heq
    rw [List.length_dropLast] at hlength
    obtain rfl : bytes = [] := List.eq_nil_of_length_eq_zero (by omega)
    cases hwhole
  exact ⟨bytes, hbytes, hne, hcut _ bytes.dropLast_prefix hne, by rw [hextra, hwhole]⟩

end Script

end TableParser
