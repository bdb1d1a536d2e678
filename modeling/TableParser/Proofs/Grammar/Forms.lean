import TableParser.Grammar.Asset.Bytes
import TableParser.Proofs.Grammar.RoundTrip
import TableParser.Proofs.Json.Record
import TableParser.Proofs.Json.Value
/-!
The two forms of a grammar.

Every part of a grammar is read back from the JSON value that it is written as: a record leaves a
field out only where it has the value that a missing field stands for, so nothing is lost. The
values are plain, so their texts are read back too. With the compact form read back as well, both
forms of loaded tables load as these tables.

    tables  ──▶  written grammar  ──▶  JSON value  ──▶  text without blanks, or with one item a line
                                  ──▶  compact bytes

Main statement: `Tables.forms_agree`.
-/

namespace TableParser

open Json (given asList? asPair? asChar? asList?_map fields?_given required_ofOption withDefault_ite
  withDefault_map optional_map isPlain_record isPlain_given isPlain_map)
open Json.Field (withDefault)

/-! ### Numbers and names -/

section Numbers

@[simp] theorem SymbolId.ofJson?_toJson (s : SymbolId) : SymbolId.ofJson? s.toJson = some s := by
  have hnat : Json.asNat? 65536 s.toJson = some s.index := Json.asNat?_nat s.val.toNat_lt
  rw [SymbolId.ofJson?, hnat, Option.map_some, SymbolId.ofNat_index]

@[simp] theorem RuleId.ofJson?_toJson (r : RuleId) : RuleId.ofJson? r.toJson = some r := by
  have hnat : Json.asNat? 65536 r.toJson = some r.index := Json.asNat?_nat r.val.toNat_lt
  rw [RuleId.ofJson?, hnat, Option.map_some]
  exact congrArg (fun n => some (RuleId.mk n)) UInt16.ofNat_toNat

@[simp] theorem wordOfJson?_wordToJson (n : UInt32) : wordOfJson? (wordToJson n) = some n := by
  have hnat : Json.asNat? 4294967296 (wordToJson n) = some n.toNat := Json.asNat?_nat n.toNat_lt
  rw [wordOfJson?, hnat, Option.map_some]
  exact congrArg some UInt32.ofNat_toNat

@[simp] theorem SymbolKind.ofJson?_toJson (k : SymbolKind) :
    SymbolKind.ofJson? k.toJson = some k := by
  cases k <;> rfl

end Numbers

/-! ### Symbols and rules -/

@[simp] theorem Attributes.ofJson?_toJson (a : Attributes) :
    Attributes.ofJson? a.toJson = some a := by
  have htexts : Json.asTexts? a.toJson = some a.entries := by
    rw [Attributes.toJson, Json.record, Json.asTexts?, List.map_map,
      Json.mapM_map_eq_some (g := fun p => p) fun _ _ => ?pair, List.map_id']
    case pair => rfl
  rw [Attributes.ofJson?, htexts, Option.map_some, Compact.ofList_entries]

theorem Attributes.eq_empty (a : Attributes) (h : a.entries.isEmpty = true) : a = .empty := by
  obtain ⟨entries, sorted⟩ := a
  cases List.isEmpty_iff.1 h
  rfl

/-- The fields of a symbol that are left out are those that have their default. -/
theorem GrammarSymbol.toJson_eq (s : GrammarSymbol) : s.toJson = .record (given
    [("name", some (.text s.name)), ("kind", some s.kind.toJson),
     ("attributes", if s.attributes.entries.isEmpty then none else some s.attributes.toJson),
     ("substitute", s.substitute.map SymbolId.toJson),
     ("collapsed", if s.collapsed then some (.bool true) else none)]) := by
  obtain ⟨name, kind, attributes, substitute, collapsed⟩ := s
  by_cases hattributes : attributes.entries.isEmpty = true <;>
    cases substitute <;> cases collapsed <;> simp [toJson, hattributes]

@[simp] theorem GrammarSymbol.ofJson?_toJson (s : GrammarSymbol) :
    GrammarSymbol.ofJson? s.toJson = some s := by
  have hattributes := withDefault_ite s.attributes.ofJson?_toJson s.attributes.eq_empty
  have hsubstitute :=
    withDefault_map (fun _ => Json.noConfusion) SymbolId.ofJson?_toJson s.substitute
  have hcollapsed :
      withDefault false Json.asBool? (.ofOption (if s.collapsed then some (.bool true) else none)) =
        some s.collapsed := by
    cases s.collapsed <;> rfl
  rw [ofJson?, toJson_eq, fields?_given fieldNames _ rfl (by decide)]
  simp only [List.map_cons, List.map_nil, required_ofOption, Json.asText?_text,
    SymbolKind.ofJson?_toJson, hattributes, hsubstitute, hcollapsed, Option.bind_eq_bind,
    Option.bind_some]
  rfl

@[simp] theorem Rule.ofJson?_toJson (r : Rule) : Rule.ofJson? r.toJson = some r := by
  have hjson : r.toJson = .record (given [("lhs", some r.lhs.toJson),
    ("rhs", some (.array (r.rhs.map SymbolId.toJson)))]) := rfl
  have hrhs := asList?_map (l := r.rhs) fun s _ => SymbolId.ofJson?_toJson s
  rw [ofJson?, hjson, fields?_given ["lhs", "rhs"] _ rfl (by decide)]
  simp [hrhs]

/-! ### The character automaton -/

@[simp] theorem Edge.ofJson?_toJson (e : Edge) : Edge.ofJson? e.toJson = some e := by
  obtain ⟨ranges, hjson, hranges⟩ : ∃ ranges,
      e.toJson = .record (given [("ranges", some ranges), ("target", some (wordToJson e.target))]) ∧
      asList? (asPair? asChar? asChar?) ranges = some e.ranges :=
    ⟨_, rfl, asList?_map fun r _ => by simp [asPair?]⟩
  rw [ofJson?, hjson, fields?_given ["ranges", "target"] _ rfl (by decide)]
  simp [hranges]

theorem AutomatonState.toJson_eq (s : AutomatonState) : s.toJson = .record (given
    [("accept", s.accept.map SymbolId.toJson),
     ("edges", some (.array (s.edges.map Edge.toJson)))]) := by
  obtain ⟨accept, edges⟩ := s
  cases accept <;> rfl

@[simp] theorem AutomatonState.ofJson?_toJson (s : AutomatonState) :
    AutomatonState.ofJson? s.toJson = some s := by
  have haccept := withDefault_map (fun _ => Json.noConfusion) SymbolId.ofJson?_toJson s.accept
  have hedges := asList?_map (l := s.edges) fun e _ => Edge.ofJson?_toJson e
  rw [ofJson?, toJson_eq, fields?_given ["accept", "edges"] _ rfl (by decide)]
  simp [haccept, hedges]

@[simp] theorem Automaton.ofJson?_toJson (a : Automaton) : Automaton.ofJson? a.toJson = some a := by
  have hjson : a.toJson = .record (given [("initial", some (wordToJson a.initial)),
    ("states", some (.array (a.states.toList.map AutomatonState.toJson)))]) := rfl
  have hstates := asList?_map (l := a.states.toList) fun s _ => AutomatonState.ofJson?_toJson s
  rw [ofJson?, hjson, fields?_given ["initial", "states"] _ rfl (by decide)]
  simp [hstates]

theorem BlockEnd.toJson_eq (b : BlockEnd) : b.toJson = .record (given
    [("symbol", some b.symbol.toJson), ("terminator", some (.text b.terminator)),
     ("escape", b.escape.map fun c => .text c.toString)]) := by
  obtain ⟨symbol, terminator, escape⟩ := b
  cases escape <;> rfl

@[simp] theorem BlockEnd.ofJson?_toJson (b : BlockEnd) : BlockEnd.ofJson? b.toJson = some b := by
  have hescape :=
    withDefault_map (fun _ => Json.noConfusion) (fun c => Json.asChar?_singleton c) b.escape
  rw [ofJson?, toJson_eq, fields?_given ["symbol", "terminator", "escape"] _ rfl (by decide)]
  simp [hescape]

/-! ### The parse tables -/

@[simp] theorem Prediction.ofJson?_toJson (p : Prediction) :
    Prediction.ofJson? p.toJson = some p := by
  simp [toJson, ofJson?]

@[simp] theorem Prediction.listOfJson?_listToJson (l : List Prediction) :
    listOfJson? (listToJson l) = some l := by
  have hjson : listToJson l = .record (given [("entries", some (.array (l.map toJson)))]) := rfl
  rw [listOfJson?, hjson, fields?_given ["entries"] _ rfl (by decide)]
  exact asList?_map fun p _ => ofJson?_toJson p

@[simp] theorem Action.ofJson?_toJson (a : Action) : Action.ofJson? a.toJson = some a := by
  cases a with
  | shift target => exact congrArg (Option.map Action.shift) (wordOfJson?_wordToJson target)
  | reduce rule => exact congrArg (Option.map Action.reduce) (RuleId.ofJson?_toJson rule)
  | accept => rfl

@[simp] theorem StateRow.ofJson?_toJson (r : StateRow) : StateRow.ofJson? r.toJson = some r := by
  obtain ⟨actions, gotos, hjson, hactions, hgotos⟩ : ∃ actions gotos,
      r.toJson = .record (given [("actions", some actions), ("gotos", some gotos)]) ∧
      asList? (asPair? SymbolId.ofJson? Action.ofJson?) actions = some r.actions ∧
      asList? (asPair? SymbolId.ofJson? wordOfJson?) gotos = some r.gotos :=
    ⟨_, _, rfl, asList?_map fun q _ => by simp [asPair?], asList?_map fun q _ => by simp [asPair?]⟩
  rw [ofJson?, hjson, fields?_given ["actions", "gotos"] _ rfl (by decide)]
  simp [hactions, hgotos]

@[simp] theorem ShiftReduceAsset.ofJson?_toJson (sr : ShiftReduceAsset) :
    ShiftReduceAsset.ofJson? sr.toJson = some sr := by
  have hjson : sr.toJson = .record (given [("initial", some (wordToJson sr.initial)),
    ("states", some (.array (sr.states.map StateRow.toJson)))]) := rfl
  have hstates := asList?_map (l := sr.states) fun r _ => StateRow.ofJson?_toJson r
  rw [ofJson?, hjson, fields?_given ["initial", "states"] _ rfl (by decide)]
  simp [hstates]

/-! ### Grammars -/

namespace Asset

theorem toJson_eq (a : Asset) : a.toJson = .record (given
    [("format", some (.text a.format)), ("version", some (wordToJson a.version)),
     ("name", some (.text a.name)), ("start_symbol", some a.start.toJson),
     ("end_of_stream", some a.endOfStream.toJson), ("error", some a.error.toJson),
     ("symbols", some (.array (a.symbols.map GrammarSymbol.toJson))),
     ("rules", some (.array (a.rules.map Rule.toJson))), ("dfa", some a.automaton.toJson),
     ("block_ends", some (.array (a.blockEnds.map BlockEnd.toJson))),
     ("ll", a.prediction.map Prediction.listToJson),
     ("lalr", a.shiftReduce.map ShiftReduceAsset.toJson)]) := by
  rw [toJson]
  cases a.prediction <;> cases a.shiftReduce <;> rfl

/-- A written grammar is read back from its value. -/
theorem ofJson?_toJson (a : Asset) : ofJson? a.toJson = some a := by
  have hsymbols := asList?_map (l := a.symbols) fun s _ => GrammarSymbol.ofJson?_toJson s
  have hrules := asList?_map (l := a.rules) fun r _ => Rule.ofJson?_toJson r
  have hblockEnds := asList?_map (l := a.blockEnds) fun b _ => BlockEnd.ofJson?_toJson b
  have hprediction :=
    optional_map (fun _ => Json.noConfusion) Prediction.listOfJson?_listToJson a.prediction
  have hshiftReduce :=
    optional_map (fun _ => Json.noConfusion) ShiftReduceAsset.ofJson?_toJson a.shiftReduce
  rw [ofJson?, toJson_eq, fields?_given fieldNames _ rfl (by decide)]
  simp [hsymbols, hrules, hblockEnds, hprediction, hshiftReduce]

end Asset

/-! ### Plain values -/

section Plain

theorem SymbolId.isPlain_toJson (s : SymbolId) : s.toJson.IsPlain := .nat _

theorem RuleId.isPlain_toJson (r : RuleId) : r.toJson.IsPlain := .nat _

theorem isPlain_wordToJson (n : UInt32) : (wordToJson n).IsPlain := .nat _

theorem Attributes.isPlain_toJson (a : Attributes) : a.toJson.IsPlain :=
  isPlain_record (List.forall_mem_map.2 fun p _ => .text p.2)

theorem GrammarSymbol.isPlain_toJson (s : GrammarSymbol) : s.toJson.IsPlain := by
  rw [toJson_eq]
  refine isPlain_given ?_
  simp [SymbolKind.toJson, s.attributes.isPlain_toJson, SymbolId.isPlain_toJson]

theorem Rule.isPlain_toJson (r : Rule) : r.toJson.IsPlain :=
  isPlain_record (by simp [SymbolId.isPlain_toJson, isPlain_map])

theorem Edge.isPlain_toJson (e : Edge) : e.toJson.IsPlain := by
  have hranges :
      ∀ r : Char × Char, Json.IsPlain (.array [.text r.1.toString, .text r.2.toString]) :=
    fun r => .array (by simp)
  exact isPlain_record (List.forall_mem_cons.2 ⟨isPlain_map fun r _ => hranges r,
    List.forall_mem_singleton.2 (isPlain_wordToJson e.target)⟩)

theorem AutomatonState.isPlain_toJson (s : AutomatonState) : s.toJson.IsPlain := by
  rw [toJson_eq]
  exact isPlain_given (by simp [SymbolId.isPlain_toJson, isPlain_map, Edge.isPlain_toJson])

theorem Automaton.isPlain_toJson (a : Automaton) : a.toJson.IsPlain :=
  isPlain_record (List.forall_mem_cons.2 ⟨isPlain_wordToJson a.initial,
    List.forall_mem_singleton.2 (isPlain_map fun s _ => s.isPlain_toJson)⟩)

theorem BlockEnd.isPlain_toJson (b : BlockEnd) : b.toJson.IsPlain := by
  rw [toJson_eq]
  exact isPlain_given (by simp [SymbolId.isPlain_toJson])

theorem Prediction.isPlain_listToJson (l : List Prediction) : (listToJson l).IsPlain := by
  have hentry : ∀ p : Prediction, p.toJson.IsPlain :=
    fun p => .array (by simp [SymbolId.isPlain_toJson, RuleId.isPlain_toJson])
  exact isPlain_record (List.forall_mem_singleton.2 (isPlain_map fun p _ => hentry p))

theorem Action.isPlain_toJson (a : Action) : a.toJson.IsPlain := by
  cases a with
  | shift target => exact isPlain_record (List.forall_mem_singleton.2 (isPlain_wordToJson target))
  | reduce rule => exact isPlain_record (List.forall_mem_singleton.2 rule.isPlain_toJson)
  | accept => exact .text _

theorem StateRow.isPlain_toJson (r : StateRow) : r.toJson.IsPlain := by
  have haction : ∀ q : SymbolId × Action, Json.IsPlain (.array [q.1.toJson, q.2.toJson]) :=
    fun q => .array (by simp [SymbolId.isPlain_toJson, Action.isPlain_toJson])
  have hgoto : ∀ q : SymbolId × StateId, Json.IsPlain (.array [q.1.toJson, wordToJson q.2]) :=
    fun q => .array (by simp [SymbolId.isPlain_toJson, isPlain_wordToJson])
  exact isPlain_record (List.forall_mem_cons.2 ⟨isPlain_map fun q _ => haction q,
    List.forall_mem_singleton.2 (isPlain_map fun q _ => hgoto q)⟩)

theorem ShiftReduceAsset.isPlain_toJson (sr : ShiftReduceAsset) : sr.toJson.IsPlain :=
  isPlain_record (List.forall_mem_cons.2 ⟨isPlain_wordToJson sr.initial,
    List.forall_mem_singleton.2 (isPlain_map fun r _ => r.isPlain_toJson)⟩)

theorem Asset.isPlain_toJson (a : Asset) : a.toJson.IsPlain := by
  rw [toJson_eq]
  refine isPlain_given ?_
  simp [SymbolId.isPlain_toJson, isPlain_wordToJson, isPlain_map, GrammarSymbol.isPlain_toJson,
    Rule.isPlain_toJson, Automaton.isPlain_toJson, BlockEnd.isPlain_toJson,
    Prediction.isPlain_listToJson, ShiftReduceAsset.isPlain_toJson]

end Plain

/-! ### Loading -/

namespace Tables

/-- Tables that were loaded, from a written grammar or from bytes of either form. -/
inductive Loaded (t : Tables) : Prop
  | asset {a : Asset} : a.load = .ok t → Loaded t
  | json {source : List UInt8} : loadJson source = .ok t → Loaded t
  | compact {source : List UInt8} : Compact.decode source = .ok t → Loaded t
  | bytes {source : List UInt8} : loadBytes source = .ok t → Loaded t

/-- The JSON texts of tables: without blanks, and with one item a line. -/
def texts (t : Tables) : List String := [t.toJson.compactText, t.toJson.prettyText]

section Loading

variable {a : Asset} {t : Tables} {bytes : List UInt8}

theorem exists_load_of_loadJson (h : loadJson bytes = .ok t) : ∃ a : Asset, a.load = .ok t := by
  rw [loadJson] at h
  split at h
  · next a _ => exact ⟨a, h⟩
  · cases h

theorem exists_load_of_decode (h : Compact.decode bytes = .ok t) : ∃ a : Asset, a.load = .ok t := by
  obtain ⟨⟨a, rest⟩, -, hload⟩ := bind_eq_ok.1 h
  exact ⟨a, hload⟩

/-- Whatever tables were loaded from, a grammar was checked. -/
theorem Loaded.exists_load (h : t.Loaded) : ∃ a : Asset, a.load = .ok t := by
  cases h with
  | asset h => exact ⟨_, h⟩
  | json h => exact exists_load_of_loadJson h
  | compact h => exact exists_load_of_decode h
  | bytes h =>
    rw [loadBytes] at h
    split at h
    · exact exists_load_of_decode h
    · exact exists_load_of_loadJson h

/-- The texts of tables are read as what the tables write. -/
theorem parse?_of_mem_texts {text : String} (h : text ∈ t.texts) :
    Json.parse? (Utf8.encode text) = some t.toJson := by
  have hplain : t.toJson.IsPlain := (Asset.ofTables t).isPlain_toJson
  obtain rfl | rfl : text = t.toJson.compactText ∨ text = t.toJson.prettyText := by
    simpa [texts] using h
  · exact Json.parse?_compactText hplain
  · exact Json.parse?_prettyText hplain

/-- No JSON text starts with the mark of the compact form. -/
theorem isCompact_of_parse? {v : Json} (h : Json.parse? bytes = some v) :
    isCompact bytes = false := by
  refine Bool.eq_false_iff.2 fun hmagic => ?_
  obtain ⟨rest, rfl⟩ := List.isPrefixOf_iff_prefix.1 hmagic
  cases h

theorem isCompact_of_encode (h : Compact.encode t = .ok bytes) : isCompact bytes = true := by
  obtain ⟨name, -, _, -, _, -, _, -, _, -, _, -, _, -, _, -, _, -, _, -, _, -, rfl⟩ :=
    Compact.encodeAsset_eq_ok.1 h
  simp only [isCompact, List.append_assoc]
  exact List.isPrefixOf_iff_prefix.2 (List.prefix_append ..)

/-- A JSON text of loaded tables loads as the tables. -/
theorem loadJson_of_mem_texts {text : String} (h : a.load = .ok t) (htext : text ∈ t.texts) :
    loadJson (Utf8.encode text) = .ok t := by
  rw [loadJson, parse?_of_mem_texts htext, Option.bind_some, toJson, Asset.ofJson?_toJson]
  exact Asset.load_ofTables h

/-- A JSON text of loaded tables loads as the tables. So do both forms where there is a compact one,
and so the compact form of what is loaded is the same for both. -/
theorem forms_agree (h : t.Loaded) :
    (∀ text ∈ t.texts, loadJson (Utf8.encode text) = .ok t ∧ loadBytes (Utf8.encode text) = .ok t) ∧
    ∀ bytes, Compact.encode t = .ok bytes → ∀ form ∈ bytes :: t.texts.map Utf8.encode,
      loadBytes form = .ok t ∧ (loadBytes form >>= Compact.encode) = .ok bytes := by
  obtain ⟨a, hload⟩ := h.exists_load
  have htexts : ∀ text ∈ t.texts, loadBytes (Utf8.encode text) = .ok t := by
    intro text htext
    rw [loadBytes, isCompact_of_parse? (parse?_of_mem_texts htext)]
    exact loadJson_of_mem_texts hload htext
  refine ⟨fun text htext => ⟨loadJson_of_mem_texts hload htext, htexts text htext⟩,
    fun bytes hbytes => ?_⟩
  have hcompact : loadBytes bytes = .ok t := by
    rw [loadBytes, isCompact_of_encode hbytes]
    exact Compact.decode_encode hload hbytes
  have hforms : ∀ form ∈ bytes :: t.texts.map Utf8.encode, loadBytes form = .ok t :=
    List.forall_mem_cons.2 ⟨hcompact, List.forall_mem_map.2 htexts⟩
  exact fun form hform => ⟨hforms form hform, by rw [hforms form hform]; exact hbytes⟩

end Loading

end Tables

/-- Both forms of the settings language load as its tables. -/
theorem Script.forms_agree_tables : tables.Loaded ∧
    (∀ text ∈ tables.texts, Tables.loadBytes (Utf8.encode text) = .ok tables) ∧
    ∃ bytes, Compact.encode tables = .ok bytes ∧ Tables.loadBytes bytes = .ok tables := by
  have hloaded : tables.Loaded := .asset load_asset
  obtain ⟨htexts, hforms⟩ := Tables.forms_agree hloaded
  obtain ⟨bytes, hbytes⟩ := (Compact.exists_encode load_asset).2 bounded_tables
  exact ⟨hloaded, fun text htext => (htexts text htext).2, bytes, hbytes,
    (hforms bytes hbytes bytes List.mem_cons_self).1⟩

end TableParser
