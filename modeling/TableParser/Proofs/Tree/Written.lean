import TableParser.Proofs.Grammar.Forms
import TableParser.Proofs.Tree.Order
import TableParser.Tree.Json
/-!
Trees read back from their JSON text.

A tree is written word by word from a list of pending pieces. The words are those of a JSON value,
in which each node is a record that leaves out what is absent, empty or false. So the text is read
as this value, and the value as the tree, as long as there is room: a level of the tree opens an
object and, where there is a level below it, an array.

    level 1     { "symbol": …, "children": [          room 127
    level 2       { "symbol": …, "children": [        room 125
    …
    level 64        { "symbol": … }                   room 1

Main statement: `json_reads_back`.
-/

namespace TableParser

open Json (given fieldPieces itemPieces asText? asBool? required_ofOption)
open Json.Field (withDefault optional ofOption)

namespace Node

/-! ### The value of a tree -/

/-- The fields of a node; what is absent, empty or false is left out. -/
def slots (l : Label) (children : List Json) : List (String × Option Json) :=
  [("symbol", some (.text l.symbol)), ("symbol_id", some l.id.toJson), ("value", l.value.map .text),
   ("children", if children.isEmpty then none else some (.array children)),
   ("is_hidden", if l.hidden then some (.bool true) else none),
   ("is_collapsed", if l.collapsed then some (.bool true) else none),
   ("is_error", if l.error then some (.bool true) else none),
   ("substitute_for", l.substituteFor.map .text), ("line", some (.nat l.position.line)),
   ("column", some (.nat l.position.column)), ("offset", some (.nat l.position.offset)),
   ("length", some (.nat l.length))]

mutual

/-- The value of a tree. -/
def toJson : Node → Json
  | mk l cs => .record (given (slots l (toJsonAll cs)))

/-- The values of several trees. -/
def toJsonAll : List Node → List Json
  | [] => []
  | n :: rest => toJson n :: toJsonAll rest

end

theorem toJsonAll_eq (ns : List Node) : toJsonAll ns = ns.map toJson := by
  induction ns with
  | nil => rw [toJsonAll, List.map_nil]
  | cons n ns ih => rw [toJsonAll, ih, List.map_cons]

theorem toJson_eq (n : Node) :
    n.toJson = .record (given (slots n.label (n.children.map toJson))) := by
  cases n
  rw [toJson, toJsonAll_eq, label, children]

/-! ### Words -/

/-- A piece of a tree as a piece of its value. -/
def Piece.toJson : Piece → Json.Piece
  | .word w => .word w
  | .node n => .value n.toJson

section Words

variable {done : List Json.Lexeme} {rest : List Json.Piece}

theorem flatten_words (ws : List Json.Lexeme) :
    Json.flatten done ((words ws).map Piece.toJson ++ rest) =
      Json.flatten (ws.reverse ++ done) rest := by
  induction ws generalizing done with
  | nil => rfl
  | cons w ws ih =>
    have hstep : Json.flatten done ((words (w :: ws)).map Piece.toJson ++ rest) =
        Json.flatten (w :: done) ((words ws).map Piece.toJson ++ rest) := by
      rw [words, List.map_cons, List.map_cons, List.cons_append, Piece.toJson, Json.flatten]
      rfl
    rw [hstep, ih, List.reverse_cons, List.append_assoc]
    rfl

theorem flatten_natSlot (name : String) (k : Nat) :
    Json.flatten done (Json.slotPieces (name, some (.nat k)) ++ rest) =
      Json.flatten ((natWords name k).reverse ++ done) rest := by
  simp [Json.slotPieces, Json.flatten, Json.nat, natWords, keyWords]

theorem flatten_textSlot (name : String) (text : Option String) :
    Json.flatten done (Json.slotPieces (name, text.map .text) ++ rest) =
      Json.flatten ((textWords name text).reverse ++ done) rest := by
  cases text <;> simp [Json.slotPieces, Json.flatten, Json.text, textWords, keyWords]

theorem flatten_flagSlot (name : String) (b : Bool) :
    Json.flatten done (Json.slotPieces (name, if b then some (.bool true) else none) ++ rest) =
      Json.flatten ((flagWords name b).reverse ++ done) rest := by
  cases b <;> simp [Json.slotPieces, Json.flatten, flagWords, keyWords]

theorem map_commaPieces :
    ∀ ns : List Node, (commaPieces ns).map Piece.toJson = itemPieces (ns.map toJson)
  | [] => rfl
  | [n] => rfl
  | n :: m :: rest => by
    have ih := map_commaPieces (m :: rest)
    have hpieces : commaPieces (n :: m :: rest) = .node n :: .word .comma ::
        commaPieces (m :: rest) := rfl
    rw [hpieces, List.map_cons, List.map_cons, ih]
    rfl

theorem flatten_childSlot (ns : List Node) :
    Json.flatten done (Json.slotPieces ("children",
      if (ns.map toJson).isEmpty then none else some (.array (ns.map toJson))) ++ rest) =
      Json.flatten done ((childPieces ns).map Piece.toJson ++ rest) := by
  cases ns with
  | nil => rfl
  | cons n ns =>
    have hpieces : childPieces (n :: ns) = words (.comma :: keyWords "children" ++ [.openArray]) ++
        commaPieces (n :: ns) ++ words [.closeArray] := rfl
    have hslot : Json.slotPieces ("children", if ((n :: ns).map toJson).isEmpty then none
        else some (.array ((n :: ns).map toJson))) ++ rest =
          .word .comma :: .word (.string (some "children")) :: .word .colon ::
            .value (.array ((n :: ns).map toJson)) :: rest := rfl
    rw [hpieces, List.map_append, List.map_append, List.append_assoc, List.append_assoc,
      flatten_words, map_commaPieces, hslot]
    simp only [Json.flatten]
    rfl

/-- The words of a node are those of its value. -/
theorem flatten_pieces (n : Node) :
    Json.flatten done (n.pieces.map Piece.toJson ++ rest) =
      Json.flatten done (.value n.toJson :: rest) := by
  have hvalue : Json.flatten done (.value n.toJson :: rest) = Json.flatten (.openObject :: done)
      (fieldPieces ((given (slots n.label (n.children.map toJson))).map fun f => (some f.1, f.2)) ++
        .word .closeObject :: rest) := by
    rw [toJson_eq, Json.record, Json.flatten]
  rw [hvalue, slots, Json.fieldPieces_given, pieces, List.map_append, List.map_append,
    List.append_assoc, List.append_assoc, flatten_words, Json.flatten_append, flatten_words]
  simp only [List.flatMap_cons, List.flatMap_nil, List.append_assoc, List.cons_append,
    List.nil_append, Json.flatten, Json.text, SymbolId.toJson, flatten_natSlot, flatten_textSlot,
    flatten_childSlot]
  have hhead : (Json.Lexeme.openObject :: headWords n.label).reverse ++ done =
      (textWords "value" n.label.value).reverse ++
        ((natWords "symbol_id" n.label.id.index).reverse ++
          Json.Lexeme.string (some n.label.symbol) :: .colon :: .string (some "symbol") ::
            .openObject :: done) := by
    simp [headWords, keyWords]
  rw [hhead, Json.flatten_append]
  simp only [Json.flatten, flatten_natSlot, flatten_textSlot, flatten_flagSlot]
  simp [tailWords]

theorem flatten_eq (done : List Json.Lexeme) (pending : List Piece) :
    flatten done pending = Json.flatten done (pending.map Piece.toJson) := by
  fun_induction flatten done pending with
  | case1 done => rw [List.map_nil, Json.flatten]
  | case2 done w rest ih => rw [ih, List.map_cons, Piece.toJson, Json.flatten]
  | case3 done n rest ih => rw [ih, List.map_append, flatten_pieces, List.map_cons, Piece.toJson]

/-- A tree has the words of its value. -/
theorem lexemes_eq (n : Node) : n.lexemes = n.toJson.lexemes := by
  rw [lexemes, flatten_eq]
  rfl

end Words

/-- The value of a tree can be written. -/
theorem isPlain_toJson (n : Node) : n.toJson.IsPlain := by
  have hsome : ∀ {v : Json}, v.IsPlain → ∀ v' ∈ some v, v'.IsPlain := by
    rintro v hv _ ⟨⟩
    exact hv
  have htext : ∀ text : Option String, ∀ v ∈ text.map Json.text, v.IsPlain := by
    rintro (_ | s) v hv
    · cases hv
    · exact hsome (.text s) v hv
  have hflag : ∀ b : Bool, ∀ v ∈ (if b then some (Json.bool true) else none), v.IsPlain := by
    rintro (_ | _) v hv
    · cases hv
    · exact hsome (.bool true) v hv
  have hchildren : ∀ v ∈ (if (n.children.map toJson).isEmpty then none
      else some (Json.array (n.children.map toJson))), v.IsPlain := by
    split
    · rintro v ⟨⟩
    · exact hsome (Json.isPlain_map fun c _ => isPlain_toJson c)
  rw [toJson_eq]
  refine Json.isPlain_given ?_
  simp only [slots, List.forall_mem_cons]
  exact ⟨hsome (.text _), hsome (.nat _), htext _, hchildren, hflag _, hflag _, hflag _, htext _,
    hsome (.nat _), hsome (.nat _), hsome (.nat _), hsome (.nat _),
    fun _ hnone => absurd hnone List.not_mem_nil⟩
termination_by sizeOf n
decreasing_by
  have hchild := List.sizeOf_lt_of_mem ‹c ∈ n.children›
  cases n with
  | mk l cs =>
    simp only [children, mk.sizeOf_spec] at hchild ⊢
    omega

/-! ### Reading -/

/-- The numbers of a label fit into the words that hold them: 32 bits for a line and a column, 64
bits for an offset and a length. -/
structure FitsWords (l : Label) : Prop where
  line : l.position.line < 0x100000000
  column : l.position.column < 0x100000000
  offset : l.position.offset < 0x10000000000000000
  length : l.length < 0x10000000000000000

/-- The fields of a node are read back, and its children as they are read. -/
theorem ofFields?_toJson (readChildren : Json → Option (List Node)) (n : Node)
    (h : FitsWords n.label) :
    ofFields? readChildren n.toJson =
      (if n.children.isEmpty then some [] else readChildren (.array (n.children.map toJson))).map
        (mk n.label) := by
  have htext : ∀ text : Option String, optional asText? (ofOption (text.map Json.text)) =
      some text :=
    Json.optional_map (fun _ => Json.noConfusion) Json.asText?_text
  have hflag :
      ∀ b : Bool, withDefault false asBool? (ofOption (if b then some (.bool true) else none)) =
        some b := by
    rintro (_ | _) <;> rfl
  have hchildren :
      withDefault [] readChildren (ofOption (if (n.children.map toJson).isEmpty then none
        else some (.array (n.children.map toJson)))) =
        if n.children.isEmpty then some [] else readChildren (.array (n.children.map toJson)) := by
    rw [List.isEmpty_map]
    split <;> rfl
  rw [ofFields?, toJson_eq, Json.fields?_given fieldNames _ rfl (by decide)]
  simp only [slots, List.map_cons, List.map_nil, required_ofOption, Json.asText?_text,
    SymbolId.ofJson?_toJson, htext, hflag, hchildren, Json.asNat?_nat h.line,
    Json.asNat?_nat h.column, Json.asNat?_nat h.offset,
    Json.asNat?_nat h.length, Option.bind_eq_bind, Option.bind_some]
  rw [Option.map_eq_bind]
  rfl

variable {n : Node} {room : Nat}

/-- A tree needs two more for its root than the trees below. -/
theorem two_mul_levels_le_iff :
    2 * n.levels ≤ room + 2 ↔ ∀ c ∈ n.children, 2 * c.levels ≤ room := by
  have hhalf : ∀ k : Nat, 2 * k ≤ room ↔ k ≤ room / 2 := by omega
  have hroot : 2 * n.levels ≤ room + 2 ↔ n.levels ≤ room / 2 + 1 := by omega
  rw [hroot, levels_le_succ_iff]
  simp only [hhalf]

/-- A node is read where there is room for its children, if it has any. -/
theorem ofFields?_of_room {readChildren : Json → Option (List Node)} (h : FitsWords n.label)
    (hread : n.children ≠ [] → readChildren (.array (n.children.map toJson)) =
      if ∀ c ∈ n.children, 2 * c.levels ≤ room then some n.children else none) :
    ofFields? readChildren n.toJson = if 2 * n.levels ≤ room + 2 then some n else none := by
  have hself : mk n.label n.children = n := by
    cases n
    rfl
  have hroom :
      (if n.children.isEmpty then some [] else readChildren (.array (n.children.map toJson))) =
      if 2 * n.levels ≤ room + 2 then some n.children else none := by
    simp only [two_mul_levels_le_iff]
    by_cases hnone : n.children = []
    · rw [hnone, List.isEmpty_nil, if_pos rfl, if_pos (List.forall_mem_nil _)]
    · rw [if_neg (mt List.isEmpty_iff.1 hnone), hread hnone]
  rw [ofFields?_toJson _ _ h, hroom]
  split
  · rw [Option.map_some, hself]
  · rfl

/-- The value of a tree is read as the tree where there is room for its levels. -/
theorem ofJson?_toJson : ∀ (room : Nat) (n : Node), (∀ m ∈ n.preorder, FitsWords m.label) →
    ofJson? room n.toJson = if 2 * n.levels ≤ room + 1 then some n else none
  | 0, n, _ => by
    have hpos := n.levels_pos
    rw [ofJson?, if_neg (by omega)]
  | 1, n, h => by
    -- The object of the root uses up the room, so a list of children is refused unread.
    rw [preorder_eq, List.forall_mem_cons] at h
    refine ofFields?_of_room h.1 fun hne => ?_
    obtain ⟨c, hc⟩ := List.exists_mem_of_ne_nil _ hne
    have hpos := c.levels_pos
    exact (if_neg fun hall => absurd (hall c hc) (by omega)).symm
  | room + 2, n, h => by
    -- Two are used up together, so the recursion is on the room by steps of two.
    rw [preorder_eq, List.forall_mem_cons] at h
    refine ofFields?_of_room h.1 fun _ => Json.mapM_map_ite fun c hc => ?_
    exact ofJson?_toJson room c fun m hm => h.2 m (mem_preorderAll_of_mem hm _ (mem_preorderAll hc))

/-- A tree is read back from its JSON text, with one item a line or not, if it has at most 64
levels; a text of more levels is refused. -/
theorem json_reads_back (n : Node) (h : ∀ m ∈ n.preorder, FitsWords m.label) :
    parse? (Utf8.encode n.compactText) = (if n.levels ≤ 64 then some n else none) ∧
      parse? (Utf8.encode n.prettyText) = if n.levels ≤ 64 then some n else none := by
  have hcompact : n.compactText = n.toJson.compactText := congrArg Json.compact n.lexemes_eq
  have hpretty : n.prettyText = n.toJson.prettyText := congrArg Json.pretty n.lexemes_eq
  have hread : ofJson? maxNesting n.toJson = if n.levels ≤ 64 then some n else none := by
    rw [ofJson?_toJson maxNesting n h, maxNesting]
    exact ite_congr (propext (by omega)) (fun _ => rfl) fun _ => rfl
  rw [parse?, parse?, hcompact, hpretty, Json.parse?_compactText n.isPlain_toJson,
    Json.parse?_prettyText n.isPlain_toJson, Option.bind_some, hread]
  exact ⟨rfl, rfl⟩

/-- A leaf with an empty text below as many nodes as wanted, each the only child of the one
above. -/
def stem : Nat → Node
  | 0 => .mk
      { symbol := "Text", id := ⟨7⟩, value := some "", error := true, substituteFor := some "é\"\n"
        position := ⟨4294967295, 1, 0⟩, length := 0 } []
  | k + 1 =>
    .mk { symbol := "Block", id := ⟨3⟩, collapsed := true, position := ⟨1, 1, 0⟩, length := 2 }
      [stem k]

theorem levels_stem_le {k j : Nat} : (stem k).levels ≤ j ↔ k < j := by
  induction k generalizing j with
  | zero =>
    cases j with
    | zero => exact iff_of_false (Nat.not_le.2 (levels_pos _)) (Nat.lt_irrefl 0)
    | succ j =>
      rw [levels_le_succ_iff, stem, children]
      exact iff_of_true (List.forall_mem_nil _) (Nat.succ_pos j)
  | succ k ih =>
    cases j with
    | zero => exact iff_of_false (Nat.not_le.2 (levels_pos _)) (Nat.not_lt_zero _)
    | succ j =>
      rw [levels_le_succ_iff, Nat.succ_lt_succ_iff, ← ih, stem, children, List.forall_mem_singleton]

theorem fitsWords_stem (k : Nat) : ∀ m ∈ (stem k).preorder, FitsWords m.label := by
  induction k with
  | zero =>
    rw [preorder_eq, List.forall_mem_cons, stem, children, label, preorderAll_nil]
    exact ⟨⟨by decide, by decide, by decide, by decide⟩, List.forall_mem_nil _⟩
  | succ k ih =>
    rw [preorder_eq, List.forall_mem_cons, stem, children, label, preorderAll_singleton]
    exact ⟨⟨by decide, by decide, by decide, by decide⟩, ih⟩

theorem json_reads_back_stem : (∀ m ∈ (stem 64).preorder, FitsWords m.label) ∧
    parse? (Utf8.encode (stem 63).compactText) = some (stem 63) ∧
    parse? (Utf8.encode (stem 64).compactText) = none ∧
    parse? (Utf8.encode (stem 64).prettyText) = none := by
  have hfits : (stem 63).levels ≤ 64 := levels_stem_le.2 (by decide)
  have hdeep : ¬ (stem 64).levels ≤ 64 := fun hle => absurd (levels_stem_le.1 hle) (by decide)
  refine ⟨fitsWords_stem 64, ?_, ?_, ?_⟩
  · exact (json_reads_back (stem 63) (fitsWords_stem 63)).1.trans (if_pos hfits)
  · exact (json_reads_back (stem 64) (fitsWords_stem 64)).1.trans (if_neg hdeep)
  · exact (json_reads_back (stem 64) (fitsWords_stem 64)).2.trans (if_neg hdeep)

end Node

end TableParser
