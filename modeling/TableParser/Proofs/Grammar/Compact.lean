import TableParser.Grammar.Asset.Compact
import TableParser.Proofs.Grammar.Loading
import TableParser.Proofs.Text.Bytes
/-!
The compact form read back.

A reader that takes a value from bytes (`Reads`) takes no more than these bytes, and finds them cut
off when some are missing at their end. Readers in a row take the bytes of their values in a row, so
each part of a compact form is read as what it was written for, and so is the whole form.

What stands for a missing symbol is no symbol of a grammar, which has fewer symbols.

Main statement: `Compact.reads_decodeAsset`.
-/

namespace TableParser.Compact

/-! ### Readers -/

/-- A reader takes a value from exactly these bytes. -/
structure Reads {α : Type} (r : Reader α) (bytes : List UInt8) (a : α) : Prop where
  /-- The bytes that follow are left. -/
  leaves : ∀ rest, r (bytes ++ rest) = .ok (a, rest)
  /-- Bytes with some missing at their end are cut off. -/
  cut : ∀ front back, bytes = front ++ back → back ≠ [] → ∃ part, r front = .error (.truncated part)

namespace Reads

variable {α β : Type} {r : Reader α} {f : α → Reader β} {x y : List UInt8} {a : α} {b : β}

theorem pure (a : α) : Reads (pure a) [] a where
  leaves _ := rfl
  cut _ _ h hback := absurd (List.append_eq_nil_iff.1 h.symm).2 hback

/-- Readers in a row take the bytes of their values in a row. -/
theorem bind (hr : Reads r x a) (hf : Reads (f a) y b) : Reads (r >>= f) (x ++ y) b where
  leaves rest := by
    have hstep : (r >>= f) (x ++ (y ++ rest)) = f a (y ++ rest) := by
      change (r (x ++ (y ++ rest)) >>= fun p => f p.1 p.2) = _
      rw [hr.leaves]
      rfl
    rw [List.append_assoc, hstep, hf.leaves]
  cut front back h hback := by
    -- the bytes end inside the first part, or behind it
    have hcut : (∃ back', back' ≠ [] ∧ x = front ++ back') ∨
        ∃ front', front = x ++ front' ∧ y = front' ++ back := by
      rcases List.append_eq_append_iff.1 h with ⟨front', hfront, hy⟩ | ⟨back', hx, hback'⟩
      · exact .inr ⟨front', hfront, hy⟩
      · by_cases hnil : back' = []
        · subst hnil
          exact .inr ⟨[], by rw [hx, List.append_nil, List.append_nil], hback'.symm⟩
        · exact .inl ⟨back', hnil, hx⟩
    rcases hcut with ⟨back', hne, hx⟩ | ⟨front', rfl, hy⟩
    · obtain ⟨part, herror⟩ := hr.cut front back' hx hne
      refine ⟨part, ?_⟩
      change (r front >>= fun p => f p.1 p.2) = _
      rw [herror]
      rfl
    · obtain ⟨part, herror⟩ := hf.cut front' back hy hback
      refine ⟨part, ?_⟩
      change (r (x ++ front') >>= fun p => f p.1 p.2) = _
      rw [hr.leaves]
      exact herror

/-- A reader goes on without taking more. -/
theorem bind_pure (hr : Reads r x a) (hf : f a = Pure.pure b) : Reads (r >>= f) x b := by
  rw [← List.append_nil x]
  exact hr.bind (hf ▸ Reads.pure b)

end Reads

theorem reads_take {n : Nat} {part : String} {bytes : List UInt8} (h : bytes.length = n) :
    Reads (take n part) bytes bytes where
  leaves rest := by
    rw [take, ← h, List.take_left, List.drop_left]
    exact if_neg (Nat.lt_irrefl _)
  cut front back hbytes hback := by
    refine ⟨part, if_pos ?_⟩
    have hlen := congrArg List.length hbytes
    rw [List.length_append] at hlen
    have hpos := List.length_pos_iff.2 hback
    have := List.length_take_le n front
    have := List.length_take (i := n) (l := front)
    omega

variable {part : String}

theorem reads_getByte (n : UInt8) : Reads (getByte part) [n] n := by
  refine Reads.bind_pure (reads_take  rfl) ?_
  rfl

theorem reads_getWord16 (n : UInt16) : Reads (getWord16 part) (putWord16 n) n := by
  refine Reads.bind_pure (reads_take  rfl) ?_
  exact congrArg Pure.pure (word16_bytes n)

theorem reads_getWord32 (n : UInt32) : Reads (getWord32 part) (putWord32 n) n := by
  refine Reads.bind_pure (reads_take  rfl) ?_
  exact congrArg Pure.pure (word32_bytes n)

/-! ### Lengths, texts and lists -/

theorem ite_eq_ok {ε α : Type} {c : Prop} [Decidable c] {a b : α} {e : ε} :
    (if c then .ok a else .error e : Except ε α) = .ok b ↔ c ∧ a = b := by
  split
  · next h => exact ⟨fun hab => ⟨h, Except.ok.inj hab⟩, fun hab => congrArg _ hab.2⟩
  · next h => exact ⟨fun hbad => (by cases hbad), fun hc => absurd hc.1 h⟩

theorem putLength16_eq_ok {n : Nat} {count : String} {bytes : List UInt8} :
    putLength16 n count = .ok bytes ↔ n < 65536 ∧ putWord16 n.toUInt16 = bytes := by
  rw [putLength16, ite_eq_ok]

theorem putLength32_eq_ok {n : Nat} {count : String} {bytes : List UInt8} :
    putLength32 n count = .ok bytes ↔ n < 4294967296 ∧ putWord32 n.toUInt32 = bytes := by
  rw [putLength32, ite_eq_ok]

theorem putText_eq_ok {s : String} {bytes : List UInt8} : putText s = .ok bytes ↔
    (Utf8.encode s).length < 4294967296 ∧
      putWord32 (Utf8.encode s).length.toUInt32 ++ Utf8.encode s = bytes := by
  simp only [putText, bind_eq_ok, putLength32_eq_ok, pure, Except.pure, Except.ok.injEq]
  grind

theorem reads_getText {s : String} {bytes : List UInt8} (h : putText s = .ok bytes) :
    Reads (getText part) bytes s := by
  obtain ⟨hlt, rfl⟩ := putText_eq_ok.1 h
  refine (reads_getWord32 _).bind ((reads_take ?_).bind_pure ?_)
  · exact (UInt32.toNat_ofNat_of_lt' hlt).symm
  · rw [Utf8.decode_eq_ok.2 rfl]

variable {α : Type} {put : α → Except TableError (List UInt8)} {item : Reader α}

theorem putEach_nil : putEach put [] = .ok [] := rfl

theorem putEach_cons_eq_ok {a : α} {items : List α} {bytes : List UInt8} :
    putEach put (a :: items) = .ok bytes ↔
      ∃ x, put a = .ok x ∧ ∃ y, putEach put items = .ok y ∧ x ++ y = bytes := by
  simp only [putEach, List.mapM_cons, bind_eq_ok, pure, Except.pure, Except.ok.injEq]
  grind

/-- Items whose bytes are known are written one after the other. -/
theorem putEach_ok (f : α → List UInt8) (items : List α) :
    putEach (fun a => .ok (f a)) items = .ok (items.flatMap f) := by
  induction items with
  | nil => rfl
  | cons a items ih => exact putEach_cons_eq_ok.2 ⟨_, rfl, _, ih, List.flatMap_cons.symm⟩

/-- What was read before stands in front of what is read from here on. -/
theorem collect_eq (n : Nat) : ∀ (done : List α) (bytes : List UInt8),
    collect item n done bytes =
      (collect item n [] bytes).map fun p => (done.reverse ++ p.1, p.2) := by
  induction n with
  | zero => intro done bytes; simp [collect, Except.map]
  | succ n ih =>
    intro done bytes
    rw [collect, collect]
    cases item bytes with
    | error e => rfl
    | ok p =>
      dsimp only
      rw [ih (p.1 :: done), ih [p.1]]
      cases collect item n [] p.2 <;> simp [Except.map]

theorem getMany_succ (n : Nat) : getMany (n + 1) item = (do
    let a ← item
    let rest ← getMany n item
    pure (a :: rest)) := by
  funext bytes
  change collect item (n + 1) [] bytes =
    (item bytes >>= fun p => collect item n [] p.2 >>= fun q => .ok (p.1 :: q.1, q.2))
  rw [collect]
  cases item bytes with
  | error e => rfl
  | ok p =>
    dsimp only
    rw [collect_eq]
    change _ = collect item n [] p.2 >>= fun q => .ok (p.1 :: q.1, q.2)
    cases collect item n [] p.2 <;> rfl

/-- Items that are read back one by one are read back together. -/
theorem reads_getMany {items : List α} : ∀ {bytes : List UInt8},
    (∀ a ∈ items, ∀ x, put a = .ok x → Reads item x a) → putEach put items = .ok bytes →
    Reads (getMany items.length item) bytes items := by
  induction items with
  | nil =>
    intro bytes _ h
    cases h
    exact .pure []
  | cons a items ih =>
    intro bytes hitems h
    obtain ⟨x, hx, y, hy, rfl⟩ := putEach_cons_eq_ok.1 h
    have hrest := ih (fun a' ha' => hitems a' (List.mem_cons_of_mem _ ha')) hy
    rw [List.length_cons, getMany_succ]
    exact (hitems a List.mem_cons_self x hx).bind (hrest.bind_pure rfl)

theorem reads_getList16 {items : List α} {count : String} {x y : List UInt8}
    (hcount : putLength16 items.length count = .ok x) (hput : putEach put items = .ok y)
    (hitems : ∀ a ∈ items, ∀ x, put a = .ok x → Reads item x a) :
    Reads (getList16 part item) (x ++ y) items := by
  obtain ⟨hlt, rfl⟩ := putLength16_eq_ok.1 hcount
  have hlen : items.length.toUInt16.toNat = items.length := UInt16.toNat_ofNat_of_lt' hlt
  refine (reads_getWord16 _).bind ?_
  rw [hlen]
  exact reads_getMany hitems hput

theorem reads_getList32 {items : List α} {count : String} {x y : List UInt8}
    (hcount : putLength32 items.length count = .ok x) (hput : putEach put items = .ok y)
    (hitems : ∀ a ∈ items, ∀ x, put a = .ok x → Reads item x a) :
    Reads (getList32 part item) (x ++ y) items := by
  obtain ⟨hlt, rfl⟩ := putLength32_eq_ok.1 hcount
  have hlen : items.length.toUInt32.toNat = items.length := UInt32.toNat_ofNat_of_lt' hlt
  refine (reads_getWord32 _).bind ?_
  rw [hlen]
  exact reads_getMany hitems hput

/-- A list of items whose bytes are known is read back. -/
theorem reads_getList16_flatMap {f : α → List UInt8} {items : List α} {count : String}
    {x : List UInt8} (hcount : putLength16 items.length count = .ok x)
    (hitems : ∀ a, Reads item (f a) a) :
    Reads (getList16 part item) (x ++ items.flatMap f) items :=
  reads_getList16 hcount (putEach_ok f items) fun a _ _ hx => by cases hx; exact hitems a

/-! ### Symbols and rules -/

theorem reads_getSymbol (s : SymbolId) : Reads (getSymbol part) (putSymbol s) s :=
  (reads_getWord16 s.val).bind_pure rfl

/-- A symbol that may be missing is read back: no symbol has the last id. -/
theorem reads_getSymbolOrNone {s : Option SymbolId} (hs : ∀ id ∈ s, id.index < 65535) :
    Reads (getSymbolOrNone part) (putSymbolOrNone s) s := by
  refine (reads_getWord16 _).bind_pure ?_
  cases s with
  | none => rfl
  | some id =>
    have hne : id.val ≠ noSymbol := fun h => by
      have hlt := hs id rfl
      rw [SymbolId.index, h] at hlt
      exact absurd hlt (by decide)
    exact congrArg Pure.pure (if_neg hne)

theorem reads_getKind (k : SymbolKind) : Reads getKind [k.code] k := by
  refine (reads_getByte _).bind_pure ?_
  rw [SymbolKind.ofCode?_code]

theorem putAttribute_eq_ok {p : String × String} {bytes : List UInt8} :
    putAttribute p = .ok bytes ↔
      ∃ x, putText p.1 = .ok x ∧ ∃ y, putText p.2 = .ok y ∧ x ++ y = bytes := by
  simp only [putAttribute, bind_eq_ok, pure, Except.pure, Except.ok.injEq]

theorem reads_getAttribute {p : String × String} {bytes : List UInt8}
    (h : putAttribute p = .ok bytes) : Reads getAttribute bytes p := by
  obtain ⟨x, hx, y, hy, rfl⟩ := putAttribute_eq_ok.1 h
  exact (reads_getText hx).bind ((reads_getText hy).bind_pure rfl)

/-- A pair with a key above all others goes to the end. -/
theorem insertPair_last {key value : String} : ∀ {l : List (String × String)},
    (∀ p ∈ l, p.1 < key) → insertPair key value l = l ++ [(key, value)]
  | [], _ => rfl
  | (k, v) :: rest, h => by
    obtain ⟨hk, hrest⟩ := List.forall_mem_cons.1 h
    rw [insertPair, if_neg (String.lt_asymm hk), if_neg (fun heq => String.lt_irrefl _ (heq ▸ hk)),
      insertPair_last hrest]
    rfl

/-- Attributes are made of their own entries. -/
theorem ofList_entries (a : Attributes) : Attributes.ofList a.entries = a := by
  have hfold : ∀ (l : List (String × String)) (acc : Attributes),
      (acc.entries ++ l).Pairwise (fun p q => p.1 < q.1) →
      (l.foldl (fun a p => a.insert p.1 p.2) acc).entries = acc.entries ++ l := by
    intro l
    induction l with
    | nil => intro acc _; simp
    | cons p l ih =>
      intro acc hsorted
      have hinsert : (acc.insert p.1 p.2).entries = acc.entries ++ [p] := insertPair_last
        fun q hq => (List.pairwise_append.1 hsorted).2.2 q hq p List.mem_cons_self
      have happend : acc.entries ++ p :: l = (acc.insert p.1 p.2).entries ++ l := by
        rw [hinsert, List.append_assoc]
        rfl
      rw [List.foldl_cons, ih _ (happend ▸ hsorted), happend]
  have hentries : (Attributes.ofList a.entries).entries = a.entries :=
    hfold a.entries .empty a.sorted
  cases a
  exact Attributes.mk.injEq .. ▸ hentries

theorem putGrammarSymbol_eq_ok {s : GrammarSymbol} {bytes : List UInt8} :
    putGrammarSymbol s = .ok bytes ↔ ∃ name, putText s.name = .ok name ∧
      ∃ count, putLength16 s.attributes.entries.length "attribute count" = .ok count ∧
      ∃ attributes, putEach putAttribute s.attributes.entries = .ok attributes ∧
        name ++ [s.kind.code, if s.collapsed then 1 else 0] ++ putSymbolOrNone s.substitute
          ++ count ++ attributes = bytes := by
  simp only [putGrammarSymbol, bind_eq_ok, pure, Except.pure, Except.ok.injEq]

theorem reads_getGrammarSymbol {s : GrammarSymbol} {bytes : List UInt8}
    (hs : ∀ id ∈ s.substitute, id.index < 65535) (h : putGrammarSymbol s = .ok bytes) :
    Reads getGrammarSymbol bytes s := by
  obtain ⟨name, hname, count, hcount, attributes, hattributes, rfl⟩ := putGrammarSymbol_eq_ok.1 h
  have hread : Reads (getList16 "attribute count" getAttribute) (count ++ attributes)
      s.attributes.entries :=
        reads_getList16 hcount hattributes fun _ _ _ hx => reads_getAttribute hx
  have hbytes : name ++ [s.kind.code, if s.collapsed then 1 else 0] ++ putSymbolOrNone s.substitute
      ++ count ++ attributes = name ++ ([s.kind.code] ++ ([if s.collapsed then 1 else 0] ++
        (putSymbolOrNone s.substitute ++ (count ++ attributes)))) := by
    simp
  rw [hbytes]
  refine (reads_getText hname).bind ((reads_getKind _).bind ((reads_getByte _).bind
    ((reads_getSymbolOrNone hs).bind (hread.bind_pure ?_))))
  rw [ofList_entries]
  cases hc : s.collapsed <;> cases s <;> cases hc <;> rfl

theorem putRule_eq_ok {r : Rule} {bytes : List UInt8} : putRule r = .ok bytes ↔
    ∃ count, putLength16 r.rhs.length "rule length" = .ok count ∧
      putSymbol r.lhs ++ count ++ r.rhs.flatMap putSymbol = bytes := by
  simp only [putRule, bind_eq_ok, pure, Except.pure, Except.ok.injEq]

theorem reads_getRule {r : Rule} {bytes : List UInt8} (h : putRule r = .ok bytes) :
    Reads getRule bytes r := by
  obtain ⟨count, hcount, rfl⟩ := putRule_eq_ok.1 h
  rw [List.append_assoc]
  exact (reads_getSymbol _).bind
    ((reads_getList16_flatMap hcount reads_getSymbol).bind_pure rfl)

/-! ### The automaton and the block ends -/

theorem charOfCode_val (c : Char) : charOfCode c.val = .ok c :=
  dif_pos c.valid

theorem reads_getChar (c : Char) : Reads (getChar part) (putWord32 c.val) c := by
  refine (reads_getWord32 _).bind_pure ?_
  rw [charOfCode_val]
  rfl

/-- A character that may be missing is read back: no character has the largest number. -/
theorem reads_getCharOrNone (c : Option Char) :
    Reads (getCharOrNone part) (putWord32 (c.elim noChar Char.val)) c := by
  refine (reads_getWord32 _).bind_pure ?_
  cases c with
  | none => rfl
  | some c =>
    have hne : c.val ≠ noChar := fun h => by
      have hvalid := c.valid
      rw [h] at hvalid
      exact absurd hvalid (by decide)
    refine (if_neg hne).trans ?_
    rw [Option.elim_some, charOfCode_val]
    rfl

theorem reads_getRange (r : Char × Char) : Reads getRange (putRange r) r :=
  (reads_getChar _).bind ((reads_getChar _).bind_pure rfl)

theorem putEdge_eq_ok {e : Edge} {bytes : List UInt8} : putEdge e = .ok bytes ↔
    ∃ count, putLength16 e.ranges.length "DFA range count" = .ok count ∧
      putWord32 e.target ++ count ++ e.ranges.flatMap putRange = bytes := by
  simp only [putEdge, bind_eq_ok, pure, Except.pure, Except.ok.injEq]

theorem reads_getEdge {e : Edge} {bytes : List UInt8} (h : putEdge e = .ok bytes) :
    Reads getEdge bytes e := by
  obtain ⟨count, hcount, rfl⟩ := putEdge_eq_ok.1 h
  rw [List.append_assoc]
  exact (reads_getWord32 _).bind ((reads_getList16_flatMap hcount reads_getRange).bind_pure rfl)

theorem putAutomatonState_eq_ok {s : AutomatonState} {bytes : List UInt8} :
    putAutomatonState s = .ok bytes ↔
      ∃ count, putLength16 s.edges.length "DFA edge count" = .ok count ∧
      ∃ edges, putEach putEdge s.edges = .ok edges ∧
        putSymbolOrNone s.accept ++ count ++ edges = bytes := by
  simp only [putAutomatonState, bind_eq_ok, pure, Except.pure, Except.ok.injEq]

theorem reads_getAutomatonState {s : AutomatonState} {bytes : List UInt8}
    (hs : ∀ id ∈ s.accept, id.index < 65535) (h : putAutomatonState s = .ok bytes) :
    Reads getAutomatonState bytes s := by
  obtain ⟨count, hcount, edges, hedges, rfl⟩ := putAutomatonState_eq_ok.1 h
  rw [List.append_assoc]
  exact (reads_getSymbolOrNone hs).bind
    ((reads_getList16 hcount hedges fun _ _ _ hx => reads_getEdge hx).bind_pure rfl)

theorem putBlockEnd_eq_ok {b : BlockEnd} {bytes : List UInt8} : putBlockEnd b = .ok bytes ↔
    ∃ terminator, putText b.terminator = .ok terminator ∧
      putSymbol b.symbol ++ terminator ++ putWord32 (b.escape.elim noChar Char.val) = bytes := by
  simp only [putBlockEnd, bind_eq_ok, pure, Except.pure, Except.ok.injEq]

theorem reads_getBlockEnd {b : BlockEnd} {bytes : List UInt8} (h : putBlockEnd b = .ok bytes) :
    Reads getBlockEnd bytes b := by
  obtain ⟨terminator, hterminator, rfl⟩ := putBlockEnd_eq_ok.1 h
  rw [List.append_assoc]
  exact (reads_getSymbol _).bind
    ((reads_getText hterminator).bind ((reads_getCharOrNone _).bind_pure rfl))

/-! ### The parse tables -/

theorem reads_getPrediction (p : Prediction) : Reads getPrediction (putPrediction p) p := by
  rw [putPrediction, List.append_assoc]
  exact (reads_getSymbol _).bind ((reads_getSymbol _).bind ((reads_getWord16 _).bind_pure rfl))

/-- The tag and the argument of an action make the action again. -/
theorem reads_getAction (p : SymbolId × Action) :
    Reads getAction (putSymbol p.1 ++ putAction p.2) p := by
  obtain ⟨s, action⟩ := p
  have hread : ∀ tag argument, actionOf tag argument = .ok action →
      Reads getAction (putSymbol s ++ ([tag] ++ putWord32 argument)) (s, action) := by
    intro tag argument haction
    refine (reads_getSymbol _).bind ((reads_getByte _).bind ((reads_getWord32 _).bind_pure ?_))
    rw [haction]
    rfl
  cases action with
  | shift target => exact hread 0 target rfl
  | accept => exact hread 2 0 rfl
  | reduce rule =>
    refine hread 1 rule.val.toUInt32 ?_
    have hlt : rule.val.toUInt32.toNat < 65536 := by
      rw [UInt16.toNat_toUInt32]
      exact rule.val.toNat_lt
    change (if rule.val.toUInt32.toNat < 65536 then _ else _) = _
    rw [if_pos hlt, UInt16.toUInt16_toUInt32]

theorem reads_getGoto (p : SymbolId × StateId) :
    Reads getGoto (putSymbol p.1 ++ putWord32 p.2) p :=
  (reads_getSymbol _).bind ((reads_getWord32 _).bind_pure rfl)

theorem putStateRow_eq_ok {r : StateRow} {bytes : List UInt8} : putStateRow r = .ok bytes ↔
    ∃ actionCount, putLength16 r.actions.length "LALR(1) action count" = .ok actionCount ∧
    ∃ gotoCount, putLength16 r.gotos.length "LALR(1) goto count" = .ok gotoCount ∧
      actionCount ++ r.actions.flatMap (fun (s, a) => putSymbol s ++ putAction a)
        ++ gotoCount ++ r.gotos.flatMap (fun (s, target) => putSymbol s ++ putWord32 target) =
      bytes := by
  simp only [putStateRow, bind_eq_ok, pure, Except.pure, Except.ok.injEq]

theorem reads_getStateRow {r : StateRow} {bytes : List UInt8} (h : putStateRow r = .ok bytes) :
    Reads getStateRow bytes r := by
  obtain ⟨actionCount, hactions, gotoCount, hgotos, rfl⟩ := putStateRow_eq_ok.1 h
  rw [List.append_assoc]
  exact (reads_getList16_flatMap hactions reads_getAction).bind
    ((reads_getList16_flatMap hgotos reads_getGoto).bind_pure rfl)

theorem putPredictionPart_some_eq_ok {ps : List Prediction} {bytes : List UInt8} :
    putPredictionPart (some ps) = .ok bytes ↔
      ∃ count, putLength32 ps.length "LL(1) entry count" = .ok count ∧
        1 :: count ++ ps.flatMap putPrediction = bytes := by
  simp only [putPredictionPart, bind_eq_ok, pure, Except.pure, Except.ok.injEq]

theorem reads_getPredictionPart {ps : Option (List Prediction)} {bytes : List UInt8}
    (h : putPredictionPart ps = .ok bytes) : Reads getPredictionPart bytes ps := by
  cases ps with
  | none => cases h; exact (reads_getByte 0).bind_pure rfl
  | some ps =>
    obtain ⟨count, hcount, rfl⟩ := putPredictionPart_some_eq_ok.1 h
    have hread : Reads (getList32 "LL(1) entry count" getPrediction)
        (count ++ ps.flatMap putPrediction) ps :=
          reads_getList32 hcount (putEach_ok putPrediction ps)
      fun p _ _ hx => by cases hx; exact reads_getPrediction p
    exact (reads_getByte 1).bind (hread.bind_pure rfl)

theorem putShiftReducePart_some_eq_ok {sr : ShiftReduceAsset} {bytes : List UInt8} :
    putShiftReducePart (some sr) = .ok bytes ↔
      ∃ count, putLength32 sr.states.length "LALR(1) state count" = .ok count ∧
      ∃ states, putEach putStateRow sr.states = .ok states ∧
        1 :: putWord32 sr.initial ++ count ++ states = bytes := by
  simp only [putShiftReducePart, bind_eq_ok, pure, Except.pure, Except.ok.injEq]

theorem reads_getShiftReducePart {sr : Option ShiftReduceAsset} {bytes : List UInt8}
    (h : putShiftReducePart sr = .ok bytes) : Reads getShiftReducePart bytes sr := by
  cases sr with
  | none => cases h; exact (reads_getByte 0).bind_pure rfl
  | some sr =>
    obtain ⟨count, hcount, states, hstates, rfl⟩ := putShiftReducePart_some_eq_ok.1 h
    have hread : Reads (getList32 "LALR(1) state count" getStateRow) (count ++ states) sr.states :=
      reads_getList32 hcount hstates fun _ _ _ hx => reads_getStateRow hx
    have hbytes : 1 :: putWord32 sr.initial ++ count ++ states =
        [1] ++ (putWord32 sr.initial ++ (count ++ states)) := by
      simp
    rw [hbytes]
    exact (reads_getByte 1).bind ((reads_getWord32 _).bind (hread.bind_pure rfl))

/-! ### The whole form -/

/-- No symbol that a grammar may name is the one that stands for a missing symbol. -/
structure Named (a : Asset) : Prop where
  substitutes : ∀ sym ∈ a.symbols, ∀ s ∈ sym.substitute, s.index < 65535
  accepts : ∀ st ∈ a.automaton.states, ∀ s ∈ st.accept, s.index < 65535

theorem encodeAsset_eq_ok {a : Asset} {bytes : List UInt8} : encodeAsset a = .ok bytes ↔
    ∃ name, putText a.name = .ok name ∧
    ∃ symbolCount, putLength32 a.symbols.length "symbol count" = .ok symbolCount ∧
    ∃ symbols, putEach putGrammarSymbol a.symbols = .ok symbols ∧
    ∃ ruleCount, putLength32 a.rules.length "rule count" = .ok ruleCount ∧
    ∃ rules, putEach putRule a.rules = .ok rules ∧
    ∃ stateCount, putLength32 a.automaton.states.size "DFA state count" = .ok stateCount ∧
    ∃ states, putEach putAutomatonState a.automaton.states.toList = .ok states ∧
    ∃ blockEndCount, putLength16 a.blockEnds.length "block-end count" = .ok blockEndCount ∧
    ∃ blockEnds, putEach putBlockEnd a.blockEnds = .ok blockEnds ∧
    ∃ predictions, putPredictionPart a.prediction = .ok predictions ∧
    ∃ shiftReduce, putShiftReducePart a.shiftReduce = .ok shiftReduce ∧
      magic ++ putWord32 a.version ++ name ++ putSymbol a.start ++ putSymbol a.endOfStream
        ++ putSymbol a.error ++ symbolCount ++ symbols ++ ruleCount ++ rules
        ++ putWord32 a.automaton.initial ++ stateCount ++ states
        ++ blockEndCount ++ blockEnds ++ predictions ++ shiftReduce = bytes := by
  simp only [encodeAsset, bind_eq_ok, pure, Except.pure, Except.ok.injEq]

/-- A grammar is read back from its compact form. -/
theorem reads_decodeAsset {a : Asset} {bytes : List UInt8} (hformat : a.format = Asset.formatName)
    (named : Named a) (h : encodeAsset a = .ok bytes) : Reads decodeAsset bytes a := by
  obtain ⟨name, hname, symbolCount, hsymbolCount, symbols, hsymbols, ruleCount, hruleCount, rules,
    hrules, stateCount, hstateCount, states, hstates, blockEndCount, hblockEndCount, blockEnds,
    hblockEnds, predictions, hpredictions, shiftReduce, hshiftReduce, rfl⟩ := encodeAsset_eq_ok.1 h
  have readSymbols : Reads (getList32 "symbol count" getGrammarSymbol) (symbolCount ++ symbols)
      a.symbols := reads_getList32 hsymbolCount hsymbols
    fun sym hsym _ hx => reads_getGrammarSymbol (named.substitutes sym hsym) hx
  have readRules : Reads (getList32 "rule count" getRule) (ruleCount ++ rules) a.rules :=
    reads_getList32 hruleCount hrules fun _ _ _ hx => reads_getRule hx
  have readStates : Reads (getList32 "DFA state count" getAutomatonState) (stateCount ++ states)
      a.automaton.states.toList := reads_getList32 (by rwa [Array.length_toList]) hstates
    fun st hst _ hx => reads_getAutomatonState (named.accepts st (Array.mem_toList_iff.1 hst)) hx
  have readBlockEnds : Reads (getList16 "block-end count" getBlockEnd) (blockEndCount ++ blockEnds)
      a.blockEnds := reads_getList16 hblockEndCount hblockEnds fun _ _ _ hx => reads_getBlockEnd hx
  have readMagic : Reads (take 8 "magic") magic magic := reads_take rfl
  have hread : Reads getAsset (putWord32 a.version ++ (name ++ (putSymbol a.start ++
      (putSymbol a.endOfStream ++ (putSymbol a.error ++ ((symbolCount ++ symbols) ++
      ((ruleCount ++ rules) ++ (putWord32 a.automaton.initial ++ ((stateCount ++ states) ++
      ((blockEndCount ++ blockEnds) ++ (predictions ++ shiftReduce))))))))))) a := by
    refine (reads_getWord32 _).bind ((reads_getText hname).bind ((reads_getSymbol _).bind
      ((reads_getSymbol _).bind ((reads_getSymbol _).bind (readSymbols.bind (readRules.bind
      ((reads_getWord32 _).bind (readStates.bind (readBlockEnds.bind
      ((reads_getPredictionPart hpredictions).bind
      ((reads_getShiftReducePart hshiftReduce).bind_pure ?_)))))))))))
    rw [← hformat]
  have hdecode : Reads decodeAsset (magic ++ _) a := readMagic.bind hread
  simpa only [List.append_assoc] using hdecode

end TableParser.Compact
