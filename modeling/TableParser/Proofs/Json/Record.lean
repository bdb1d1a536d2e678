import TableParser.Json.Record
import TableParser.Proofs.Json.Value
/-!
Records read back.

A record is written as an object with some of its fields left out. Each of its slots is a name and,
unless the field is left out, a value; so the fields that are read are the slots in order, whichever
are missing.

    slots     name: "a"    attributes: –    substitute: –    collapsed: true
    object    { "name": "a", "collapsed": true }

Main statements: `fields?_given`, `fieldPieces_given` and `asList?_map`.
-/

namespace TableParser.Json

/-! ### Lists -/

/-- Items that are all read give the list of what they are read as. -/
theorem mapM_map_eq_some {ι α β : Type} {read : α → Option β} {f : ι → α} {g : ι → β} {l : List ι}
    (h : ∀ i ∈ l, read (f i) = some (g i)) : (l.map f).mapM read = some (l.map g) := by
  induction l with
  | nil => rfl
  | cons i l ih =>
    obtain ⟨hi, hl⟩ := List.forall_mem_cons.1 h
    rw [List.map_cons, List.mapM_cons, hi, ih hl]
    rfl

/-- Items that are read back where they fit are all read back where they all fit. -/
theorem mapM_map_ite {ι α : Type} {read : α → Option ι} {f : ι → α} {fits : ι → Prop}
    [DecidablePred fits] {l : List ι} (h : ∀ i ∈ l, read (f i) = if fits i then some i else none) :
    (l.map f).mapM read = if ∀ i ∈ l, fits i then some l else none := by
  induction l with
  | nil => simp
  | cons i l ih =>
    obtain ⟨hi, hl⟩ := List.forall_mem_cons.1 h
    rw [List.map_cons, List.mapM_cons, hi, ih hl]
    by_cases hfirst : fits i
    · by_cases hrest : ∀ j ∈ l, fits j
      · rw [if_pos hfirst, if_pos hrest, if_pos (List.forall_mem_cons.2 ⟨hfirst, hrest⟩)]
        rfl
      · rw [if_pos hfirst, if_neg hrest, if_neg fun hall => hrest (List.forall_mem_cons.1 hall).2]
        rfl
    · rw [if_neg hfirst, if_neg fun hall => hfirst (List.forall_mem_cons.1 hall).1]
      rfl

/-- An array of written items is read as the items. -/
theorem asList?_map {α : Type} {read : Json → Option α} {write : α → Json} {l : List α}
    (h : ∀ a ∈ l, read (write a) = some a) : asList? read (.array (l.map write)) = some l :=
  (mapM_map_eq_some h).trans (congrArg some (List.map_id' l))

/-! ### Slots -/

/-- A field that is there or left out. -/
def Field.ofOption : Option Json → Field
  | some v => .given v
  | none => .unnamed

/-- The fields that are not left out. -/
def given (slots : List (String × Option Json)) : List (String × Json) :=
  slots.filterMap fun s => s.2.map fun v => (s.1, v)

section Slots

variable {slots : List (String × Option Json)} {name : String} {value : Option Json} {v : Json}

@[simp] theorem given_nil : given [] = [] := rfl

@[simp] theorem given_none (name : String) (slots : List (String × Option Json)) :
    given ((name, none) :: slots) = given slots := rfl

@[simp] theorem given_some (name : String) (v : Json) (slots : List (String × Option Json)) :
    given ((name, some v) :: slots) = (name, v) :: given slots := rfl

theorem filter_given_of_notMem (h : name ∉ slots.map Prod.fst) :
    (given slots).filter (fun f => f.1 == name) = [] := by
  rw [List.filter_eq_nil_iff]
  rintro ⟨k, v⟩ hmem hk
  obtain ⟨s, hs, hv⟩ := List.mem_filterMap.1 hmem
  obtain ⟨_, -, hkv⟩ := Option.map_eq_some_iff.1 hv
  have hname : s.1 = name := (Prod.mk.inj hkv).1.trans (eq_of_beq hk)
  exact h (hname ▸ List.mem_map_of_mem hs)

/-- The value of a field is the one in its slot. -/
theorem uniqueField?_given (h : (slots.map Prod.fst).Nodup) (hmem : (name, value) ∈ slots) :
    uniqueField? (given slots) name = some (Field.ofOption value) := by
  have hfilter : (given slots).filter (fun f => f.1 == name) =
      value.toList.map fun v => (name, v) := by
    induction slots with
    | nil => cases hmem
    | cons s slots ih =>
      obtain ⟨hfirst, hrest⟩ := List.nodup_cons.1 h
      rcases List.mem_cons.1 hmem with rfl | hmem
      · have hnone := filter_given_of_notMem hfirst
        cases value with
        | none => exact hnone
        | some v =>
          have hself :=
            List.filter_cons_of_pos (p := fun f : String × Json => f.1 == name) (a := (name, v))
              (l := given slots) (beq_self_eq_true name)
          exact hself.trans (congrArg _ hnone)
      · have hne : ¬ (s.1 == name) = true :=
          fun heq => hfirst (eq_of_beq heq ▸ List.mem_map_of_mem hmem)
        rw [← ih hrest hmem]
        obtain ⟨k, _ | v⟩ := s
        · rfl
        · exact List.filter_cons_of_neg hne
  rw [uniqueField?, hfilter]
  cases value <;> rfl

/-- The fields of a record are its slots. -/
theorem fields?_given (names : List String) (slots : List (String × Option Json))
    (hnames : slots.map Prod.fst = names) (h : names.Nodup) :
    fields? names (record (given slots)) = some (slots.map fun s => Field.ofOption s.2) := by
  subst hnames
  rw [record, fields?, mapM_map_eq_some (g := fun f => f) fun _ _ => ?keys, List.map_id']
  case keys => rfl
  exact mapM_map_eq_some fun s hs => uniqueField?_given h hs

theorem isPlain_given (h : ∀ s ∈ slots, ∀ v ∈ s.2, v.IsPlain) : (record (given slots)).IsPlain := by
  refine isPlain_record fun f hf => ?_
  obtain ⟨s, hs, hv⟩ := List.mem_filterMap.1 hf
  obtain ⟨v, hmem, rfl⟩ := Option.map_eq_some_iff.1 hv
  exact h s hs v hmem

/-- The pieces of a field after another one; a field that is left out has none. -/
def slotPieces (s : String × Option Json) : List Piece :=
  s.2.elim [] fun v => [.word .comma, .word (.string (some s.1)), .word .colon, .value v]

theorem fieldPieces_cons (f : Option String × Json) (fields : List (Option String × Json)) :
    fieldPieces (f :: fields) = .word (.string f.1) :: .word .colon :: .value f.2 ::
      fields.flatMap fun f => [.word .comma, .word (.string f.1), .word .colon, .value f.2] := by
  induction fields generalizing f with
  | nil => rfl
  | cons f' fields ih =>
    have hpieces : fieldPieces (f :: f' :: fields) =
        .word (.string f.1) :: .word .colon :: .value f.2 :: .word .comma ::
          fieldPieces (f' :: fields) := rfl
    rw [hpieces, ih, List.flatMap_cons]
    rfl

/-- The pieces of a record whose first field is there. -/
theorem fieldPieces_given (name : String) (v : Json) (slots : List (String × Option Json)) :
    fieldPieces ((given ((name, some v) :: slots)).map fun f => (some f.1, f.2)) =
      .word (.string (some name)) :: .word .colon :: .value v :: slots.flatMap slotPieces := by
  have hslots : ((given slots).map fun f => (some f.1, f.2)).flatMap
        (fun f : Option String × Json =>
          [Piece.word .comma, .word (.string f.1), .word .colon, .value f.2]) =
      slots.flatMap slotPieces := by
    induction slots with
    | nil => rfl
    | cons s slots ih =>
      rw [List.flatMap_cons, ← ih]
      obtain ⟨k, _ | v⟩ := s <;> rfl
  rw [Json.given_some, List.map_cons, fieldPieces_cons, hslots]

end Slots

/-! ### Fields -/

section Fields

variable {α : Type} {read : Json → Option α} {write : α → Json}

@[simp] theorem asText?_text (s : String) : asText? (text s) = some s := rfl

@[simp] theorem asChar?_singleton (c : Char) : asChar? (text (String.singleton c)) = some c := by
  rw [asChar?, asText?_text, Option.map_some, String.toList_singleton]

@[simp] theorem required_ofOption (v : Json) :
    Field.required read (.ofOption (some v)) = read v := rfl

@[simp] theorem withDefault_ofOption (default : α) (v : Json) :
    Field.withDefault default read (.ofOption (some v)) = read v := rfl

/-- A field that is left out only where it has its default. -/
theorem withDefault_ite {c : Prop} [Decidable c] {a default : α} {v : Json}
    (hread : read v = some a) (hdefault : c → a = default) :
    Field.withDefault default read (.ofOption (if c then none else some v)) = some a := by
  split
  · next hc => exact congrArg some (hdefault hc).symm
  · exact hread

/-- What is read from a value that is not `null`. -/
theorem nullable_of_ne {v : Json} {a : α} (hne : v ≠ .null) (hread : read v = some a) :
    Field.nullable read v = some (some a) := by
  rw [Field.nullable, hread]
  · rfl
  · exact hne

variable (hne : ∀ a, write a ≠ .null) (hread : ∀ a, read (write a) = some a)
include hne hread

/-- A field that is left out where it has no value. -/
theorem withDefault_map (value : Option α) :
    Field.withDefault none (Field.nullable read) (.ofOption (value.map write)) = some value := by
  cases value with
  | none => rfl
  | some a => exact nullable_of_ne (hne a) (hread a)

theorem optional_map (value : Option α) :
    Field.optional read (.ofOption (value.map write)) = some value := by
  cases value with
  | none => rfl
  | some a => exact nullable_of_ne (hne a) (hread a)

end Fields

end TableParser.Json
