import Mathlib.Order.Bounds.Basic
import TableParser.Grammar.Automaton
/-!
Where a body ends.

A text is cut from the left into units: an escape character takes the character after it along, and
every other character is a unit of its own. A body ends with the first terminator that starts where
such a unit of its own does; what an escape takes along starts no terminator, though a terminator
may go on over it.

    escape \     terminator "
    text         a  \  "  b  "  c
    units        a  \ "   b  "  c
                             ^ the first terminator

Main statement: `scan_isLeast`.
-/

namespace TableParser.BlockEnd

/-! ### Units -/

/-- Cuts a text into an escape character with the character after it, if any, and every other
character by itself. -/
def units (escape : Option Char) : List Char → List (List Char)
  | [] => []
  | [c] => [[c]]
  | c :: d :: rest =>
    if some c = escape then [c, d] :: units escape rest else [c] :: units escape (d :: rest)

section Units

variable {escape : Option Char} {c d : Char} {rest : List Char}

theorem units_escape (h : some c = escape) :
    units escape (c :: d :: rest) = [c, d] :: units escape rest := by
  rw [units, if_pos h]

theorem units_plain (h : some c ≠ escape) :
    units escape (c :: rest) = [c] :: units escape rest := by
  cases rest with
  | nil => rfl
  | cons d rest => rw [units, if_neg h]

/-- The units of a text are all of it. -/
theorem flatten_units (escape : Option Char) (rest : List Char) :
    (units escape rest).flatten = rest := by
  fun_induction units escape rest with
  | case1 => rfl
  | case2 c => rfl
  | case3 c d rest _ ih => rw [List.flatten_cons, ih]; rfl
  | case4 c d rest _ ih => rw [List.flatten_cons, ih]; rfl

end Units

/-! ### The first terminator -/

section Stops

variable {terminator : List Char} {escape : Option Char} {us front : List (List Char)}
  {u : List Char}

/-- After the units `front` comes a unit that is no escape, and there the terminator starts. -/
def Stops (terminator : List Char) (escape : Option Char) (us front : List (List Char)) : Prop :=
  ∃ u after, us = front ++ u :: after ∧ u.head? ≠ escape ∧ terminator <+: (u :: after).flatten

theorem not_stops_nil : ¬ Stops terminator escape [] front := by
  rintro ⟨u, after, hus, -⟩
  cases front <;> cases hus

/-- A terminator starts at the first unit or after it. -/
theorem stops_cons : Stops terminator escape (u :: us) front ↔
    (front = [] ∧ u.head? ≠ escape ∧ terminator <+: (u :: us).flatten) ∨
      ∃ later, front = u :: later ∧ Stops terminator escape us later := by
  constructor
  · rintro ⟨v, after, hus, hv, hpre⟩
    cases front with
    | nil =>
      cases hus
      exact .inl ⟨rfl, hv, hpre⟩
    | cons w later =>
      obtain ⟨rfl, rfl⟩ := List.cons.inj hus
      exact .inr ⟨later, rfl, v, after, rfl, hv, hpre⟩
  · rintro (⟨rfl, hu, hpre⟩ | ⟨later, rfl, v, after, rfl, hv, hpre⟩)
    · exact ⟨u, us, rfl, hu, hpre⟩
    · exact ⟨v, after, rfl, hv, hpre⟩

/-- No terminator starts after fewer units. -/
def IsFirst (terminator : List Char) (escape : Option Char) (us front : List (List Char)) : Prop :=
  Stops terminator escape us front ∧
    ∀ front', Stops terminator escape us front' → front.length ≤ front'.length

/-- Where none starts at the first unit, the first terminator is the first one after it. -/
theorem IsFirst.cons (hu : ¬ (u.head? ≠ escape ∧ terminator <+: (u :: us).flatten))
    (h : IsFirst terminator escape us front) :
    IsFirst terminator escape (u :: us) (u :: front) := by
  refine ⟨stops_cons.2 (.inr ⟨front, rfl, h.1⟩), fun front' hstops => ?_⟩
  rcases stops_cons.1 hstops with ⟨-, hfirst⟩ | ⟨later, rfl, hlater⟩
  · exact absurd hfirst hu
  · exact Nat.succ_le_succ (h.2 later hlater)

/-- Where none starts at the first unit and none after it, there is none. -/
theorem not_stops_cons (hu : ¬ (u.head? ≠ escape ∧ terminator <+: (u :: us).flatten))
    (h : ∀ front, ¬ Stops terminator escape us front) (front : List (List Char)) :
    ¬ Stops terminator escape (u :: us) front := by
  intro hstops
  rcases stops_cons.1 hstops with ⟨-, hfirst⟩ | ⟨later, -, hlater⟩
  · exact hu hfirst
  · exact h later hlater

/-- What a search finds: the text up to and with the first terminator, or nothing where there is
none. -/
def Found (terminator : List Char) (escape : Option Char) (before rest : List Char) :
    Option (List Char × List Char) → Prop
  | none => ∀ front, ¬ Stops terminator escape (units escape rest) front
  | some p => ∃ front, IsFirst terminator escape (units escape rest) front ∧
    p.1 = before.reverse ++ front.flatten ++ terminator

/-- A unit at which no terminator starts is passed. -/
theorem Found.cons {before rest later : List Char} {o : Option (List Char × List Char)}
    (hunits : units escape rest = u :: units escape later)
    (hu : ¬ (u.head? ≠ escape ∧ terminator <+: rest))
    (h : Found terminator escape (u.reverse ++ before) later o) :
    Found terminator escape before rest o := by
  rw [← flatten_units escape rest, hunits] at hu
  cases o with
  | none =>
    rw [Found, hunits]
    exact not_stops_cons hu h
  | some p =>
    obtain ⟨front, hfirst, hp⟩ := h
    refine ⟨u :: front, hunits ▸ hfirst.cons hu, ?_⟩
    rw [hp]
    simp

theorem found_find (terminator : List Char) (escape : Option Char) (before rest : List Char) :
    Found terminator escape before rest (find terminator escape before rest) := by
  fun_induction find terminator escape before rest with
  | case1 before => exact fun _ => not_stops_nil
  | case2 before c hc =>
    -- an escape character with nothing after it
    refine not_stops_cons ?_ fun _ => not_stops_nil
    exact fun hu => hu.1 hc
  | case3 before c hc d rest ih => exact ih.cons (units_escape hc) fun hu => hu.1 hc
  | case4 before c rest hc hpre =>
    refine ⟨[], ⟨?_, fun _ _ => Nat.zero_le _⟩, by simp⟩
    refine ⟨[c], units escape rest, units_plain hc, hc, ?_⟩
    rw [List.flatten_cons, flatten_units]
    exact List.isPrefixOf_iff_prefix.1 hpre
  | case5 before c rest hc hpre ih =>
    exact ih.cons (units_plain hc) fun hu => hpre (List.isPrefixOf_iff_prefix.2 hu.2)

end Stops

/-! ### Byte indices -/

/-- At a byte index of a text a unit starts that is no escape, and the terminator occurs there. -/
def OccursAt (b : BlockEnd) (rest : String) (i : Nat) : Prop :=
  ∃ (front : List (List Char)) (u : List Char) (after : List (List Char)) (tail : String),
    units b.escape rest.toList = front ++ u :: after ∧ u.head? ≠ b.escape ∧
      rest = String.ofList front.flatten ++ b.terminator ++ tail ∧
      (String.ofList front.flatten).utf8ByteSize = i

variable {b : BlockEnd} {rest : String}

theorem occursAt_iff {i : Nat} : b.OccursAt rest i ↔
    ∃ front, Stops b.terminator.toList b.escape (units b.escape rest.toList) front ∧
      (String.ofList front.flatten).utf8ByteSize = i := by
  constructor
  · rintro ⟨front, u, after, tail, hunits, hu, hrest, hi⟩
    refine ⟨front, ⟨u, after, hunits, hu, tail.toList, ?_⟩, hi⟩
    have hflat := congrArg List.flatten hunits
    rw [flatten_units, List.flatten_append] at hflat
    have hlist := congrArg String.toList hrest
    rw [hflat, String.toList_append, String.toList_append, String.toList_ofList,
      List.append_assoc] at hlist
    exact (List.append_cancel_left hlist).symm
  · rintro ⟨front, ⟨u, after, hunits, hu, tail, htail⟩, hi⟩
    refine ⟨front, u, after, String.ofList tail, hunits, hu, String.toList_inj.1 ?_, hi⟩
    have hflat := congrArg List.flatten hunits
    rw [flatten_units, List.flatten_append, ← htail] at hflat
    rw [hflat, String.toList_append, String.toList_append, String.toList_ofList,
      String.toList_ofList, List.append_assoc]

/-- The first terminator has the least byte index. -/
theorem IsFirst.isLeast {front : List (List Char)}
    (h : IsFirst b.terminator.toList b.escape (units b.escape rest.toList) front) :
    IsLeast {i | b.OccursAt rest i} (String.ofList front.flatten).utf8ByteSize := by
  refine ⟨occursAt_iff.2 ⟨front, h.1, rfl⟩, fun i hi => ?_⟩
  obtain ⟨front', hstops', rfl⟩ := occursAt_iff.1 hi
  have hle := h.2 front' hstops'
  obtain ⟨⟨u, after, hunits, -⟩, -⟩ := h
  obtain ⟨u', after', hunits', -⟩ := hstops'
  have hpre : front <+: front' :=
    List.prefix_of_prefix_length_le ⟨_, hunits.symm⟩ ⟨_, hunits'.symm⟩ hle
  obtain ⟨between, rfl⟩ := hpre
  rw [List.flatten_append, String.ofList_append, String.utf8ByteSize_append]
  exact Nat.le_add_right _ _

/-- The body ends behind the first terminator: its length is the least byte index where a unit that
is no escape starts and the terminator occurs, and the length of the terminator. There the text is
cut between two characters. Without such an index there is no body. -/
theorem scan_isLeast (b : BlockEnd) (rest : String) :
    match b.scan rest with
    | some n => ∃ i, IsLeast {i | b.OccursAt rest i} i ∧ n = i + b.terminator.utf8ByteSize ∧
        String.Pos.Raw.IsValid rest ⟨n⟩ ∧ n ≤ rest.utf8ByteSize ∧
        ∃ before tail, rest = before ++ b.terminator ++ tail ∧
          (before ++ b.terminator).utf8ByteSize = n
    | none => ∀ i, ¬ b.OccursAt rest i := by
  have hfound := found_find b.terminator.toList b.escape [] rest.toList
  rw [scan, split]
  cases hfind : find b.terminator.toList b.escape [] rest.toList with
  | none =>
    rw [hfind] at hfound
    intro i hi
    obtain ⟨front, hstops, -⟩ := occursAt_iff.1 hi
    exact hfound front hstops
  | some p =>
    rw [hfind] at hfound
    obtain ⟨front, hfirst, hp⟩ := hfound
    have hleast := hfirst.isLeast
    have hsize : (String.ofList p.1).utf8ByteSize =
        (String.ofList front.flatten).utf8ByteSize + b.terminator.utf8ByteSize := by
      rw [hp, List.reverse_nil, List.nil_append, String.ofList_append, String.ofList_toList,
        String.utf8ByteSize_append]
    obtain ⟨front', _, _, tail, -, -, hrest, hi⟩ := hleast.1
    have hn : (String.ofList front'.flatten ++ b.terminator).utf8ByteSize =
        (String.ofList p.1).utf8ByteSize := by
      rw [String.utf8ByteSize_append, hi, hsize]
    refine ⟨_, hleast, hsize, ?_, ?_, _, tail, hrest, hn⟩
    · exact String.Pos.Raw.isValid_iff_exists_append.2
        ⟨_, tail, hrest, congrArg String.Pos.Raw.mk hn.symm⟩
    · rw [hrest, String.utf8ByteSize_append, hn]
      exact Nat.le_add_right _ _

/-- A terminator that overlaps itself is found where it first occurs, and an escape character at the
end of the text is a unit with nothing after it. -/
example : (⟨⟨0⟩, "-->", some '\\'⟩ : BlockEnd).scan "é\\--->!" = some 7 ∧
    (⟨⟨0⟩, "\"", some '\\'⟩ : BlockEnd).scan "a\\\"b\\" = none := by
  cbv

end TableParser.BlockEnd
