import Mathlib.Data.List.Forall2
import TableParser.Proofs.Tree.Leaves
/-!
The leaves of a tree beside the events it is built from.

Tokens and errors make leaves and no other event does. What a leaf says of its input is what its
event carries; its symbol alone can be another one, where the grammar has a substitute for it:

    events   terminal a   nonTerminal 4   error "= ="   endNonTerminal 4   terminal 1.1.1
    leaves   Symbol a                     Error "= ="                      Symbol 1.1.1, for Date

The events need not be those of an engine. Rules may be closed that were never opened, or opened and
never closed, and a reduction may find too few trees: each leaf is there once, and in its place.

Main statement: `leaves_record_events`.
-/

namespace TableParser

/-- Whether an event has a leaf: it is about a token or an error. -/
def Event.makesLeaf : Event → Bool
  | .terminal _ | .shift _ | .error _ => true
  | .initial | .nonTerminal _ | .endNonTerminal _ | .reduce _ | .accept | .endDocument => false

namespace Builder

variable {t : Tables} {shape : Shape}

/-- The symbol that a node reports for another one, and the name that it notes: the symbol itself
and none, or, if trees are transformed, its substitute and the name of the symbol. -/
inductive StandsFor (t : Tables) (shape : Shape) (s : SymbolId) :
    SymbolId → Option String → Prop where
  | itself (kept : shape.transform = true → (t.symbol? s).bind GrammarSymbol.substitute = none) :
      StandsFor t shape s s none
  | substitute {sub : SymbolId} (transform : shape.transform = true)
      (replaced : (t.symbol? s).bind GrammarSymbol.substitute = some sub) :
      StandsFor t shape s sub (some (t.nameOf s))

/-- A leaf records an event: it carries the text, place and length of the event, and it is hidden or
an error as the event's symbol is. -/
structure Records (t : Tables) (shape : Shape) (ev : Event) (n : Node) : Prop where
  value : n.label.value = ev.value?
  position : ev.position? = some n.label.position
  length : ev.value?.map String.utf8ByteSize = some n.label.length
  hidden : n.label.hidden = ev.token?.any fun tok => t.isHidden tok.symbol
  error : n.label.error = true ↔ ev.symbol? t = some t.error
  symbol :
    (∃ tok, ev.token? = some tok ∧ StandsFor t shape tok.symbol n.label.id n.label.substituteFor) ∨
    ev.token? = none ∧ n.label.id = t.error ∧ n.label.substituteFor = none
  name : n.label.symbol = t.nameOf n.label.id
  childless : n.children = []

theorem standsFor_substitute (s : SymbolId) :
    StandsFor t shape s (substitute t shape s).1 (substitute t shape s).2 := by
  rw [substitute]
  split
  · next sub hsub =>
    split
    · next htransform => exact .substitute htransform hsub
    · next htransform => exact .itself fun h => absurd h htransform
  · next hnone => exact .itself fun _ => hnone

theorem records_leaf {ev : Event} {tok : Token} (htoken : ev.token? = some tok)
    (hvalue : ev.value? = some tok.text) (hposition : ev.position? = some tok.position)
    (hsymbol : ev.symbol? t = some tok.symbol) :
    Records t shape ev (leaf t shape tok) where
  value := hvalue.symm
  position := hposition
  length := by rw [hvalue]; rfl
  hidden := by rw [htoken]; rfl
  error := by
    rw [hsymbol, Option.some.injEq]
    exact decide_eq_true_iff
  symbol := .inl ⟨tok, htoken, standsFor_substitute tok.symbol⟩
  name := rfl
  childless := rfl

theorem records_errorLeaf (e : SyntaxError) : Records t shape (.error e) (errorLeaf t e) where
  value := rfl
  position := rfl
  length := rfl
  hidden := rfl
  error := iff_of_true rfl rfl
  symbol := .inr ⟨rfl, rfl, rfl⟩
  name := rfl
  childless := rfl

/-- An event adds one leaf, which records it, or is none that makes a leaf. -/
theorem leafOf_cases (t : Tables) (shape : Shape) (ev : Event) :
    (∃ n, ev.makesLeaf = true ∧ leafOf t shape ev = [n] ∧ Records t shape ev n) ∨
      ev.makesLeaf = false ∧ leafOf t shape ev = [] := by
  cases ev with
  | initial | nonTerminal | endNonTerminal | reduce | accept | endDocument => exact .inr ⟨rfl, rfl⟩
  | terminal tok | shift tok =>
    exact .inl ⟨leaf t shape tok, rfl, rfl, records_leaf rfl rfl rfl rfl⟩
  | error e => exact .inl ⟨errorLeaf t e, rfl, rfl, records_errorLeaf e⟩

/-- The leaves that some events add record those that make leaves. -/
theorem records_flatMap (t : Tables) (shape : Shape) (events : List Event) :
    List.Forall₂ (Records t shape) (events.filter Event.makesLeaf)
      (events.flatMap (leafOf t shape)) := by
  induction events with
  | nil => exact .nil
  | cons ev events ih =>
    rw [List.flatMap_cons]
    rcases leafOf_cases t shape ev with ⟨n, hmakes, hleaf, hrecords⟩ | ⟨hmakes, hleaf⟩
    · rw [List.filter_cons_of_pos hmakes, hleaf]
      exact .cons hrecords ih
    · rw [List.filter_cons_of_neg (by simp [hmakes]), hleaf]
      exact ih

/-- Whatever the events are, the leaves of their tree record the events that make leaves, each one
once and in their order. Where there is no tree there is no such event. -/
theorem leaves_record_events (t : Tables) (shape : Shape) (events : List Event) :
    List.Forall₂ (Records t shape) (events.filter Event.makesLeaf)
        ((build t shape events).elim [] Node.leaves) ∧
      (build t shape events = none → ∀ ev ∈ events, ev.makesLeaf = false) := by
  have hleaves : (build t shape events).elim [] Node.leaves = events.flatMap (leafOf t shape) := by
    rw [← leavesOf_build]
    cases build t shape events with
    | none => rfl
    | some n => exact Node.leaves_eq n
  have hrecords := records_flatMap t shape events
  rw [← hleaves] at hrecords
  refine ⟨hrecords, fun hnone ev hev => ?_⟩
  rw [hnone] at hrecords
  have hfilter : events.filter Event.makesLeaf = [] := List.forall₂_nil_right_iff.1 hrecords
  exact Bool.eq_false_iff.2 (List.filter_eq_nil_iff.1 hfilter ev hev)

end Builder

end TableParser
