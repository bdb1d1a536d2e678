import Mathlib.Computability.Language
import Mathlib.Order.CompletePartialOrder
import TableParser.Proofs.Token.Source
/-!
The texts that an automaton reads.

`Automaton.reached a s` is the language of the texts that lead from the initial state to the state
`s`. These languages are the least ones that satisfy one inequality for each edge: a text of the
state that it leaves, with a character that it admits, is a text of the state that it enters. So
what a state stands for is found by going over the edges twice, once up (`reached_mul_le`) and once
down (`reached_le`).

A source is a single token when the first cut takes all of it. The cut follows the automaton until
it is stuck.

Main statements: `Automaton.reached_le`, `Automaton.reached_mul_le`, `Cut.munch_eq` and
`TokenStream.tokenize_eq_iff`.
-/

open Computability

namespace TableParser

/-! ### Languages -/

/-- The texts of one character with a property. -/
def single (p : Char → Prop) : Language Char := {w | ∃ c, p c ∧ w = [c]}

theorem mem_single {p : Char → Prop} {w : List Char} : w ∈ single p ↔ ∃ c, p c ∧ w = [c] := Iff.rfl

theorem singleton_mem_single {p : Char → Prop} {c : Char} : [c] ∈ single p ↔ p c := by
  rw [mem_single]
  constructor
  · rintro ⟨d, hd, heq⟩
    rwa [List.singleton_inj.1 heq]
  · intro hc
    exact ⟨c, hc, rfl⟩

/-- Texts of a language one after the other, at least one of them. -/
def plus (l : Language Char) : Language Char := l * l∗

section Plus

variable {l m n : Language Char}

theorem le_mul_kstar {α : Type} {l m : Language α} : m ≤ m * l∗ := by
  calc m = m * 1 := (mul_one m).symm
    _ ≤ m * l∗ := mul_le_mul_right one_le_kstar m

theorem mul_kstar_mul_le : m * l∗ * l ≤ m * l∗ := by
  rw [mul_assoc]
  exact mul_le_mul_right kstar_mul_le_kstar m

theorem le_plus : l ≤ plus l := le_mul_kstar

theorem plus_mul_le : plus l * l ≤ plus l := mul_kstar_mul_le

theorem mul_plus_le (h : m * l ≤ n) (h' : n * l ≤ n) : m * plus l ≤ n := by
  rw [plus, ← mul_assoc]
  exact mul_kstar_le h h'

theorem mul_plus_mul_le : m * plus l * l ≤ m * plus l := by
  rw [mul_assoc]
  exact mul_le_mul_right plus_mul_le m

end Plus

theorem mem_kstar_single {p : Char → Prop} {w : List Char} : w ∈ (single p)∗ ↔ ∀ c ∈ w, p c := by
  constructor
  · rintro ⟨units, rfl, hunits⟩ c hc
    obtain ⟨u, hu, hcu⟩ := List.mem_flatten.1 hc
    obtain ⟨d, hd, rfl⟩ := hunits u hu
    rwa [List.mem_singleton.1 hcu]
  · intro h
    refine ⟨w.map fun c => [c], by rw [← List.flatMap_def, List.flatMap_singleton'], fun u hu => ?_⟩
    obtain ⟨c, hc, rfl⟩ := List.mem_map.1 hu
    exact singleton_mem_single.2 (h c hc)

theorem mem_plus_single {p : Char → Prop} {w : List Char} :
    w ∈ plus (single p) ↔ w ≠ [] ∧ ∀ c ∈ w, p c := by
  rw [plus, Language.mem_mul]
  constructor
  · rintro ⟨_, ⟨c, hc, rfl⟩, u, hu, rfl⟩
    exact ⟨List.cons_ne_nil _ _, List.forall_mem_cons.2 ⟨hc, mem_kstar_single.1 hu⟩⟩
  · rintro ⟨hne, h⟩
    obtain ⟨c, u, rfl⟩ := List.exists_cons_of_ne_nil hne
    rw [List.forall_mem_cons] at h
    exact ⟨[c], singleton_mem_single.2 h.1, u, mem_kstar_single.2 h.2, rfl⟩

/-! ### Edges -/

/-- The texts of one character that an edge admits. -/
def Edge.texts (e : Edge) : Language Char := single fun c => e.admits c = true

/-- No range of one edge meets a range of the other. -/
def Edge.Apart (e e' : Edge) : Prop :=
  ∀ r ∈ e.ranges, ∀ r' ∈ e'.ranges, r.2 < r'.1 ∨ r'.2 < r.1

instance (e e' : Edge) : Decidable (Edge.Apart e e') :=
  inferInstanceAs (Decidable (∀ r ∈ e.ranges, ∀ r' ∈ e'.ranges, r.2 < r'.1 ∨ r'.2 < r.1))

theorem Edge.admits_iff {e : Edge} {c : Char} :
    e.admits c = true ↔ ∃ r ∈ e.ranges, r.1 ≤ c ∧ c ≤ r.2 := by
  simp [admits]

theorem Edge.Apart.not_admits {e e' : Edge} (h : e.Apart e') {c : Char} (hc : e.admits c = true) :
    e'.admits c = false := by
  rw [Bool.eq_false_iff]
  intro hc'
  obtain ⟨r, hr, hlo, hhi⟩ := admits_iff.1 hc
  obtain ⟨r', hr', hlo', hhi'⟩ := admits_iff.1 hc'
  rcases h r hr r' hr' with hlt | hlt
  · exact absurd hlt (Char.not_lt.2 (Char.le_trans hlo' hhi))
  · exact absurd hlt (Char.not_lt.2 (Char.le_trans hlo hhi'))

/-- Where no two edges meet, every edge that admits a character is the one that is taken. -/
theorem AutomatonState.step_of_admits {st : AutomatonState} (hapart : st.edges.Pairwise Edge.Apart)
    {e : Edge} (he : e ∈ st.edges) {c : Char} (hc : e.admits c = true) :
    st.step c = some e.target := by
  rw [step]
  generalize st.edges = edges at hapart he
  induction edges with
  | nil => cases he
  | cons first later ih =>
    rw [List.pairwise_cons] at hapart
    rcases List.mem_cons.1 he with rfl | hlater
    · rw [List.find?_cons_of_pos (p := fun e : Edge => e.admits c) hc]
      rfl
    · have hfirst : first.admits c ≠ true := fun hadmits => by
        rw [(hapart.1 e hlater).not_admits hadmits] at hc
        cases hc
      rw [List.find?_cons_of_neg (p := fun e : Edge => e.admits c) hfirst]
      exact ih hapart.2 hlater

namespace Automaton

variable {a : Automaton} {s s' s'' : StateId} {u v w : List Char} {c : Char}

theorem exists_edge (h : a.step s c = some s') : ∃ st e, a.state? s = some st ∧ e ∈ st.edges ∧
    e.admits c = true ∧ e.target = s' := by
  obtain ⟨st, hst, hstep⟩ := Option.bind_eq_some_iff.1 h
  obtain ⟨e, he, htarget⟩ := Option.map_eq_some_iff.1 hstep
  have hadmits := List.find?_some (p := fun e : Edge => e.admits c) he
  exact ⟨st, e, hst, List.mem_of_find?_eq_some he, hadmits, htarget⟩

/-! ### Paths -/

/-- The state that a text leads to. -/
def path (a : Automaton) (s : StateId) (w : List Char) : Option StateId := w.foldlM a.step s

theorem path_nil : a.path s [] = some s := rfl

theorem path_cons : a.path s (c :: w) = (a.step s c).bind fun s' => a.path s' w := List.foldlM_cons

theorem path_append_iff : a.path s (u ++ v) = some s'' ↔
    ∃ s', a.path s u = some s' ∧ a.path s' v = some s'' := by
  rw [path, List.foldlM_append]
  exact Option.bind_eq_some_iff

theorem path_singleton : a.path s [c] = a.step s c := by
  rw [path_cons]
  exact Option.bind_fun_some (a.step s c)

/-- The automaton cannot read on. -/
def Stuck (a : Automaton) (s : StateId) (v : List Char) : Prop := ∀ c ∈ v.head?, a.step s c = none

theorem stuck_nil : a.Stuck s [] := by
  rintro c ⟨⟩

/-- Every text can be read up to where the automaton is stuck. -/
theorem exists_path (a : Automaton) :
    ∀ (s : StateId) (input : List Char), ∃ u v s', u ++ v = input ∧
    a.path s u = some s' ∧ a.Stuck s' v
  | s, [] => ⟨[], [], s, rfl, rfl, stuck_nil⟩
  | s, c :: rest => by
    cases hstep : a.step s c with
    | none =>
      refine ⟨[], c :: rest, s, rfl, rfl, ?_⟩
      rintro d ⟨⟩
      exact hstep
    | some s' =>
      obtain ⟨u, v, s'', rfl, hpath, hstuck⟩ := exists_path a s' rest
      refine ⟨c :: u, v, s'', rfl, ?_, hstuck⟩
      rw [path_cons, hstep]
      exact hpath

/-- A walk takes what leads to where it is stuck. -/
theorem walk_of_path : ∀ {s : StateId} {u taken : List Char}, a.path s u = some s' → a.Stuck s' v →
    a.walk s taken (u ++ v) = (s', taken.reverse ++ u, v)
  | s, [], taken, hpath, hstuck => by
    obtain rfl : s = s' := Option.some.inj hpath
    cases v with
    | nil => simp [walk]
    | cons c v => simp [walk, hstuck c rfl]
  | s, c :: u, taken, hpath, hstuck => by
    rw [path_cons] at hpath
    obtain ⟨s₁, hstep, hrest⟩ := Option.bind_eq_some_iff.1 hpath
    rw [List.cons_append, walk, hstep]
    dsimp only
    rw [walk_of_path hrest hstuck, List.reverse_cons, List.append_assoc, List.singleton_append]

/-! ### The texts of a state -/

/-- The texts that lead to a state. -/
def reached (a : Automaton) (s : StateId) : Language Char := {w | a.path a.initial w = some s}

theorem mem_reached : w ∈ a.reached s ↔ a.path a.initial w = some s := Iff.rfl

theorem one_le_reached : 1 ≤ a.reached a.initial := by
  rintro w rfl
  exact path_nil

/-- Whatever holds of the empty text, and along the edges, holds of all texts of a state. -/
theorem reached_le {l : StateId → Language Char} (hinitial : 1 ≤ l a.initial)
    (hedges : ∀ s st, a.state? s = some st → ∀ e ∈ st.edges, l s * e.texts ≤ l e.target)
    (s : StateId) : a.reached s ≤ l s := by
  intro w
  induction w using List.reverseRecOn generalizing s with
  | nil =>
    intro hw
    obtain rfl : a.initial = s := Option.some.inj hw
    exact hinitial (Language.nil_mem_one)
  | append_singleton w c ih =>
    intro hw
    obtain ⟨s', hpath, hstep⟩ := path_append_iff.1 (mem_reached.1 hw)
    rw [path_singleton] at hstep
    obtain ⟨st, e, hst, he, hadmits, rfl⟩ := exists_edge hstep
    exact hedges s' st hst e he (Language.append_mem_mul (ih s' hpath)
      (singleton_mem_single.2 hadmits))

/-- The characters of an edge lead from the texts of a state to the texts of the next one. -/
theorem reached_mul_le {st : AutomatonState} (hst : a.state? s = some st)
    (hapart : st.edges.Pairwise Edge.Apart) {e : Edge} (he : e ∈ st.edges) :
    a.reached s * e.texts ≤ a.reached e.target := by
  intro w hw
  obtain ⟨u, hu, v, hv, rfl⟩ := Language.mem_mul.1 hw
  obtain ⟨c, hc, rfl⟩ := hv
  refine path_append_iff.2 ⟨s, hu, ?_⟩
  rw [path_singleton, step, hst]
  exact AutomatonState.step_of_admits hapart he hc

end Automaton

/-! ### The first cut -/

/-- The symbol of a token that ends at a state of the automaton. -/
def Tables.kindAt (t : Tables) (s : StateId) : SymbolId :=
  ((t.automaton.state? s).bind AutomatonState.accept).getD t.error

namespace Cut

variable {t : Tables} {s : StateId} {u v : List Char}

/-- A token goes on to where the automaton is stuck. -/
theorem munch_eq (hu : u ∈ t.automaton.reached s) (hne : u ≠ []) (hstuck : t.automaton.Stuck s v) :
    munch t (u ++ v) = ⟨t.kindAt s, u, v⟩ := by
  rw [munch, Automaton.walk_of_path hu hstuck]
  obtain ⟨c, u, rfl⟩ := List.exists_cons_of_ne_nil hne
  rfl

/-- A character that the automaton cannot start with is an error. -/
theorem munch_stuck {c : Char} (hstuck : t.automaton.Stuck t.automaton.initial (c :: v)) :
    munch t (c :: v) = ⟨t.error, [c], v⟩ := by
  have hwalk : t.automaton.walk t.automaton.initial [] ([] ++ c :: v) = _ :=
    Automaton.walk_of_path Automaton.path_nil hstuck
  rw [List.nil_append] at hwalk
  rw [munch, hwalk]
  rfl

theorem extend_error {c : Cut} (h : c.symbol = t.error) : c.extend t = c := if_pos h

theorem extend_of_none {c : Cut} (h : t.blockEnd? c.symbol = none) : c.extend t = c := by
  rw [extend, h]
  exact ite_self c

end Cut

namespace TokenStream

variable {t : Tables} {source : String} {kind : SymbolId}

/-- A source is a single token exactly when the first cut takes all of it, and there is something to
take. -/
theorem tokenize_eq_iff (hends : EndsLast t) :
    tokenize t source = [⟨kind, source, .start⟩, ⟨t.endOfStream, "", Position.start.after source⟩] ↔
      source.toList ≠ [] ∧ Cut.first t source.toList = ⟨kind, source.toList, []⟩ := by
  rw [tokenize, ofSource]
  cases hchars : source.toList with
  | nil =>
    have hnext : (Scanner.ofSource source).next t =
        (⟨t.endOfStream, "", .start⟩, .ofSource source) := by
      rw [Scanner.next, Scanner.ofSource, hchars]
    rw [ofScanner_last (by rw [hnext]), tokens]
    simp
  | cons c cs =>
    have hsource : String.ofList (c :: cs) = source := by rw [← hchars, String.ofList_toList]
    have happend := Cut.lexeme_append_rest t (c :: cs)
    have hmore := hends.symbol_ne (s := .ofSource source)
      (by rw [Scanner.ofSource, hchars]; exact List.cons_ne_nil c cs)
    rcases hcut : Cut.first t (c :: cs) with ⟨symbol, lexeme, rest⟩
    have hnext : (Scanner.ofSource source).next t = (⟨symbol, String.ofList lexeme, .start⟩,
        ⟨source, rest, Position.start.after (String.ofList lexeme)⟩) := by
      rw [Scanner.next, Scanner.ofSource, hchars]
      simp only [hcut]
    rw [ofScanner_more hmore, hnext, tokens]
    rw [hcut] at happend
    constructor
    · intro h
      obtain ⟨htoken, -⟩ := List.cons.inj h
      obtain ⟨rfl, htext, -⟩ := Token.mk.inj htoken
      obtain rfl : lexeme = c :: cs := String.ofList_injective (htext.trans hsource.symm)
      obtain rfl : rest = [] := List.append_right_eq_self.1 happend
      exact ⟨List.cons_ne_nil c cs, rfl⟩
    · rintro ⟨-, hfirst⟩
      obtain ⟨rfl, rfl, rfl⟩ := Cut.mk.inj hfirst
      rw [hsource, ofScanner_last rfl]
      rfl

end TokenStream

end TableParser
