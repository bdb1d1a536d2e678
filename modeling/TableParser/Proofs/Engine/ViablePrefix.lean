import TableParser.Proofs.Engine.Soundness
/-!
What is passed without an error can go on to a sentence.

A row of terminals is viable when it is the beginning of a sentence with the end of the stream after
it. As long as no error was reported, what an engine has passed is viable. The predictive engine has
on its stack what completes its derivation. The stack of the shift-reduce engine is a path of the
automaton, and a path can be completed when each state stands in the middle of a rule: the first
symbols of the right side lie on top, and with the rest of it after them they may be replaced by the
left side, which leaves a smaller path.

    Scalar Specifier      Scalar StatementTail      Statement           Config
                    └ Value                   └ (nothing)    └ Statements

Main statements: `Predictive.Tracks.isViable` and `ShiftReduce.Tracks.isViable`.
-/

namespace TableParser

/-! ### Viable rows of terminals -/

namespace Tables

variable {t : Tables} {α β : List SymbolId}

/-- A row of symbols derives a row of terminals. -/
def Yields (t : Tables) (α : List SymbolId) : Prop :=
  ∃ w, t.Derives α w ∧ ∀ s ∈ w, t.isNonTerminal s = false

/-- A row of terminals is the beginning of a sentence with the end of the stream after it. -/
def IsViable (t : Tables) (α : List SymbolId) : Prop :=
  ∃ w, t.IsSentence w ∧ α <+: w ++ [t.endOfStream]

theorem IsViable.of_prefix (h : t.IsViable β) (hα : α <+: β) : t.IsViable α := by
  obtain ⟨w, hw, hβ⟩ := h
  exact ⟨w, hw, hα.trans hβ⟩

theorem yields_terminal {s : SymbolId} (h : t.isNonTerminal s = false) : t.Yields [s] :=
  ⟨[s], .refl, by simpa using h⟩

/-- Symbols yield something if each of them does. -/
theorem yields_of_forall : ∀ {α : List SymbolId}, (∀ x ∈ α, t.Yields [x]) → t.Yields α
  | [], _ => ⟨[], .refl, by simp⟩
  | x :: α, h => by
    rw [List.forall_mem_cons] at h
    obtain ⟨v, hv, hterminal⟩ := h.1
    obtain ⟨w, hw, hterminal'⟩ := yields_of_forall h.2
    refine ⟨v ++ w, ?_, List.forall_mem_append.2 ⟨hterminal, hterminal'⟩⟩
    have hfirst : t.Derives (x :: α) (v ++ α) := by simpa using hv.context [] α
    have hlater : t.Derives (v ++ α) (v ++ w) := by simpa using hw.context v []
    exact hfirst.trans hlater

/-- A left side yields something if the symbols of the right side do. -/
theorem yields_of_rule {rule : RuleId} {r : Rule} (known : t.rule? rule = some r)
    (h : ∀ x ∈ r.rhs, t.Yields [x]) : t.Yields [r.lhs] := by
  obtain ⟨w, hw, hterminal⟩ := yields_of_forall h
  refine ⟨w, ?_, hterminal⟩
  have hrhs : t.Derives ([] ++ r.rhs ++ []) w := by simpa using hw
  exact hrhs.rewrite known

/-- The terminals at the front of what the start symbol derives are viable, as the rest yields
something. -/
theorem isViable_of_derives (h : t.Derives [t.start] (α ++ β))
    (hα : ∀ s ∈ α, t.isNonTerminal s = false) (hβ : t.Yields β) : t.IsViable α := by
  obtain ⟨w, hw, hterminal⟩ := hβ
  have hrest : t.Derives (α ++ β) (α ++ w) := by simpa using hw.context α []
  refine ⟨α ++ w, ⟨h.trans hrest, List.forall_mem_append.2 ⟨hα, hterminal⟩⟩, ?_⟩
  rw [List.append_assoc]
  exact List.prefix_append ..

end Tables

variable {t : Tables} {word : List SymbolId}

/-! ### The predictive engine -/

/-- What the predictive engine has passed without an error is viable. -/
theorem Predictive.Tracks.isViable {m : Predictive} (h : m.Tracks t word)
    (hword : ∀ s ∈ word, t.isNonTerminal s = false) (yields : ∀ x, t.Yields [x]) :
    ∃ passed, word = passed ++ m.input.word t ∧ t.IsViable passed := by
  obtain ⟨passed, rfl, hderives⟩ := h.derives
  exact ⟨passed, rfl, t.isViable_of_derives hderives (List.forall_mem_append.1 hword).1
    (t.yields_of_forall fun x _ => yields x)⟩

/-! ### The shift-reduce engine -/

namespace ShiftReduce

open ShiftReduceTable

variable {table : ShiftReduceTable} {es : List Arc} {rank : StateId → Nat} {worth : Nat}

/-- A table whose states stand in the middle of rules: over each state that can be on top, but for
the accepting one, lie the first symbols of a right side. With the left side in their place the path
is shorter, or the state on top is of smaller rank. -/
structure Completes (t : Tables) (table : ShiftReduceTable) (es : List Arc) (rank : StateId → Nat)
    (worth : Nat) : Prop where
  arcs : ∀ {s x s'}, table.Leads s x s' → (s, x, s') ∈ es
  stands : ∀ a ∈ es, (∃ b, table.action? a.2.2 b = some .accept) ∨
    ∃ rule r n, t.rule? rule = some r ∧
      SafeReduction table.initial table.goto? es a.2.2 ⟨r.lhs, r.rhs.take n⟩ ∧
      ∀ p ∈ backward es (r.rhs.take n).length a.2.2, ∀ target ∈ table.goto? (exposed a.2.2 p) r.lhs,
        rank target + worth < rank a.2.2 + worth * (r.rhs.take n).length

/-- A path can be completed to what the start symbol derives. -/
theorem Completes.derives (completes : Completes t table es rank worth)
    (consistent : Consistent t table es) {xs : List SymbolId} {s : StateId} {below : List StateId}
    (h : table.Spells xs (s :: below)) :
    ∃ β, t.Derives [t.start] (xs.reverse ++ β) := by
  induction hm : worth * xs.length + rank s using Nat.strongRecOn generalizing xs s below with
  | ind measure ih =>
    cases h with
    | start => exact ⟨[t.start], .refl⟩
    | @move xs s₁ below x s path leads =>
      have hpath := path.move leads
      rcases completes.stands _ (completes.arcs leads) with
        ⟨b, haccept⟩ | ⟨rule, r, n, known, safe, hlower⟩
      · rw [consistent.accept haccept hpath]
        exact ⟨[], .refl⟩
      · have hn := safe.length_le completes.arcs hpath
        obtain ⟨s₀, rest, target, hdrop, htake, hbelow, hgoto⟩ :=
          safe.of_spells completes.arcs hpath
        obtain ⟨p, hp, -, hstates⟩ := mem_backward completes.arcs hpath hn
        obtain ⟨rest', hrest⟩ := exposed_of_take (s := s) hstates hn
        rw [hdrop, List.cons.injEq] at hrest
        obtain ⟨rfl, rfl⟩ := hrest
        dsimp only at hlower htake hbelow hgoto
        have hlt := hlower p hp target hgoto
        -- the symbols below the right side are `ys`
        obtain ⟨ys, hys, hbelow⟩ : ∃ ys, x :: xs = (r.rhs.take n).reverse ++ ys ∧
            table.Spells ys (exposed s p :: rest) :=
          ⟨_, by rw [← htake, List.take_append_drop], hbelow⟩
        have hmeasure : worth * (r.lhs :: ys).length + rank target < measure := by
          rw [← hm, hys, List.length_append, List.length_reverse, List.length_cons, Nat.mul_succ,
            Nat.mul_add]
          omega
        obtain ⟨β, hβ⟩ := ih _ hmeasure (hbelow.move (.inr hgoto)) rfl
        have hrule : t.Derives [t.start] (ys.reverse ++ r.rhs ++ β) :=
          Tables.Derives.extend known (by simpa using hβ)
        refine ⟨r.rhs.drop n ++ β, ?_⟩
        have hsplit : (x :: xs).reverse ++ (r.rhs.drop n ++ β) = ys.reverse ++ r.rhs ++ β := calc
          (x :: xs).reverse ++ (r.rhs.drop n ++ β)
              = ys.reverse ++ (r.rhs.take n ++ r.rhs.drop n) ++ β := by
            rw [hys, List.reverse_append, List.reverse_reverse, List.append_assoc,
              List.append_assoc, List.append_assoc]
          _ = _ := by rw [List.take_append_drop]
        rw [hsplit]
        exact hrule

/-- What the shift-reduce engine has passed without an error is viable. -/
theorem Tracks.isViable {m : ShiftReduce} (completes : Completes t table es rank worth)
    (consistent : Consistent t table es) (h : m.Tracks t table word)
    (hword : ∀ s ∈ word, t.isNonTerminal s = false) (yields : ∀ x, t.Yields [x]) :
    ∃ passed, word = passed ++ m.input.word t ∧ t.IsViable passed := by
  obtain ⟨xs, passed, hspells, rfl, hderives⟩ := h.derives
  obtain ⟨s, below, hm⟩ := hspells.exists_top
  rw [hm] at hspells
  obtain ⟨β, hβ⟩ := completes.derives consistent hspells
  have hpassed : t.Derives (xs.reverse ++ β) (passed ++ β) := by simpa using hderives.context [] β
  exact ⟨passed, rfl, t.isViable_of_derives (hβ.trans hpassed) (List.forall_mem_append.1 hword).1
    (t.yields_of_forall fun x _ => yields x)⟩

end ShiftReduce

end TableParser
