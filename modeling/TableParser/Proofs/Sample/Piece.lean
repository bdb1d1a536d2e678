import TableParser.Proofs.Script.Phrase
import TableParser.Sample.Source
/-!
What the pieces of a random document are, whatever the dice say.

A property holds of all that can be drawn if it holds for every state of the dice. It passes through
draws that follow one another like the weakest precondition of a program. The pieces of a token are
drawn one after the other, so their texts are in the product of the languages of the pieces.

Main statements: `draws_separator` and one for each kind of token, `draws_symbol` to `draws_string`.
-/

open Computability

namespace TableParser.Sample

open Script (IsBlank IsDigit IsNameStart IsNameRest comments gaps names operators whole decimal
  dated unit quoted)

variable {σ α β : Type} {d : Dice σ}

/-! ### Draws -/

/-- Whatever is drawn has a property. -/
def Always (g : Gen σ α) (P : α → Prop) : Prop := ∀ s, P (g s).1

section Always

variable {g : Gen σ α} {P Q : α → Prop}

theorem always_of_forall (h : ∀ a, P a) : Always g P := fun s => h (g s).1

theorem Always.imp (h : Always g P) (himp : ∀ a, P a → Q a) : Always g Q := fun s => himp _ (h s)

theorem always_pure {a : α} (h : P a) : Always (pure a : Gen σ α) P := fun _ => h

/-- What is drawn last has a property if, after anything that can be drawn first, it has. -/
theorem always_bind {f : α → Gen σ β} {R : β → Prop} (h : Always g fun a => Always (f a) R) :
    Always (g >>= f) R :=
  fun s => h s (g s).2

theorem always_oneOf {first : α} {more : List α} (h : ∀ a ∈ first :: more, P a) :
    Always (oneOf d first more) P :=
  always_bind (always_of_forall fun i => always_pure (h _ (List.get_mem (first :: more) i)))

end Always

section Texts

variable {piece : Gen σ String} {l m : Language Char} {p : Char → Prop}

/-- The texts that are drawn are in a language. -/
def Draws (g : Gen σ String) (l : Language Char) : Prop := Always g fun text => text.toList ∈ l

theorem Draws.mono (h : Draws piece l) (hle : l ≤ m) : Draws piece m := h.imp fun _ hmem => hle hmem

theorem draws_letter [DecidablePred p] {first : Char} {more : List Char}
    (h : (first :: more).all (p ·) = true) :
    Draws (letter d first more) (single p) := by
  refine always_bind ((always_oneOf (List.all_iff_forall_prop.1 h)).imp fun c hc => always_pure ?_)
  rw [Char.toString, String.toList_singleton]
  exact singleton_mem_single.2 hc

theorem toList_append_mem {a b : String} (ha : a.toList ∈ l) (hb : b.toList ∈ m) :
    (a ++ b).toList ∈ l * m := by
  rw [String.toList_append]
  exact Language.append_mem_mul ha hb

/-- A text that is drawn after another text. -/
theorem draws_append {out : String} (hout : out.toList ∈ l) (h : Draws piece m) :
    Draws (do return out ++ (← piece)) (l * m) :=
  always_bind (h.imp fun _ htext => always_pure (toList_append_mem hout htext))

/-- Pieces that are drawn one after the other, after a text. -/
theorem draws_repeated (h : Draws piece m) (n : Nat) {out : String} (hout : out.toList ∈ l) :
    Draws (repeated piece n out) (l * m∗) := by
  induction n generalizing l out with
  | zero => exact always_pure (le_mul_kstar hout)
  | succ n ih =>
    refine always_bind (h.imp fun text htext => (ih (toList_append_mem hout htext)).mono ?_)
    grw [mul_assoc, mul_kstar_le_kstar]

/-- At least one piece. -/
theorem draws_repeated_succ (h : Draws piece m) (n : Nat) :
    Draws (repeated piece (n + 1) "") (plus m) := by
  refine always_bind (h.imp fun text htext => ?_)
  rw [String.empty_append]
  exact draws_repeated h n htext

end Texts

/-! ### Tokens -/

theorem draws_separator : Draws (separator d) gaps := by
  refine always_bind (always_of_forall fun commented => ?_)
  split
  · refine always_bind (always_of_forall fun n => ?_)
    have hblank : [' '] ∈ plus (single IsBlank) := le_plus (singleton_mem_single.2 (by decide))
    have hstart : ['#', ' '] ∈ comments :=
      Language.append_mem_mul (a := ['#']) ⟨_, rfl, rfl⟩
        (mem_kstar_single.2 (List.forall_mem_singleton.2 (by decide)))
    have hopen : " # ".toList ∈ plus (single IsBlank) * comments :=
      Language.append_mem_mul hblank hstart
    have hline : plus (single IsBlank) * comments * (single (· ≠ '\n'))∗ ≤
        plus (single IsBlank) * comments := by
      refine mul_kstar_le_self ?_
      rw [mul_assoc]
      exact mul_le_mul_right mul_kstar_mul_le _
    have hletter : Draws (letter d 'a' smallLetters) (single (· ≠ '\n')) := draws_letter (by decide)
    refine always_bind ((draws_repeated hletter n.val hopen).imp fun text htext => always_pure ?_)
    exact .inr (toList_append_mem (hline htext) ⟨'\n', rfl, rfl⟩)
  · refine always_bind (always_of_forall fun n => ?_)
    exact (draws_repeated_succ (draws_letter (by decide)) n.val).mono le_self_add

theorem draws_specifier : Draws (specifier d) operators := by
  have hall : ∀ text ∈ ["=", "==", "<", ">", "<=", ">=", "!="], text.toList ∈ operators := fun _ =>
    List.mem_map_of_mem
  refine always_bind (always_of_forall fun double => ?_)
  split
  · refine always_bind (always_of_forall fun first => always_pure ?_)
    split
    · exact hall _ (by decide)
    · exact hall _ (by decide)
  · exact always_oneOf fun text htext => hall text (by revert text; decide)

theorem draws_symbol : Draws (symbol d) names := by
  have hstart : Draws (letter d 'a' nameStarts) (single IsNameStart) := draws_letter (by decide)
  have hrest : Draws (letter d 'a' nameLetters) (single IsNameRest) := draws_letter (by decide)
  refine always_bind (hstart.imp fun first hfirst => ?_)
  exact always_bind (always_of_forall fun n => draws_repeated hrest n.val hfirst)

theorem draws_digits (limit : Nat) [Bound limit] : Draws (digits d limit) (plus (single IsDigit)) :=
  always_bind (always_of_forall fun n => draws_repeated_succ (draws_letter (by decide)) n.val)

theorem draws_sign : Draws (sign d) (1 + single (· = '-')) := by
  refine always_bind (always_of_forall fun negative => always_pure ?_)
  split
  · exact .inr ⟨'-', rfl, rfl⟩
  · exact .inl rfl

theorem draws_integer : Draws (integer d) whole :=
  always_bind (draws_sign.imp fun _ hsign => draws_append hsign (draws_digits 9))

theorem point_mem : ".".toList ∈ single (· = '.') := ⟨'.', rfl, rfl⟩

theorem draws_real : Draws (real d) decimal := by
  refine always_bind (draws_sign.imp fun minus hminus => ?_)
  refine always_bind ((draws_digits 5).imp fun first hfirst => ?_)
  have hwhole : (minus ++ first).toList ∈ whole := toList_append_mem hminus hfirst
  exact draws_append (toList_append_mem hwhole point_mem) (draws_digits 5)

theorem draws_date : Draws (date d) dated := by
  refine always_bind ((draws_digits 4).imp fun year hyear => ?_)
  refine always_bind ((draws_digits 2).imp fun month hmonth => ?_)
  have hwhole : year.toList ∈ whole := Script.digits_mem_whole hyear
  have hdecimal : (year ++ "." ++ month).toList ∈ decimal :=
    toList_append_mem (toList_append_mem hwhole point_mem) hmonth
  exact draws_append (toList_append_mem hdecimal point_mem) (draws_digits 2)

theorem draws_textPiece : Draws (textPiece d) unit := by
  refine always_bind (always_of_forall fun n => ?_)
  split
  · exact always_pure (Script.mem_unit.2 (.inr ⟨'"', rfl⟩))
  · exact always_pure (Script.mem_unit.2 (.inr ⟨'\\', rfl⟩))
  · exact always_pure (Script.mem_unit.2 (.inl ⟨'\n', by decide, by decide, rfl⟩))
  · have hletter : Draws (letter d 'a' textLetters) (single fun c => c ≠ '"' ∧ c ≠ '\\') :=
      draws_letter (by decide)
    exact hletter.mono le_self_add

theorem draws_string : Draws (string d) quoted := by
  refine always_bind (always_of_forall fun n => ?_)
  have hopen : "\"".toList ∈ single (· = '"') := ⟨'"', rfl, rfl⟩
  refine always_bind ((draws_repeated draws_textPiece n.val hopen).imp fun text htext =>
    always_pure ?_)
  exact toList_append_mem htext ⟨'"', rfl, rfl⟩

end TableParser.Sample
