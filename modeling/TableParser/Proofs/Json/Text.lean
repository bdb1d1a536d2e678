import TableParser.Json.Record
import TableParser.Proofs.Text.Bytes
/-!
JSON strings and numbers read back.

Inside a string a character stands for itself, behind a backslash, or as its code, and whichever it
is can be told from its first byte or two. So the bytes between the quotes are passed over character
by character, and the escapes among them are replaced character by character.

    text                c         "         line feed   U+0001      é
    between the quotes  63        5C 22     5C 6E       \u0001      C3 A9
    escapes replaced    63        22        0A          01          C3 A9

A natural number is written without a leading zero, which is how a JSON number has to begin.

Main statements: `foldlM_quote`, `foldlM_repr` and `asNat?_nat`.
-/

namespace TableParser

/-! ### Bytes of texts -/

namespace Utf8

@[simp] theorem encode_append (s t : String) : encode (s ++ t) = encode s ++ encode t := by
  rw [encode, String.toList_append, List.flatMap_append]
  rfl

@[simp] theorem encode_empty : encode "" = [] := rfl

theorem encode_ofList (cs : List Char) :
    encode (String.ofList cs) = cs.flatMap String.utf8EncodeChar := by
  rw [encode, String.toList_ofList]

@[simp] theorem encode_toString (c : Char) : encode c.toString = String.utf8EncodeChar c := by
  rw [encode, Char.toString_eq_singleton, String.toList_singleton, List.flatMap_singleton]

/-- A character of one byte. -/
theorem utf8EncodeChar_of_lt {c : Char} (h : c.toNat < 0x80) :
    String.utf8EncodeChar c = [c.toNat.toUInt8] := by
  have hle : c.val.toNat ≤ 0x7f := Nat.le_of_lt_succ h
  rw [String.utf8EncodeChar, if_pos hle]
  rfl

/-- The bytes of any other character are no ASCII bytes. -/
theorem le_of_mem_utf8EncodeChar {c : Char} {b : UInt8} (h : 0x80 ≤ c.toNat)
    (hb : b ∈ String.utf8EncodeChar c) :
    0x80 ≤ b := by
  have hhigh : ∀ n k m : Nat, 0x80 ≤ m → m + k ≤ 0x100 → 0 < k →
      (0x80 : UInt8) ≤ UInt8.ofNat (n % k + m) := by
    intro n k m hm hk hpos
    have hlt := Nat.mod_lt n hpos
    have hsize : n % k + m < UInt8.size := Nat.lt_of_lt_of_le (by omega) hk
    rw [UInt8.le_iff_toNat_le, UInt8.toNat_ofNat_of_lt' hsize]
    exact Nat.le_trans hm (Nat.le_add_left ..)
  have hgt : ¬ c.val.toNat ≤ 0x7f := Nat.not_le.2 h
  rw [String.utf8EncodeChar, if_neg hgt] at hb
  split at hb <;> try split at hb
  all_goals
    simp only [List.mem_cons, List.not_mem_nil, or_false] at hb
    rcases hb with rfl | rfl | rfl | rfl <;> exact hhigh _ _ _ (by decide) (by decide) (by decide)

end Utf8

namespace Json

/-! ### Strings -/

/-- How a character stands between the quotes of a string. -/
inductive Stands (c : Char) : List UInt8 → Prop
  | short {e b : UInt8} : e ≠ 0x75 → shortEscape? e = some b → String.utf8EncodeChar c = [b] →
      Stands c [0x5C, e]
  | code {x y : UInt8} {u v : Nat} : hexDigit? x = some u → hexDigit? y = some v →
      u * 16 + v = c.toNat → c.toNat < 0x20 → Stands c [0x5C, 0x75, 0x30, 0x30, x, y]
  | plain : (∀ b ∈ String.utf8EncodeChar c, b ≠ 0x22 ∧ b ≠ 0x5C ∧ ¬ b < 0x20) →
      Stands c (String.utf8EncodeChar c)

/-- A hexadecimal digit is one byte, and read as what it stands for. -/
theorem hexDigit?_hexChar : ∀ n < 0x10,
    hexDigit? (hexChar n).toNat.toUInt8 = some n ∧ (hexChar n).toNat < 0x80 := by
  decide

theorem stands_escapeChar (c : Char) : Stands c (Utf8.encode (escapeChar c)) := by
  rw [escapeChar.eq_def]
  split
  · exact .short (e := 0x22) (by decide) rfl rfl
  · exact .short (e := 0x5C) (by decide) rfl rfl
  · exact .short (e := 0x62) (by decide) rfl rfl
  · exact .short (e := 0x66) (by decide) rfl rfl
  · exact .short (e := 0x6E) (by decide) rfl rfl
  · exact .short (e := 0x72) (by decide) rfl rfl
  · exact .short (e := 0x74) (by decide) rfl rfl
  · next hquote hbackslash _ _ _ _ _ =>
    split
    · next hlow =>
      obtain ⟨hfirst, hbyte⟩ := hexDigit?_hexChar (c.toNat / 16) (by omega)
      obtain ⟨hsecond, hbyte'⟩ := hexDigit?_hexChar (c.toNat % 16) (by omega)
      rw [Utf8.encode_append, Utf8.encode_append, Utf8.encode_toString, Utf8.encode_toString,
        Utf8.utf8EncodeChar_of_lt hbyte, Utf8.utf8EncodeChar_of_lt hbyte']
      exact .code hfirst hsecond (by omega) hlow
    · next hlow =>
      rw [Utf8.encode_toString]
      refine .plain fun b hb => ?_
      by_cases hascii : c.toNat < 0x80
      · rw [Utf8.utf8EncodeChar_of_lt hascii, List.mem_singleton] at hb
        subst hb
        have hsize : c.toNat < UInt8.size := Nat.lt_of_lt_of_le hascii (by decide)
        have hnat : c.toNat.toUInt8.toNat = c.toNat := UInt8.toNat_ofNat_of_lt' hsize
        refine ⟨fun h => hquote ?_, fun h => hbackslash ?_, fun h => hlow ?_⟩
        · exact Char.toNat_inj.1 (hnat.symm.trans (congrArg UInt8.toNat h))
        · exact Char.toNat_inj.1 (hnat.symm.trans (congrArg UInt8.toNat h))
        · exact hnat ▸ UInt8.lt_iff_toNat_lt.1 h
      · have hle := UInt8.le_iff_toNat_le.1 (Utf8.le_of_mem_utf8EncodeChar (Nat.not_lt.1 hascii) hb)
        refine ⟨?_, ?_, fun h => ?_⟩
        · rintro rfl
          exact absurd hle (by decide)
        · rintro rfl
          exact absurd hle (by decide)
        · exact absurd (Nat.lt_of_le_of_lt hle (UInt8.lt_iff_toNat_lt.1 h)) (by decide)

section Reading

variable {c : Char} {b : UInt8} {bytes raw : List UInt8} {words : List Lexeme}

theorem step_string : Reading.step ⟨words, .string raw⟩ b =
    if b = 0x22 then some ⟨.string (stringText raw.reverse) :: words, .between⟩
    else if b = 0x5C then some ⟨words, .escape (b :: raw)⟩
    else if b < 0x20 then none
    else some ⟨words, .string (b :: raw)⟩ := rfl

theorem step_escape : Reading.step ⟨words, .escape raw⟩ b =
    if b = 0x75 then some ⟨words, .unit 4 (b :: raw)⟩
    else if (shortEscape? b).isSome then some ⟨words, .string (b :: raw)⟩
    else none := rfl

theorem step_unit {missing n : Nat} (h : hexDigit? b = some n) :
    Reading.step ⟨words, .unit missing raw⟩ b =
    if missing ≤ 1 then some ⟨words, .string (b :: raw)⟩
    else some ⟨words, .unit (missing - 1) (b :: raw)⟩ := by
  rw [Reading.step, h]

/-- The bytes of a character stay between the quotes. -/
theorem Stands.foldlM_step (h : Stands c bytes) (words : List Lexeme) (raw : List UInt8) :
    bytes.foldlM Reading.step ⟨words, .string raw⟩ =
      some ⟨words, .string (bytes.reverse ++ raw)⟩ := by
  cases h with
  | short hunit he _ => simp [step_string, step_escape, hunit, he]
  | code hfirst hsecond _ _ =>
    have hzero : hexDigit? 0x30 = some 0 := rfl
    simp [step_string, step_escape, step_unit hzero, step_unit hfirst, step_unit hsecond]
  | plain hbytes =>
    generalize String.utf8EncodeChar c = bytes at hbytes
    induction bytes generalizing raw with
    | nil => rfl
    | cons b bytes ih =>
      obtain ⟨hquote, hbackslash, hcontrol⟩ := hbytes b List.mem_cons_self
      rw [List.foldlM_cons, step_string, if_neg hquote, if_neg hbackslash, if_neg hcontrol,
        List.reverse_cons, List.append_assoc]
      exact ih (b :: raw) fun b' hb' => hbytes b' (List.mem_cons_of_mem _ hb')

/-- The bytes of a character are replaced by its UTF-8 bytes. -/
theorem Stands.unescape (h : Stands c bytes) (done rest : List UInt8) :
    unescape done (bytes ++ rest) = unescape ((String.utf8EncodeChar c).reverse ++ done) rest := by
  cases h with
  | short hunit he hc =>
    rw [hc, List.cons_append, List.singleton_append,
      unescape.eq_3 _ _ _ fun _ _ _ _ _ hbad _ => hunit hbad, he]
    rfl
  | @code x y u v hfirst hsecond hcode hlow =>
    have hunit : hexUnit? 0x30 0x30 x y = some c.toNat := by
      have hzero : hexDigit? 0x30 = some 0 := rfl
      simp [hexUnit?, hzero, hfirst, hsecond, hcode]
    have hcontrol : c.toNat < 0xD800 ∨ 0xDFFF < c.toNat := .inl (Nat.lt_trans hlow (by decide))
    simp only [List.cons_append, List.nil_append]
    rw [unescape.eq_2, hunit]
    simp only [if_pos hcontrol, pushCode, Char.ofNat_toNat]
  | plain hbytes =>
    generalize String.utf8EncodeChar c = bytes at hbytes
    induction bytes generalizing done with
    | nil => rfl
    | cons b bytes ih =>
      have hbackslash := (hbytes b List.mem_cons_self).2.1
      rw [List.cons_append, unescape.eq_4 _ _ _ (fun _ _ _ _ _ hbad _ => hbackslash hbad)
        fun _ _ hbad _ => hbackslash hbad, List.reverse_cons, List.append_assoc]
      exact ih (b :: done) fun b' hb' => hbytes b' (List.mem_cons_of_mem _ hb')

/-- The bytes between the quotes of a text. -/
def rawText (s : String) : List UInt8 :=
  s.toList.flatMap fun c => Utf8.encode (escapeChar c)

theorem encode_quote (s : String) : Utf8.encode (quote s) = 0x22 :: (rawText s ++ [0x22]) := by
  have hfold : ∀ (cs : List Char) (out : String),
      Utf8.encode (cs.foldl (fun out c => out ++ escapeChar c) out) =
      Utf8.encode out ++ cs.flatMap fun c => Utf8.encode (escapeChar c) := by
    intro cs
    induction cs with
    | nil => intro out; rw [List.foldl_nil, List.flatMap_nil, List.append_nil]
    | cons c cs ih =>
      intro out
      rw [List.foldl_cons, ih, Utf8.encode_append, List.flatMap_cons, List.append_assoc]
  rw [quote, Utf8.encode_append, String.foldl_eq_foldl_toList, hfold]
  rfl

/-- The bytes between the quotes denote the text. -/
theorem stringText_rawText (s : String) : stringText (rawText s) = some s := by
  have hunescape : ∀ (cs : List Char) (done : List UInt8),
      unescape done (cs.flatMap fun c => Utf8.encode (escapeChar c)) =
        some (done.reverse ++ cs.flatMap String.utf8EncodeChar) := by
    intro cs
    induction cs with
    | nil => intro done; rw [List.flatMap_nil, List.flatMap_nil, unescape, List.append_nil]
    | cons c cs ih =>
      intro done
      rw [List.flatMap_cons, (stands_escapeChar c).unescape, ih, List.reverse_append,
        List.reverse_reverse, List.append_assoc, List.flatMap_cons]
  rw [stringText, rawText, hunescape, Option.bind_some, List.reverse_nil, List.nil_append]
  change String.fromUTF8? ⟨(Utf8.encode s).toArray⟩ = some s
  have hdecode := Utf8.decode_eq_ok.2 (Eq.refl (Utf8.encode s))
  rw [Utf8.decode] at hdecode
  split at hdecode
  · next hs =>
    rw [hs, Except.ok.inj hdecode]
  · cases hdecode

/-- A string is read as the text it was written for. -/
theorem foldlM_quote (s : String) (words : List Lexeme) :
    (Utf8.encode (quote s)).foldlM Reading.step ⟨words, .between⟩ =
      some ⟨.string (some s) :: words, .between⟩ := by
  have hraw : ∀ (cs : List Char) (raw : List UInt8),
      (cs.flatMap fun c => Utf8.encode (escapeChar c)).foldlM Reading.step ⟨words, .string raw⟩ =
        some ⟨words,
          .string ((cs.flatMap fun c => Utf8.encode (escapeChar c)).reverse ++ raw)⟩ := by
    intro cs
    induction cs with
    | nil => intro raw; rfl
    | cons c cs ih =>
      intro raw
      rw [List.flatMap_cons, List.foldlM_append, (stands_escapeChar c).foldlM_step,
        Option.bind_eq_bind, Option.bind_some, ih, List.reverse_append, List.append_assoc]
  have hopen : Reading.step ⟨words, .between⟩ 0x22 = some ⟨words, .string []⟩ := rfl
  rw [encode_quote, List.foldlM_cons, hopen, Option.bind_eq_bind, Option.bind_some,
    List.foldlM_append, rawText, hraw, Option.bind_eq_bind, Option.bind_some, List.append_nil,
    List.foldlM_cons, step_string, if_pos rfl, List.reverse_reverse]
  rw [← rawText, stringText_rawText]
  rfl

end Reading

/-! ### Numbers -/

section Numbers

variable {b : UInt8} {words : List Lexeme} {text : List UInt8} {part : NumberPart}

theorem step_number : Reading.step ⟨words, .number part text⟩ b =
    match part.step b with
    | some next => some ⟨words, .number next (b :: text)⟩
    | none =>
      if part.isWhole then Reading.start (.number (asciiText text) :: words) b else none := rfl

/-- The byte of a digit. -/
def digitByte (d : Nat) : UInt8 := (Nat.digitChar d).toNat.toUInt8

theorem step_digit : ∀ d < 10, NumberPart.step .digits (digitByte d) = some .digits := by
  decide

/-- A digit that is not zero starts a number. -/
theorem start_digit {d : Nat} (hpos : 0 < d) (hd : d < 10) (words : List Lexeme) :
    Reading.start words (digitByte d) = some ⟨words, .number .digits [digitByte d]⟩ := by
  obtain rfl | rfl | rfl | rfl | rfl | rfl | rfl | rfl | rfl :
    d = 1 ∨ d = 2 ∨ d = 3 ∨ d = 4 ∨ d = 5 ∨ d = 6 ∨ d = 7 ∨ d = 8 ∨ d = 9 := by omega
  all_goals rfl

/-- The bytes of a number are its digits. -/
theorem encode_repr (n : Nat) :
    Utf8.encode n.repr = (Nat.toDigits 10 n).map fun c => c.toNat.toUInt8 := by
  have hdigits : ∀ c ∈ Nat.toDigits 10 n, String.utf8EncodeChar c = [c.toNat.toUInt8] := by
    intro c hc
    have hdigit := Nat.isDigit_of_mem_toDigits (by decide) (by decide) hc
    exact Utf8.utf8EncodeChar_of_lt (Nat.lt_of_le_of_lt (Char.isDigit_iff_toNat.1 hdigit).2
      (by decide))
  rw [Nat.repr_eq_ofList_toDigits, Utf8.encode_ofList, List.flatMap_congr hdigits,
    List.map_eq_flatMap]

theorem encode_repr_of_lt {n : Nat} (h : n < 10) : Utf8.encode n.repr = [digitByte n] := by
  rw [encode_repr, Nat.toDigits_of_lt_base h]
  rfl

theorem encode_repr_of_le {n : Nat} (h : 10 ≤ n) :
    Utf8.encode n.repr = Utf8.encode (n / 10).repr ++ [digitByte (n % 10)] := by
  rw [encode_repr, encode_repr, Nat.toDigits_of_base_le (by decide) h, List.map_append]
  rfl

/-- A number that is not zero is read digit by digit. -/
theorem foldlM_digits (words : List Lexeme) (n : Nat) (hpos : 0 < n) :
    (Utf8.encode n.repr).foldlM Reading.step ⟨words, .between⟩ =
      some ⟨words, .number .digits (Utf8.encode n.repr).reverse⟩ := by
  induction n using Nat.strongRecOn with
  | ind n ih =>
    by_cases hlt : n < 10
    · have hstep : Reading.step ⟨words, .between⟩ (digitByte n) =
          some ⟨words, .number .digits [digitByte n]⟩ :=
        start_digit hpos hlt words
      rw [encode_repr_of_lt hlt, List.foldlM_cons, hstep]
      rfl
    · have hrest := ih (n / 10) (by omega) (by omega)
      rw [encode_repr_of_le (Nat.not_lt.1 hlt), List.foldlM_append, hrest, Option.bind_eq_bind,
        Option.bind_some, List.foldlM_cons, step_number, step_digit _ (Nat.mod_lt n (by decide)),
        List.reverse_append]
      rfl

/-- The text of the bytes of a number is the number. -/
theorem asciiText_repr (n : Nat) : asciiText (Utf8.encode n.repr).reverse = n.repr := by
  have hdigits : ∀ c ∈ Nat.toDigits 10 n, Char.ofNat c.toNat.toUInt8.toNat = c := by
    intro c hc
    have hdigit := Nat.isDigit_of_mem_toDigits (by decide) (by decide) hc
    have hlt : c.toNat < UInt8.size :=
      Nat.lt_of_le_of_lt (Char.isDigit_iff_toNat.1 hdigit).2 (by decide)
    rw [show c.toNat.toUInt8.toNat = c.toNat from UInt8.toNat_ofNat_of_lt' hlt, Char.ofNat_toNat]
  rw [asciiText, List.reverse_reverse, encode_repr, List.map_map, Nat.repr_eq_ofList_toDigits]
  exact congrArg String.ofList ((List.map_congr_left hdigits).trans (List.map_id _))

/-- After the bytes of a number the number is open, and may end. -/
theorem foldlM_repr (words : List Lexeme) (n : Nat) : ∃ part : NumberPart, part.isWhole = true ∧
    (Utf8.encode n.repr).foldlM Reading.step ⟨words, .between⟩ =
      some ⟨words, .number part (Utf8.encode n.repr).reverse⟩ := by
  rcases Nat.eq_zero_or_pos n with rfl | hpos
  · exact ⟨.zero, rfl, rfl⟩
  · exact ⟨.digits, rfl, foldlM_digits words n hpos⟩

/-- A written number is read as that number. -/
theorem asNat?_nat {bound n : Nat} (h : n < bound) : asNat? bound (.nat n) = some n := by
  have hall : n.repr.toList.all Char.isDigit = true := by
    rw [Nat.toList_repr, List.all_eq_true]
    exact fun c hc => Nat.isDigit_of_mem_toDigits (by decide) (by decide) hc
  have hvalue : n.repr.toList.foldl (fun n c => 10 * n + (c.toNat - 0x30)) 0 = n := by
    rw [Nat.toList_repr]
    exact Nat.ofDigitChars_eq_foldl.symm.trans Nat.ofDigitChars_ten_toDigits
  rw [nat, asNat?, if_pos hall]
  simp only [hvalue, if_pos h]

end Numbers

end Json

end TableParser
