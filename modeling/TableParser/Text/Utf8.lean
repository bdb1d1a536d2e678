/-!
UTF-8 text and the place where bytes stop being text.

`encode` and `decode` pass between texts and bytes. When bytes are no text, `fault` says where the
first bad character starts and how many bytes rule it out: a lead byte opens a character of two to
four bytes, the byte after it must lie in a range that depends on the lead, and the others are
continuation bytes.

    lead        second byte   bytes
    00 .. 7F                  1
    C2 .. DF    80 .. BF      2
    E0          A0 .. BF      3
    E1 .. EC    80 .. BF      3
    ED          80 .. 9F      3
    EE .. EF    80 .. BF      3
    F0          90 .. BF      4
    F1 .. F3    80 .. BF      4
    F4          80 .. 8F      4
-/

namespace TableParser.Utf8

/-- Why bytes are no text: the index where the bad character starts, and how many bytes show that
it is bad, or `none` when the bytes end inside it. -/
structure Fault where
  start : Nat
  length : Option Nat
  deriving DecidableEq, Repr

/-- The sentence that reports a fault. -/
def Fault.message (f : Fault) : String :=
  match f.length with
  | some n => s!"invalid utf-8 sequence of {n} bytes from index {f.start}"
  | none => s!"incomplete utf-8 byte sequence from index {f.start}"

/-- The bytes of a text, character by character. -/
def encode (s : String) : List UInt8 :=
  s.toList.flatMap String.utf8EncodeChar

/-- How many continuation bytes a lead byte asks for and the range of the first of them; `none` for
a byte that opens no character. -/
def continuation (lead : UInt8) : Option (Nat × UInt8 × UInt8) :=
  if lead < 0x80 then some (0, 0x80, 0xBF)
  else if lead < 0xC2 then none
  else if lead < 0xE0 then some (1, 0x80, 0xBF)
  else if lead = 0xE0 then some (2, 0xA0, 0xBF)
  else if lead = 0xED then some (2, 0x80, 0x9F)
  else if lead < 0xF0 then some (2, 0x80, 0xBF)
  else if lead = 0xF0 then some (3, 0x90, 0xBF)
  else if lead < 0xF4 then some (3, 0x80, 0xBF)
  else if lead = 0xF4 then some (3, 0x80, 0x8F)
  else none

/-- Where a reading of UTF-8 stands: the index where the open character started, the bytes of it
read so far, the continuation bytes it still needs and the range of the next one. -/
structure Cursor where
  start : Nat
  read : Nat
  missing : Nat
  low : UInt8
  high : UInt8

/-- Reads one byte; an error is the fault it shows. -/
def Cursor.step (c : Cursor) (b : UInt8) : Except Fault Cursor :=
  match c.missing with
  | 0 =>
    let start := c.start + c.read
    match continuation b with
    | some (missing, low, high) => .ok ⟨start, 1, missing, low, high⟩
    | none => .error ⟨start, some 1⟩
  | missing + 1 =>
    if c.low ≤ b ∧ b ≤ c.high then .ok ⟨c.start, c.read + 1, missing, 0x80, 0xBF⟩
    else .error ⟨c.start, some c.read⟩

/-- The first fault of the bytes; bytes without one give a fault past their end. -/
def fault (bytes : List UInt8) : Fault :=
  match bytes.foldlM Cursor.step ⟨0, 0, 0, 0x80, 0xBF⟩ with
  | .error f => f
  | .ok c => ⟨if c.missing = 0 then c.start + c.read else c.start, none⟩

/-- The text that the bytes spell, or their first fault. -/
def decode (bytes : List UInt8) : Except Fault String :=
  match String.fromUTF8? ⟨bytes.toArray⟩ with
  | some s => .ok s
  | none => .error (fault bytes)

end TableParser.Utf8
