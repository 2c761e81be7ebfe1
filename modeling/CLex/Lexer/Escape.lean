import CLex.Lexer.Basic
import CLex.Text.Utf8

namespace CLex.Lexer

variable {σ : Type} [CharStream σ]

open LexM Character

/-- Whether a universal character name may denote `code`: no surrogate, and nothing below U+00A0 but
the dollar sign, the at sign and the grave accent. -/
def isUniversal (code : Int) : Bool :=
  !(0xD800 ≤ code && code ≤ 0xDFFF) &&
    (0xA0 ≤ code || code == 0x24 || code == 0x40 || code == 0x60)

/-- The UTF-8 bytes of a value. -/
def utf8Bytes (code : Int) : Except Failure (List UInt8) :=
  if code < 0 then .error .negativeByte
  else
    match Utf8.encode? code.toNat with
    | some bytes => .ok bytes
    | none => .error (.codePointTooLarge code.toNat)

/-- The UTF-8 bytes of a universal character name. -/
def universalBytes (code : Nat) : LexOn σ (List UInt8) :=
  match utf8Bytes code with
  | .ok bytes => pure bytes
  | .error f => throw f

/-- The value of a letter that escapes a control character or itself. -/
def simpleEscape? (c : UInt8) : Option Nat :=
  if c = byte '\'' ∨ c = byte '"' ∨ c = byte '?' ∨ c = byte '\\' then some c.toNat
  else if c = byte 'a' then some 0x07
  else if c = byte 'b' then some 0x08
  else if c = byte 'f' then some 0x0C
  else if c = byte 'n' then some 0x0A
  else if c = byte 'r' then some 0x0D
  else if c = byte 't' then some 0x09
  else if c = byte 'v' then some 0x0B
  else if c = byte 'e' then some 0x1B
  else none

/-- Up to `count` octal digits after those with the value `value`. -/
def octalDigits : (count value : Nat) → LexOn σ Nat
  | 0, value => pure value
  | count + 1, value => do
    match ← takeIf fun c => isOctalDigit c.toNat with
    | none => pure value
    | some c => octalDigits count (value * 8 + (c.toNat - 0x30))

def hexRound (value : Nat) : LexOn σ (Round Nat Nat) := do
  match ← takeIf fun c => (hexValue? c.toNat).isSome with
  | none => pure (.done value)
  | some c => pure (.again (value * 16 + (hexValue? c.toNat).getD 0))

theorem progress_hexRound : Progress (σ := σ) hexRound := by
  intro a lx b lx' h
  obtain ⟨d, lx₁, h₁, h₂⟩ := bind_eq_ok.1 h
  cases d with
  | none => simp [pure_eq_ok] at h₂
  | some d =>
    simp [pure_eq_ok] at h₂
    obtain ⟨-, rfl⟩ := h₂
    exact weight_takeIf_some h₁

/-- The digits after `\x`: one or more, as many as there are. -/
def hexDigits : LexOn σ Nat := do
  let start ← here 2
  match ← next? with
  | none => throw (.located (.invalidEscape "") start)
  | some c =>
    match hexValue? c.toNat with
    | none => throw (.located (.invalidEscape (text c)) start)
    | some value => loop hexRound progress_hexRound value

/-- Exactly `count` hexadecimal digits after those with the value `value`. -/
def universalDigits (start : Location) : (count value : Nat) → LexOn σ Nat
  | 0, value => pure value
  | count + 1, value => do
    match ← next? with
    | none => throw (.located (.invalidUniversal "(eof)") start)
    | some c =>
      match hexValue? c.toNat with
      | none => throw (.located (.invalidUniversal (text c)) start)
      | some d => universalDigits start count (value * 16 + d)

/-- The digits after `\u` or `\U`: `count` of them, for a code that such a name may denote. -/
def universalName (mark : Char) (count : Nat) : LexOn σ Nat := do
  let start ← here 2
  let code ← universalDigits start count 0
  if isUniversal code then pure code
  else
    throw (.located (.invalidUniversal (String.ofList ('\\' :: mark :: Numeral.hex count code)))
      start)

/-- The value of the escape sequence that goes on with `c`. An unknown escape stands for `c`. -/
def escapeFrom (start : Location) (c : UInt8) : LexOn σ Nat :=
  match simpleEscape? c with
  | some value => pure value
  | none =>
    if c = byte 'x' then hexDigits
    else if c = byte 'u' then universalName 'u' 4
    else if c = byte 'U' then universalName 'U' 8
    else if isOctalDigit c.toNat then octalDigits 2 (c.toNat - 0x30)
    else do
      warn start ("unknown escape character: \\" ++ text c)
      pure c.toNat

/-- The value of the escape sequence whose backslash has been read. -/
def escape : LexOn σ Nat := do
  let start ← here 1
  match ← next? with
  | none => do
    warn start "unknown escape character: \\"
    pure 0
  | some c => escapeFrom start c

theorem keeps_universalBytes (code : Nat) : Keeps (σ := σ) (universalBytes code) := by
  unfold universalBytes
  split
  · exact keeps_pure _
  · exact keeps_throw _

theorem keeps_octalDigits (count value : Nat) :
    Keeps (σ := σ) (octalDigits count value) := by
  induction count generalizing value with
  | zero => exact keeps_pure _
  | succ count ih =>
    refine (keeps_takeIf _).bind fun d => ?_
    cases d with
    | none => exact keeps_pure _
    | some d => exact ih _

theorem keeps_hexDigits : Keeps (σ := σ) hexDigits := by
  refine (keeps_here 2).bind fun start => keeps_next?.bind fun d => ?_
  cases d with
  | none => exact keeps_throw _
  | some d =>
    simp only
    split
    · exact keeps_throw _
    · refine keeps_loop (fun value => (keeps_takeIf _).bind fun e => ?_) _
      cases e <;> exact keeps_pure _

theorem keeps_universalDigits (start : Location) (count value : Nat) :
    Keeps (σ := σ) (universalDigits start count value) := by
  induction count generalizing value with
  | zero => exact keeps_pure _
  | succ count ih =>
    refine keeps_next?.bind fun d => ?_
    cases d with
    | none => exact keeps_throw _
    | some d =>
      simp only
      split
      · exact keeps_throw _
      · exact ih _

theorem keeps_universalName (mark : Char) (count : Nat) :
    Keeps (σ := σ) (universalName mark count) := by
  refine (keeps_here 2).bind fun start => (keeps_universalDigits start count 0).bind fun code => ?_
  split
  · exact keeps_pure _
  · exact keeps_throw _

theorem keeps_escapeFrom (start : Location) (c : UInt8) :
    Keeps (σ := σ) (escapeFrom start c) := by
  unfold escapeFrom
  split
  · exact keeps_pure _
  · split
    · exact keeps_hexDigits
    · split
      · exact keeps_universalName _ _
      · split
        · exact keeps_universalName _ _
        · split
          · exact keeps_octalDigits _ _
          · exact (keeps_warn _ _).bind fun _ => keeps_pure _

theorem keeps_escape : Keeps (σ := σ) escape := by
  refine (keeps_here 1).bind fun start => keeps_next?.bind fun d => ?_
  cases d with
  | none => exact (keeps_warn _ _).bind fun _ => keeps_pure _
  | some d => exact keeps_escapeFrom start d

end CLex.Lexer
