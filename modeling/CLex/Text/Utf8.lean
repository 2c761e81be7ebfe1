/-!
UTF-8. `encode?` writes a code point, in up to four bytes; it covers every value that four bytes
can hold, whether or not Unicode assigns it. `decode` reads any bytes at all: well-formed sequences
give their characters, and each maximal ill-formed part gives one replacement character.
-/

namespace CLex.Utf8

/-- A continuation byte with the low six bits of `c`. -/
def continuation (c : Nat) : UInt8 :=
  UInt8.ofNat (0x80 + c % 0x40)

/-- The bytes of the value `c`, for values below `0x200000`. -/
def sequence (c : Nat) : List UInt8 :=
  if c < 0x80 then [UInt8.ofNat c]
  else if c < 0x800 then [UInt8.ofNat (0xC0 + c / 0x40), continuation c]
  else if c < 0x10000 then
    [UInt8.ofNat (0xE0 + c / 0x1000), continuation (c / 0x40), continuation c]
  else
    [UInt8.ofNat (0xF0 + c / 0x40000), continuation (c / 0x1000), continuation (c / 0x40),
      continuation c]

/-- The bytes of `c`, if four bytes can hold it. -/
def encode? (c : Nat) : Option (List UInt8) :=
  if c < 0x200000 then some (sequence c) else none

def encode (text : String) : List UInt8 :=
  text.toList.flatMap fun c => sequence c.toNat

/-- What the first byte of a sequence announces: the bits it contributes, the range of the byte
after it, and how many continuation bytes there are in all. -/
structure Lead where
  bits : Nat
  low : UInt8
  high : UInt8
  more : Nat

/-- The announcement of a first byte; `none` for a byte that starts no sequence. The range of the
second byte keeps out overlong forms, surrogates and values above U+10FFFF. -/
def lead? (b : UInt8) : Option Lead :=
  if b < 0x80 then some ⟨b.toNat, 0x80, 0xBF, 0⟩
  else if b < 0xC2 then none
  else if b < 0xE0 then some ⟨b.toNat - 0xC0, 0x80, 0xBF, 1⟩
  else if b = 0xE0 then some ⟨0, 0xA0, 0xBF, 2⟩
  else if b = 0xED then some ⟨13, 0x80, 0x9F, 2⟩
  else if b < 0xF0 then some ⟨b.toNat - 0xE0, 0x80, 0xBF, 2⟩
  else if b = 0xF0 then some ⟨0, 0x90, 0xBF, 3⟩
  else if b < 0xF4 then some ⟨b.toNat - 0xF0, 0x80, 0xBF, 3⟩
  else if b = 0xF4 then some ⟨4, 0x80, 0x8F, 3⟩
  else none

/-- Stands for bytes that form no character. -/
def replacement : Char := '\uFFFD'

/-- Reads `more` continuation bytes onto `bits`, the first of them between `low` and `high`. A byte
that does not fit is left for the next character. -/
def finish : (more : Nat) → (bits : Nat) → (low high : UInt8) → List UInt8 → Char × List UInt8
  | 0, bits, _, _, rest => (Char.ofNat bits, rest)
  | _ + 1, _, _, _, [] => (replacement, [])
  | more + 1, bits, low, high, b :: rest =>
    if low ≤ b ∧ b ≤ high then finish more (bits * 0x40 + b.toNat % 0x40) 0x80 0xBF rest
    else (replacement, b :: rest)

theorem finish_length_le (more bits : Nat) (low high : UInt8) (bytes : List UInt8) :
    (finish more bits low high bytes).2.length ≤ bytes.length := by
  induction more generalizing bits low high bytes with
  | zero => simp [finish]
  | succ more ih =>
    cases bytes with
    | nil => simp [finish]
    | cons b rest =>
      simp only [finish]
      split
      · exact Nat.le_succ_of_le (ih _ _ _ _)
      · simp

def decodeChars (bytes : List UInt8) : List Char :=
  match bytes with
  | [] => []
  | b :: rest =>
    match lead? b with
    | none => replacement :: decodeChars rest
    | some lead =>
      (finish lead.more lead.bits lead.low lead.high rest).1 ::
        decodeChars (finish lead.more lead.bits lead.low lead.high rest).2
termination_by bytes.length
decreasing_by
  · simp
  · exact Nat.lt_succ_of_le (finish_length_le _ _ _ _ _)

def decode (bytes : List UInt8) : String :=
  String.ofList (decodeChars bytes)

theorem toNat_ofNat {n : Nat} (pos : 0 < (Char.ofNat n).toNat) : (Char.ofNat n).toNat = n := by
  by_cases h : n.isValidChar
  · rw [Char.ofNat, dif_pos h]
    rfl
  · rw [Char.ofNat, dif_neg h] at pos
    exact absurd pos (by decide)

theorem finish_ne_ascii {c : Char} (pos : 0 < c.toNat) (ascii : c.toNat < 0x80)
    (more bits : Nat) (low high : UInt8) (bytes : List UInt8)
    (h : more = 0 ∧ 0x80 ≤ bits ∨ 1 ≤ more ∧ 2 ≤ bits ∨
      2 ≤ more ∧ (1 ≤ bits ∨ 0x90 ≤ low.toNat ∧ high.toNat ≤ 0xBF)) :
    (finish more bits low high bytes).1 ≠ c := by
  induction more generalizing bits low high bytes with
  | zero =>
    rintro rfl
    have : (Char.ofNat bits).toNat = bits := toNat_ofNat pos
    change (Char.ofNat bits).toNat < 0x80 at ascii
    omega
  | succ more ih =>
    have other : replacement ≠ c := by
      rintro rfl
      exact absurd ascii (by decide)
    cases bytes with
    | nil => exact other
    | cons b rest =>
      simp only [finish]
      split
      · next hb =>
        simp only [UInt8.le_iff_toNat_le] at hb
        apply ih
        omega
      · exact other

theorem lead?_of_not_ascii {b : UInt8} {lead : Lead} (hb : ¬ b < 0x80) (h : lead? b = some lead) :
    1 ≤ lead.more ∧ 2 ≤ lead.bits ∨
      2 ≤ lead.more ∧ (1 ≤ lead.bits ∨ 0x90 ≤ lead.low.toNat ∧ lead.high.toNat ≤ 0xBF) := by
  have toNat_ne : ∀ d : UInt8, b ≠ d → b.toNat ≠ d.toNat := fun d hd h =>
    hd (UInt8.toNat_inj.mp h)
  rw [lead?, if_neg hb] at h
  split at h
  · cases h
  · next h₁ =>
    rw [UInt8.lt_iff_toNat_lt, show (0xC2 : UInt8).toNat = 0xC2 from rfl] at h₁
    split at h
    · rw [← Option.some.inj h]
      exact Or.inl ⟨Nat.le_refl 1, by dsimp only; omega⟩
    · next h₂ =>
      rw [UInt8.lt_iff_toNat_lt, show (0xE0 : UInt8).toNat = 0xE0 from rfl] at h₂
      split at h
      · rw [← Option.some.inj h]
        exact Or.inr ⟨Nat.le_refl 2, Or.inr (by decide)⟩
      · next h₃ =>
        have h₃ : b.toNat ≠ 0xE0 := toNat_ne 0xE0 h₃
        split at h
        · rw [← Option.some.inj h]
          exact Or.inl (by decide)
        · split at h
          · rw [← Option.some.inj h]
            exact Or.inr ⟨Nat.le_refl 2, Or.inl (by dsimp only; omega)⟩
          · next h₄ =>
            rw [UInt8.lt_iff_toNat_lt, show (0xF0 : UInt8).toNat = 0xF0 from rfl] at h₄
            split at h
            · rw [← Option.some.inj h]
              exact Or.inr (by decide)
            · next h₅ =>
              have h₅ : b.toNat ≠ 0xF0 := toNat_ne 0xF0 h₅
              split at h
              · rw [← Option.some.inj h]
                exact Or.inr ⟨Nat.le_succ 2, Or.inl (by dsimp only; omega)⟩
              · split at h
                · rw [← Option.some.inj h]
                  exact Or.inl (by decide)
                · cases h

theorem head?_decodeChars_ne {c : Char} (pos : 0 < c.toNat) (ascii : c.toNat < 0x80) {b : UInt8}
    (hb : b.toNat ≠ c.toNat) (rest : List UInt8) : (decodeChars (b :: rest)).head? ≠ some c := by
  rw [decodeChars]
  split
  · rw [List.head?_cons, Ne, Option.some.injEq]
    rintro rfl
    exact absurd ascii (by decide)
  · next lead hlead =>
    rw [List.head?_cons, Ne, Option.some.injEq]
    by_cases hsingle : b < 0x80
    · simp only [lead?, hsingle, if_true, Option.some.injEq] at hlead
      subst hlead
      rintro rfl
      exact hb (toNat_ofNat pos).symm
    · exact finish_ne_ascii pos ascii _ _ _ _ _ (Or.inr (lead?_of_not_ascii hsingle hlead))

end CLex.Utf8
