namespace CLex.Numeral

def digit (d : Nat) : Char :=
  if d < 10 then Char.ofNat (0x30 + d) else Char.ofNat (0x61 + (d - 10))

/-- The last `width` digits of `n`, most significant first. -/
def fixed (base : Nat) : (width : Nat) → (n : Nat) → List Char
  | 0, _ => []
  | width + 1, n => fixed base width (n / base) ++ [digit (n % base)]

theorem fixed_length (base width n : Nat) : (fixed base width n).length = width := by
  induction width generalizing n with
  | zero => rfl
  | succ width ih => simp [fixed, ih]

theorem mem_fixed {base width n : Nat} (pos : 0 < base) {c : Char} (h : c ∈ fixed base width n) :
    ∃ d < base, c = digit d := by
  induction width generalizing n with
  | zero => cases h
  | succ width ih =>
    rw [fixed, List.mem_append] at h
    rcases h with h | h
    · exact ih h
    · exact ⟨n % base, Nat.mod_lt n pos, List.mem_singleton.mp h⟩

/-- How many hexadecimal digits `n` needs. -/
def hexDigits (n : Nat) : Nat :=
  n.log2 / 4 + 1

/-- The hexadecimal numeral of `n`, padded with zeros to at least `width` digits. -/
def hex (width n : Nat) : List Char :=
  fixed 16 (max width (hexDigits n)) n

end CLex.Numeral
