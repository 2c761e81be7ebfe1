import CLex.Character
import CLex.Text.Utf8
import Mathlib.Data.List.Basic
import Mathlib.Tactic.IntervalCases

namespace CLex.Utf8

open Character

theorem encode_ofList (cs : List Char) :
    encode (String.ofList cs) = cs.flatMap fun c => sequence c.toNat := by
  rw [encode, String.toList_ofList]

theorem encode_append (a b : String) : encode (a ++ b) = encode a ++ encode b := by
  rw [encode, String.toList_append, List.flatMap_append]
  rfl

theorem sequence_ascii {c : Char} (h : c.toNat < 0x80) : sequence c.toNat = [byte c] := by
  rw [sequence, if_pos h]
  rfl

theorem encode_ascii {cs : List Char} (h : ∀ c ∈ cs, c.toNat < 0x80) :
    encode (String.ofList cs) = bytes cs := by
  rw [encode_ofList, bytes, List.map_eq_flatMap]
  exact List.flatMap_congr fun c hc => sequence_ascii (h c hc)

theorem byte_ofNat {n : Nat} (h : n < 0x80) : byte (Char.ofNat n) = UInt8.ofNat n :=
  (by decide +kernel : ∀ n < 0x80, byte (Char.ofNat n) = UInt8.ofNat n) n h

theorem toNat_byte {c : Char} (h : c.toNat < 0x80) : (byte c).toNat = c.toNat := by
  rw [← Char.ofNat_toNat c, byte_ofNat h, UInt8.toNat_ofNat', Char.ofNat_toNat]
  omega

theorem toNat_lt (c : Char) : c.toNat < 0x110000 := by
  rcases c.valid with h | h
  · exact Nat.lt_trans h (by decide)
  · exact h.2

theorem toNat_lt_encode (c : Char) : c.toNat < 0x200000 :=
  Nat.lt_trans (toNat_lt c) (by decide)

theorem le_of_mem_sequence {n : Nat} (h : 0x80 ≤ n) (hlt : n < 0x200000) {b : UInt8}
    (hb : b ∈ sequence n) : 0x80 ≤ b.toNat := by
  have hcontinuation : ∀ n, 0x80 ≤ (continuation n).toNat := by
    intro n
    rw [continuation, UInt8.toNat_ofNat']
    omega
  have hlead : ∀ n, 0x80 ≤ n → n < 0x100 → 0x80 ≤ (UInt8.ofNat n).toNat := by
    intro n h₁ h₂
    rwa [UInt8.toNat_ofNat', Nat.mod_eq_of_lt h₂]
  rw [sequence, if_neg (by omega)] at hb
  split at hb
  · rcases List.mem_cons.mp hb with rfl | hb
    · exact hlead _ (by omega) (by omega)
    · exact List.mem_singleton.mp hb ▸ hcontinuation _
  · split at hb
    · rcases List.mem_cons.mp hb with rfl | hb
      · exact hlead _ (by omega) (by omega)
      · rcases List.mem_cons.mp hb with rfl | hb
        · exact hcontinuation _
        · exact List.mem_singleton.mp hb ▸ hcontinuation _
    · rcases List.mem_cons.mp hb with rfl | hb
      · exact hlead _ (by omega) (by omega)
      · rcases List.mem_cons.mp hb with rfl | hb
        · exact hcontinuation _
        · rcases List.mem_cons.mp hb with rfl | hb
          · exact hcontinuation _
          · exact List.mem_singleton.mp hb ▸ hcontinuation _

theorem encode_textOf {cs : List UInt8} (h : ∀ c ∈ cs, c.toNat < 0x80) :
    encode (textOf cs) = cs := by
  have hchar : ∀ n < 0x80, (Char.ofNat n).toNat < 0x80 := by decide
  have hbyte : ∀ c ∈ cs, byte (Char.ofNat c.toNat) = c := fun c hc => by
    rw [byte_ofNat (h c hc), UInt8.ofNat_toNat]
  rw [textOf, encode_ascii (List.forall_mem_map.mpr fun c hc => hchar _ (h c hc)), bytes,
    List.map_map]
  exact (List.map_congr_left hbyte).trans (List.map_id cs)

theorem mem_of_mem_encode {text : String} {b : UInt8} (hb : b.toNat < 0x80)
    (h : b ∈ encode text) : Char.ofNat b.toNat ∈ text.toList := by
  rcases List.mem_flatMap.mp h with ⟨c, hc, hmem⟩
  by_cases hascii : c.toNat < 0x80
  · have hnat : b.toNat = c.toNat := by
      rw [sequence, if_pos hascii, List.mem_singleton] at hmem
      rw [hmem, UInt8.toNat_ofNat']
      omega
    rwa [hnat, Char.ofNat_toNat]
  · have hle := le_of_mem_sequence (Nat.le_of_not_lt hascii) (toNat_lt_encode c) hmem
    omega

theorem notMem_encode {text : String} {c : Char} (hascii : c.toNat < 0x80) (h : c ∉ text.toList) :
    byte c ∉ encode text := by
  intro hmem
  have hchar := mem_of_mem_encode (by rwa [toNat_byte hascii]) hmem
  rw [toNat_byte hascii, Char.ofNat_toNat] at hchar
  exact h hchar

theorem lead?_two {n : Nat} (h : n < 0x20) (hn : 2 ≤ n) :
    lead? (UInt8.ofNat (0xC0 + n)) = some ⟨n, 0x80, 0xBF, 1⟩ := by
  interval_cases n <;> rfl

theorem lead?_three {n : Nat} (h : n < 0x10) :
    lead? (UInt8.ofNat (0xE0 + n)) =
      some ⟨n, if n = 0 then 0xA0 else 0x80, if n = 0xD then 0x9F else 0xBF, 2⟩ := by
  interval_cases n <;> rfl

theorem lead?_four {n : Nat} (h : n < 5) :
    lead? (UInt8.ofNat (0xF0 + n)) =
      some ⟨n, if n = 0 then 0x90 else 0x80, if n = 4 then 0x8F else 0xBF, 3⟩ := by
  interval_cases n <;> rfl

theorem lead?_cases {b : UInt8} (hb : ¬ b < 0x80) :
    lead? b = none ∨ (∃ n, 2 ≤ n ∧ n < 0x20 ∧ b = UInt8.ofNat (0xC0 + n)) ∨
      (∃ n, n < 0x10 ∧ b = UInt8.ofNat (0xE0 + n)) ∨ ∃ n, n < 5 ∧ b = UInt8.ofNat (0xF0 + n) := by
  have hlt := b.toNat_lt
  rw [UInt8.lt_iff_toNat_lt, show (0x80 : UInt8).toNat = 0x80 from rfl] at hb
  have hof : ∀ k n, b.toNat = k + n → b = UInt8.ofNat (k + n) := fun k n h => by
    rw [← h, UInt8.ofNat_toNat]
  by_cases h₁ : b.toNat < 0xC2
  · have hnone : ∀ n < 0x42, lead? (UInt8.ofNat (0x80 + n)) = none := fun n hn => by
      interval_cases n <;> rfl
    exact Or.inl (hof 0x80 (b.toNat - 0x80) (by omega) ▸ hnone _ (by omega))
  · by_cases h₂ : b.toNat < 0xE0
    · exact Or.inr (Or.inl ⟨b.toNat - 0xC0, by omega, by omega, hof _ _ (by omega)⟩)
    · by_cases h₃ : b.toNat < 0xF0
      · exact Or.inr (Or.inr (Or.inl ⟨b.toNat - 0xE0, by omega, hof _ _ (by omega)⟩))
      · by_cases h₄ : b.toNat < 0xF5
        · exact Or.inr (Or.inr (Or.inr ⟨b.toNat - 0xF0, by omega, hof _ _ (by omega)⟩))
        · have hnone : ∀ n < 0xB, lead? (UInt8.ofNat (0xF5 + n)) = none := fun n hn => by
            interval_cases n <;> rfl
          exact Or.inl (hof 0xF5 (b.toNat - 0xF5) (by omega) ▸ hnone _ (by omega))

theorem finish_continuation {more bits m : Nat} {low high : UInt8} (rest : List UInt8)
    (hlow : low.toNat ≤ 0x80 + m % 0x40) (hhigh : 0x80 + m % 0x40 ≤ high.toNat) :
    finish (more + 1) bits low high (continuation m :: rest) =
      finish more (bits * 0x40 + m % 0x40) 0x80 0xBF rest := by
  have hbyte : (continuation m).toNat = 0x80 + m % 0x40 := by
    rw [continuation, UInt8.toNat_ofNat']
    omega
  rw [finish, if_pos ⟨UInt8.le_iff_toNat_le.mpr (hbyte ▸ hlow),
    UInt8.le_iff_toNat_le.mpr (hbyte ▸ hhigh)⟩, hbyte, Nat.add_mod]
  simp

theorem finish_more {more bits m : Nat} (rest : List UInt8) :
    finish (more + 1) bits 0x80 0xBF (continuation m :: rest) =
      finish more (bits * 0x40 + m % 0x40) 0x80 0xBF rest :=
  finish_continuation rest (Nat.le_add_right _ _)
    (show _ ≤ 0xBF by have := Nat.mod_lt m (show 0 < 0x40 by decide); omega)

theorem finish_done (c : Char) (low high : UInt8) (rest : List UInt8) :
    finish 0 c.toNat low high rest = (c, rest) := by
  rw [finish, Char.ofNat_toNat]

theorem decodeChars_cons {b : UInt8} {lead : Lead} (h : lead? b = some lead)
    {c : Char} {bytes rest : List UInt8}
    (hfinish : finish lead.more lead.bits lead.low lead.high bytes = (c, rest)) :
    decodeChars (b :: bytes) = c :: decodeChars rest := by
  rw [decodeChars, h]
  dsimp only
  rw [hfinish]

theorem decodeChars_sequence (c : Char) (rest : List UInt8) :
    decodeChars (sequence c.toNat ++ rest) = c :: decodeChars rest := by
  have hlt := toNat_lt c
  have hvalid : c.toNat < 0xD800 ∨ 0xDFFF < c.toNat ∧ c.toNat < 0x110000 := c.valid
  generalize hn : c.toNat = n at hlt hvalid
  have hdone : ∀ m, m = n → ∀ low high rest, finish 0 m low high rest = (c, rest) := by
    rintro m rfl low high rest
    rw [← hn, finish_done]
  unfold sequence
  split
  · next h =>
    have hlead : lead? (UInt8.ofNat n) = some ⟨n, 0x80, 0xBF, 0⟩ := by
      rw [lead?, if_pos, UInt8.toNat_ofNat', Nat.mod_eq_of_lt (by omega)]
      rw [UInt8.lt_iff_toNat_lt, UInt8.toNat_ofNat', Nat.mod_eq_of_lt (by omega)]
      exact h
    exact decodeChars_cons hlead (hdone n rfl _ _ _)
  · split
    · next h =>
      refine decodeChars_cons (lead?_two (n := n / 0x40) (by omega) (by omega)) ?_
      exact (finish_more _).trans (hdone _ (by dsimp only; omega) _ _ _)
    · split
      · next h =>
        refine decodeChars_cons (lead?_three (n := n / 0x1000) (by omega)) ?_
        -- The second byte keeps out what fewer bytes can write, and the surrogates.
        refine (finish_continuation _ ?_ ?_).trans
          ((finish_more _).trans (hdone _ (by dsimp only; omega) _ _ _))
        · dsimp only
          split
          · show 0xA0 ≤ _
            omega
          · show 0x80 ≤ _
            omega
        · dsimp only
          split
          · show _ ≤ 0x9F
            omega
          · show _ ≤ 0xBF
            omega
      · next h =>
        refine decodeChars_cons (lead?_four (n := n / 0x40000) (by omega)) ?_
        refine (finish_continuation _ ?_ ?_).trans
          ((finish_more _).trans ((finish_more _).trans (hdone _ (by dsimp only; omega) _ _ _)))
        · dsimp only
          split
          · show 0x90 ≤ _
            omega
          · show 0x80 ≤ _
            omega
        · dsimp only
          split
          · show _ ≤ 0x8F
            omega
          · show _ ≤ 0xBF
            omega

theorem decode_encode (text : String) : decode (encode text) = text := by
  have hchars : ∀ cs : List Char,
      decodeChars (cs.flatMap fun c => sequence c.toNat) = cs := by
    intro cs
    induction cs with
    | nil => rw [List.flatMap_nil, decodeChars]
    | cons c cs ih => rw [List.flatMap_cons, decodeChars_sequence, ih]
  rw [decode, encode, hchars, String.ofList_toList]

theorem le_finish (more bits : Nat) {low high : UInt8} (hlow : 0x80 ≤ low.toNat)
    (hhigh : high.toNat ≤ 0xBF)
    (h : ∀ v, (bits * 0x40 + (low.toNat - 0x80)) * 0x40 ^ more ≤ v →
      v < (bits * 0x40 + (high.toNat - 0x80) + 1) * 0x40 ^ more → 0x80 ≤ v ∧ v.isValidChar)
    (bytes : List UInt8) : 0x80 ≤ (finish (more + 1) bits low high bytes).1.toNat := by
  have other : 0x80 ≤ replacement.toNat := by decide
  induction more generalizing bits low high bytes with
  | zero =>
      cases bytes with
      | nil => exact other
      | cons b rest =>
          rw [finish]
          split
          · next hb =>
            simp only [UInt8.le_iff_toNat_le] at hb
            have hmod : b.toNat % 0x40 = b.toNat - 0x80 := by omega
            rcases h (bits * 0x40 + b.toNat % 0x40) (by omega) (by omega) with ⟨hle, hvalid⟩
            rw [finish, Char.ofNat, dif_pos hvalid]
            exact hle
          · exact other
  | succ more ih =>
      cases bytes with
      | nil => exact other
      | cons b rest =>
          rw [finish]
          split
          · next hb =>
            simp only [UInt8.le_iff_toNat_le] at hb
            have hmod : b.toNat % 0x40 = b.toNat - 0x80 := by omega
            refine ih _ (by decide) (by decide) (fun v h₁ h₂ => h v ?_ ?_) rest
            · refine Nat.le_trans ?_ h₁
              rw [Nat.pow_succ', ← Nat.mul_assoc]
              refine Nat.mul_le_mul_right _ ?_
              rw [show (0x80 : UInt8).toNat = 0x80 from rfl]
              omega
            · refine Nat.lt_of_lt_of_le h₂ ?_
              rw [Nat.pow_succ', ← Nat.mul_assoc]
              refine Nat.mul_le_mul_right _ ?_
              rw [show (0xBF : UInt8).toNat = 0xBF from rfl]
              omega
          · exact other

theorem toNat_ite (p : Prop) [Decidable p] (a b : UInt8) :
    p ∧ (if p then a else b).toNat = a.toNat ∨ ¬ p ∧ (if p then a else b).toNat = b.toNat := by
  by_cases hp : p
  · exact Or.inl ⟨hp, by rw [if_pos hp]⟩
  · exact Or.inr ⟨hp, by rw [if_neg hp]⟩

theorem le_finish_lead {b : UInt8} {lead : Lead} (hb : ¬ b < 0x80) (h : lead? b = some lead)
    (bytes : List UInt8) :
    0x80 ≤ (finish lead.more lead.bits lead.low lead.high bytes).1.toNat := by
  have hvalid : ∀ v, v < 0xD800 ∨ 0xDFFF < v ∧ v < 0x110000 → v.isValidChar := fun v hv => hv
  rcases lead?_cases hb with hnone | ⟨n, h₁, h₂, rfl⟩ | ⟨n, h₁, rfl⟩ | ⟨n, h₁, rfl⟩
  · rw [hnone] at h
    cases h
  · rw [lead?_two h₂ h₁] at h
    cases h
    have hlow : (0x80 : UInt8).toNat = 0x80 := rfl
    have hhigh : (0xBF : UInt8).toNat = 0xBF := rfl
    refine le_finish 0 n (by dsimp only; omega) (by dsimp only; omega) (fun v hle hlt => ?_) bytes
    dsimp only at hle hlt
    exact ⟨by omega, hvalid v (by omega)⟩
  · rw [lead?_three h₁] at h
    cases h
    have hlow : n = 0 ∧ (if n = 0 then 0xA0 else 0x80 : UInt8).toNat = 0xA0 ∨
        n ≠ 0 ∧ (if n = 0 then 0xA0 else 0x80 : UInt8).toNat = 0x80 := toNat_ite _ _ _
    have hhigh : n = 0xD ∧ (if n = 0xD then 0x9F else 0xBF : UInt8).toNat = 0x9F ∨
        n ≠ 0xD ∧ (if n = 0xD then 0x9F else 0xBF : UInt8).toNat = 0xBF := toNat_ite _ _ _
    refine le_finish 1 n (by dsimp only; omega) (by dsimp only; omega) (fun v hle hlt => ?_) bytes
    dsimp only at hle hlt
    exact ⟨by omega, hvalid v (by omega)⟩
  · rw [lead?_four h₁] at h
    cases h
    have hlow : n = 0 ∧ (if n = 0 then 0x90 else 0x80 : UInt8).toNat = 0x90 ∨
        n ≠ 0 ∧ (if n = 0 then 0x90 else 0x80 : UInt8).toNat = 0x80 := toNat_ite _ _ _
    have hhigh : n = 4 ∧ (if n = 4 then 0x8F else 0xBF : UInt8).toNat = 0x8F ∨
        n ≠ 4 ∧ (if n = 4 then 0x8F else 0xBF : UInt8).toNat = 0xBF := toNat_ite _ _ _
    refine le_finish 2 n (by dsimp only; omega) (by dsimp only; omega) (fun v hle hlt => ?_) bytes
    dsimp only at hle hlt
    exact ⟨by omega, hvalid v (by omega)⟩

theorem finish_suffix (more bits : Nat) (low high : UInt8) (bytes : List UInt8) :
    (finish more bits low high bytes).2 <:+ bytes := by
  induction more generalizing bits low high bytes with
  | zero => exact List.suffix_refl bytes
  | succ more ih =>
      cases bytes with
      | nil => exact List.suffix_refl []
      | cons b rest =>
          rw [finish]
          split
          · exact (ih _ _ _ rest).trans (List.suffix_cons b rest)
          · exact List.suffix_refl _

theorem decodeChars_ascii {b : UInt8} (hb : b < 0x80) (rest : List UInt8) :
    decodeChars (b :: rest) = Char.ofNat b.toNat :: decodeChars rest :=
  decodeChars_cons (show lead? b = some ⟨b.toNat, 0x80, 0xBF, 0⟩ by rw [lead?, if_pos hb]) rfl

theorem decodeChars_not_ascii {b : UInt8} (hb : ¬ b < 0x80) (rest : List UInt8) :
    ∃ c rest', decodeChars (b :: rest) = c :: decodeChars rest' ∧ 0x80 ≤ c.toNat ∧
      rest' <:+ rest := by
  rw [decodeChars]
  cases h : lead? b with
  | none => exact ⟨replacement, rest, rfl, by decide, List.suffix_refl rest⟩
  | some lead => exact ⟨_, _, rfl, le_finish_lead hb h rest, finish_suffix _ _ _ _ rest⟩

theorem ofNat_toNat_ascii {b : UInt8} (hb : b < 0x80) : (Char.ofNat b.toNat).toNat = b.toNat := by
  have hlt : b.toNat < 0x80 := UInt8.lt_iff_toNat_lt.mp hb
  rw [Char.ofNat, dif_pos (Or.inl (by omega))]
  rfl

theorem mem_decodeChars {bytes : List UInt8} {c : Char} (h : c ∈ decodeChars bytes) :
    0x80 ≤ c.toNat ∨ byte c ∈ bytes := by
  induction hn : bytes.length using Nat.strongRecOn generalizing bytes with
  | ind n ih =>
      subst hn
      cases bytes with
      | nil =>
          rw [decodeChars] at h
          cases h
      | cons b rest =>
          by_cases hb : b < 0x80
          · rw [decodeChars_ascii hb] at h
            rcases List.mem_cons.mp h with rfl | h
            · refine Or.inr (List.mem_cons.mpr (Or.inl ?_))
              rw [byte_ofNat (UInt8.lt_iff_toNat_lt.mp hb), UInt8.ofNat_toNat]
            · exact (ih _ (Nat.lt_succ_self _) h rfl).imp_right (List.mem_cons_of_mem b)
          · rcases decodeChars_not_ascii hb rest with ⟨d, rest', heq, hd, hsuffix⟩
            rw [heq] at h
            rcases List.mem_cons.mp h with rfl | h
            · exact Or.inl hd
            · exact (ih _ (Nat.lt_succ_of_le hsuffix.length_le) h rfl).imp_right fun hmem =>
                List.mem_cons_of_mem b (hsuffix.subset hmem)

theorem mem_encode_decode {bytes : List UInt8} {b : UInt8} (h : b ∈ encode (decode bytes)) :
    0x80 ≤ b.toNat ∨ b ∈ bytes := by
  rw [decode, encode_ofList] at h
  rcases List.mem_flatMap.mp h with ⟨c, hc, hb⟩
  by_cases hascii : c.toNat < 0x80
  · rw [sequence_ascii hascii, List.mem_singleton] at hb
    rcases mem_decodeChars hc with hle | hmem
    · omega
    · exact Or.inr (hb ▸ hmem)
  · exact Or.inl (le_of_mem_sequence (Nat.le_of_not_lt hascii) (toNat_lt_encode c) hb)

theorem sequence_ne_nil (n : Nat) : sequence n ≠ [] := by
  unfold sequence
  split
  · simp
  · split
    · simp
    · split
      · simp
      · simp

/-- Decoded and encoded again, a text begins with the same byte or outside ASCII. -/
theorem encode_decode_cons (b : UInt8) (bytes : List UInt8) :
    ∃ d rest, encode (decode (b :: bytes)) = d :: rest ∧
      (d = b ∨ ¬ b < 0x80 ∧ 0x80 ≤ d.toNat) := by
  rw [decode, encode_ofList]
  by_cases hb : b < 0x80
  · have hlt := UInt8.lt_iff_toNat_lt.mp hb
    rw [decodeChars_ascii hb, List.flatMap_cons,
      sequence_ascii ((ofNat_toNat_ascii hb).symm ▸ hlt), byte_ofNat hlt, UInt8.ofNat_toNat]
    exact ⟨b, _, rfl, Or.inl rfl⟩
  · rcases decodeChars_not_ascii hb bytes with ⟨c, rest', heq, hc, -⟩
    rw [heq, List.flatMap_cons]
    rcases List.exists_cons_of_ne_nil (sequence_ne_nil c.toNat) with ⟨d, w, hd⟩
    rw [hd]
    have hle := le_of_mem_sequence hc (toNat_lt_encode c) (hd ▸ List.mem_cons_self)
    exact ⟨d, _, rfl, Or.inr ⟨hb, hle⟩⟩

theorem eq_bytes_of_decodeChars {cs : List Char} (hascii : ∀ c ∈ cs, c.toNat < 0x80)
    {text : List UInt8} (h : decodeChars text = cs) : text = bytes cs := by
  induction cs generalizing text with
  | nil =>
      cases text with
      | nil => rfl
      | cons b rest =>
          by_cases hb : b < 0x80
          · rw [decodeChars_ascii hb] at h
            cases h
          · rcases decodeChars_not_ascii hb rest with ⟨_, _, heq, -⟩
            rw [heq] at h
            cases h
  | cons c cs ih =>
      have hc := hascii c List.mem_cons_self
      cases text with
      | nil =>
          rw [decodeChars] at h
          cases h
      | cons b rest =>
          by_cases hb : b < 0x80
          · rw [decodeChars_ascii hb] at h
            rcases List.cons.inj h with ⟨rfl, htail⟩
            rw [ih (fun d hd => hascii d (List.mem_cons_of_mem _ hd)) htail]
            simp only [bytes, List.map_cons, byte_ofNat (UInt8.lt_iff_toNat_lt.mp hb),
              UInt8.ofNat_toNat]
          · rcases decodeChars_not_ascii hb rest with ⟨d, _, heq, hd, -⟩
            rw [heq] at h
            rcases List.cons.inj h with ⟨rfl, -⟩
            omega

theorem eq_bytes_of_decode (cs : List Char) {text : List UInt8}
    (h : decode text = String.ofList cs) (hascii : ∀ c ∈ cs, c.toNat < 0x80) : text = bytes cs :=
  eq_bytes_of_decodeChars hascii (String.ofList_injective h)

end CLex.Utf8
