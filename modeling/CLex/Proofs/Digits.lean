import CLex.Proofs.Scanning
import Mathlib.Data.Nat.Digits.Defs

namespace CLex

open Character Lexer LexM

namespace Numeral

def IsOctal (digits : List UInt8) : Prop :=
  ∀ d ∈ digits, isOctalDigit d.toNat = true

def IsHex (digits : List UInt8) : Prop :=
  ∀ d ∈ digits, (hexValue? d.toNat).isSome = true

instance (digits : List UInt8) : Decidable (IsOctal digits) :=
  inferInstanceAs (Decidable (∀ d ∈ digits, _))

instance (digits : List UInt8) : Decidable (IsHex digits) :=
  inferInstanceAs (Decidable (∀ d ∈ digits, _))

/-- The number that octal digits stand for, the first of them being the most significant. -/
def octalNumber (digits : List UInt8) : Nat :=
  Nat.ofDigits 8 (digits.map fun d => d.toNat - 0x30).reverse

/-- The number that hexadecimal digits stand for. -/
def hexNumber (digits : List UInt8) : Nat :=
  Nat.ofDigits 16 (digits.map fun d => (hexValue? d.toNat).getD 0).reverse

variable {d : UInt8} {digits : List UInt8}

theorem ofDigits_reverse_cons (base : Nat) (value : UInt8 → Nat) :
    Nat.ofDigits base ((d :: digits).map value).reverse =
      value d * base ^ digits.length + Nat.ofDigits base (digits.map value).reverse := by
  rw [List.map_cons, List.reverse_cons, Nat.ofDigits_append, Nat.ofDigits_singleton,
    List.length_reverse, List.length_map, Nat.add_comm, Nat.mul_comm]

theorem octalNumber_cons :
    octalNumber (d :: digits) = (d.toNat - 0x30) * 8 ^ digits.length + octalNumber digits :=
  ofDigits_reverse_cons 8 _

theorem hexNumber_cons :
    hexNumber (d :: digits) =
      (hexValue? d.toNat).getD 0 * 16 ^ digits.length + hexNumber digits :=
  ofDigits_reverse_cons 16 _

theorem IsHex.number_lt (h : IsHex digits) {count : Nat} (hcount : digits.length = count) :
    hexNumber digits < 16 ^ count := by
  have hlt := Nat.ofDigits_lt_base_pow_length (b := 16)
    (l := (digits.map fun d => (hexValue? d.toNat).getD 0).reverse) (by decide) ?_
  · rwa [List.length_reverse, List.length_map, hcount] at hlt
  · intro value hvalue
    rcases List.mem_map.mp (List.mem_reverse.mp hvalue) with ⟨d, hd, rfl⟩
    rcases Option.isSome_iff_exists.mp (h d hd) with ⟨n, hn⟩
    rw [hn]
    unfold hexValue? at hn
    split at hn
    · cases hn
      simp
      omega
    · split at hn
      · cases hn
        simp
        omega
      · split at hn
        · cases hn
          simp
          omega
        · cases hn

theorem IsOctal.head?_mark (h : IsOctal digits) (hne : digits ≠ []) (rest : List UInt8) :
    (digits ++ rest).head?.any (fun d => isUniversalMark d.toNat) = false := by
  cases digits with
  | nil => exact absurd rfl hne
  | cons d digits =>
      have hd := h d List.mem_cons_self
      simp only [isOctalDigit, Bool.and_eq_true, decide_eq_true_eq] at hd
      simp only [List.cons_append, List.head?_cons, Option.any_some, isUniversalMark,
        Bool.or_eq_false_iff, beq_eq_false_iff_ne]
      omega

theorem append_digit (value base digit count number : Nat) :
    value * base ^ (count + 1) + (digit * base ^ count + number) =
      (value * base + digit) * base ^ count + number := by
  rw [Nat.pow_succ', Nat.add_mul, Nat.mul_assoc, Nat.add_assoc]

end Numeral

namespace Outlook

open Numeral

variable {σ : Type} [CharStream σ] {O : Outlook σ} {digits rest : List UInt8}

theorem reads_octalDigits (hdigits : IsOctal digits) {count : Nat} (hcount : digits.length ≤ count)
    (hrest : digits.length < count → rest.head?.any (fun d => isOctalDigit d.toNat) = false)
    (value : Nat) :
    O.Reads (digits ++ rest) (octalDigits count value)
      (· = value * 8 ^ digits.length + octalNumber digits) rest := by
  induction digits generalizing count value with
  | nil =>
      cases count with
      | zero => exact reads_pure (by simp [octalNumber])
      | succ count =>
          refine (reads_takeIf_other (hrest (by simp))).bind_eq (reads_pure ?_)
          simp [octalNumber]
  | cons d digits ih =>
      rw [IsOctal, List.forall_mem_cons] at hdigits
      cases count with
      | zero => exact absurd hcount (by simp)
      | succ count =>
          rw [List.length_cons] at hcount hrest
          rw [octalNumber_cons, List.length_cons, append_digit]
          exact (reads_takeIf hdigits.1).bind_eq
            (ih hdigits.2 (by omega) (fun h => hrest (by omega)) _)

theorem reads_hexLoop (hdigits : IsHex digits)
    (hrest : rest.head?.any (fun d => (hexValue? d.toNat).isSome) = false) (value : Nat) :
    O.Reads (digits ++ rest) (loop hexRound progress_hexRound value)
      (· = value * 16 ^ digits.length + hexNumber digits) rest := by
  induction digits generalizing value with
  | nil =>
      rw [List.length_nil, Nat.pow_zero, Nat.mul_one]
      exact reads_loop_done ((reads_takeIf_other hrest).bind_eq (reads_pure rfl))
  | cons d digits ih =>
      rw [IsHex, List.forall_mem_cons] at hdigits
      rw [hexNumber_cons, List.length_cons, append_digit]
      exact reads_loop_again ((reads_takeIf hdigits.1).bind_eq (reads_pure rfl)) (ih hdigits.2 _)

theorem reads_universalDigits (hdigits : IsHex digits) (start : Location) (value : Nat) :
    O.Reads (digits ++ rest) (universalDigits start digits.length value)
      (· = value * 16 ^ digits.length + hexNumber digits) rest := by
  induction digits generalizing value with
  | nil => exact reads_pure (by simp [hexNumber])
  | cons d digits ih =>
      rw [IsHex, List.forall_mem_cons] at hdigits
      rcases Option.isSome_iff_exists.mp hdigits.1 with ⟨n, hn⟩
      rw [hexNumber_cons, hn, List.length_cons, append_digit]
      refine reads_next.bind_eq ?_
      dsimp only
      rw [hn]
      exact ih hdigits.2 _

theorem leads_escape {c : UInt8} {E : Failure → Lexer σ → Prop} {Q : Nat → Lexer σ → Prop}
    (h : ∀ start, Leads E (O.faces rest) (escapeFrom start c) Q) :
    Leads E (O.faces (c :: rest)) escape Q :=
  (reads_here 1).leads_bind fun start _ => reads_next.leads_bind_eq (h start)

theorem reads_escape {c : UInt8} {P : Nat → Prop}
    (h : ∀ start, O.Reads rest (escapeFrom start c) P digits) :
    O.Reads (c :: rest) escape P digits :=
  leads_escape h

theorem reads_escape_simple {c : UInt8} {value : Nat} (h : simpleEscape? c = some value) :
    O.Reads (c :: rest) escape (· = value) rest := by
  refine reads_escape fun start => ?_
  rw [escapeFrom, h]
  exact reads_pure rfl

theorem escapeFrom_octal {c : UInt8} (hc : isOctalDigit c.toNat = true) (start : Location) :
    escapeFrom (σ := σ) start c = octalDigits 2 (c.toNat - 0x30) := by
  have hmem : c ∈ bytes ['0', '1', '2', '3', '4', '5', '6', '7'] := by
    simp only [isOctalDigit, Bool.and_eq_true, decide_eq_true_eq] at hc
    have hall : ∀ n ≤ 0x37, 0x30 ≤ n →
        UInt8.ofNat n ∈ bytes ['0', '1', '2', '3', '4', '5', '6', '7'] := by
      decide
    rw [← UInt8.ofNat_toNat (x := c)]
    exact hall _ hc.2 hc.1
  rcases (by decide +kernel : ∀ c ∈ bytes ['0', '1', '2', '3', '4', '5', '6', '7'],
    simpleEscape? c = none ∧ c ≠ byte 'x' ∧ c ≠ byte 'u' ∧ c ≠ byte 'U') c hmem with
    ⟨hsimple, hx, hu, hU⟩
  rw [escapeFrom, hsimple]
  dsimp only
  rw [if_neg hx, if_neg hu, if_neg hU, if_pos hc]

theorem reads_escape_octal (hdigits : IsOctal digits) (hne : digits ≠ [])
    (hcount : digits.length ≤ 3)
    (hrest : digits.length < 3 → rest.head?.any (fun d => isOctalDigit d.toNat) = false) :
    O.Reads (digits ++ rest) escape (· = octalNumber digits) rest := by
  cases digits with
  | nil => exact absurd rfl hne
  | cons d digits =>
      rw [IsOctal, List.forall_mem_cons] at hdigits
      rw [List.length_cons] at hcount hrest
      refine reads_escape fun start => ?_
      rw [escapeFrom_octal hdigits.1, octalNumber_cons]
      exact reads_octalDigits hdigits.2 (by omega) (fun h => hrest (by omega)) _

theorem reads_escape_hex (hdigits : IsHex digits) (hne : digits ≠ [])
    (hrest : rest.head?.any (fun d => (hexValue? d.toNat).isSome) = false) :
    O.Reads (byte 'x' :: (digits ++ rest)) escape (· = hexNumber digits) rest := by
  refine reads_escape fun start => ?_
  rw [escapeFrom, show simpleEscape? (byte 'x') = none by decide]
  dsimp only
  rw [if_pos rfl]
  cases digits with
  | nil => exact absurd rfl hne
  | cons d digits =>
      rw [IsHex, List.forall_mem_cons] at hdigits
      rcases Option.isSome_iff_exists.mp hdigits.1 with ⟨n, hn⟩
      refine (reads_here 2).bind fun start _ => reads_next.bind_eq ?_
      dsimp only
      rw [hn, hexNumber_cons, hn]
      exact reads_hexLoop hdigits.2 hrest n

theorem reads_universalName (mark : Char) (hdigits : IsHex digits)
    (huniversal : isUniversal (hexNumber digits) = true) :
    O.Reads (digits ++ rest) (universalName mark digits.length) (· = hexNumber digits) rest := by
  refine (reads_here 2).bind fun start _ => (reads_universalDigits hdigits start 0).bind_eq ?_
  rw [Nat.zero_mul, Nat.zero_add, if_pos huniversal]
  exact reads_pure rfl

theorem fails_universalName (mark : Char) (hdigits : IsHex digits)
    (huniversal : isUniversal (hexNumber digits) = false) :
    O.Fails (digits ++ rest) (universalName mark digits.length)
      (.invalidUniversal
        (String.ofList ('\\' :: mark :: Numeral.hex digits.length (hexNumber digits)))) := by
  refine (reads_here 2).bind_fails fun start _ =>
    (reads_universalDigits hdigits start 0).bind_fails_eq ?_
  rw [Nat.zero_mul, Nat.zero_add, if_neg (by rw [huniversal]; decide)]
  exact fails_throw start

theorem escapeFrom_universal (start : Location) :
    escapeFrom (σ := σ) start (byte 'u') = universalName 'u' 4 := by
  rw [escapeFrom, show simpleEscape? (byte 'u') = none by decide]
  dsimp only
  rw [if_neg (by decide), if_pos rfl]

theorem reads_escape_universal (hdigits : IsHex digits) (hcount : digits.length = 4)
    (huniversal : isUniversal (hexNumber digits) = true) :
    O.Reads (byte 'u' :: (digits ++ rest)) escape (· = hexNumber digits) rest := by
  refine reads_escape fun start => ?_
  rw [escapeFrom_universal, ← hcount]
  exact reads_universalName 'u' hdigits huniversal

theorem fails_escape_universal (hdigits : IsHex digits) (hcount : digits.length = 4)
    (huniversal : isUniversal (hexNumber digits) = false) :
    O.Fails (byte 'u' :: (digits ++ rest)) escape
      (.invalidUniversal (String.ofList ('\\' :: 'u' :: Numeral.hex 4 (hexNumber digits)))) := by
  refine leads_escape fun start => ?_
  rw [escapeFrom_universal, ← hcount]
  exact fails_universalName 'u' hdigits huniversal

theorem reads_escape_universal_long (hdigits : IsHex digits) (hcount : digits.length = 8)
    (huniversal : isUniversal (hexNumber digits) = true) :
    O.Reads (byte 'U' :: (digits ++ rest)) escape (· = hexNumber digits) rest := by
  refine reads_escape fun start => ?_
  rw [escapeFrom, show simpleEscape? (byte 'U') = none by decide]
  dsimp only
  rw [if_neg (by decide), if_neg (by decide), if_pos rfl, ← hcount]
  exact reads_universalName 'U' hdigits huniversal

theorem reads_universalBytes {n : Nat} (h : n < 0x200000) :
    O.Reads rest (universalBytes n) (· = Utf8.sequence n) rest := by
  have hbytes : universalBytes (σ := σ) n = pure (Utf8.sequence n) := by
    rw [universalBytes, utf8Bytes, if_neg (by omega), Int.toNat_natCast, Utf8.encode?, if_pos h]
  rw [hbytes]
  exact reads_pure rfl

end Outlook

end CLex
