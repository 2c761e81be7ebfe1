import CLex.Proofs.Digits
import CLex.Proofs.Transcoding

namespace CLex.Numeral

open Character

variable {base : Nat} (width n : Nat)

theorem length_bytes_fixed : (bytes (fixed base width n)).length = width := by
  rw [bytes, List.length_map, fixed_length]

theorem forall_bytes_fixed (pos : 0 < base) {P : UInt8 → Prop}
    (h : ∀ d < base, P (byte (digit d))) : ∀ b ∈ bytes (fixed base width n), P b := by
  intro b hb
  rcases List.mem_map.mp hb with ⟨c, hc, rfl⟩
  rcases mem_fixed pos hc with ⟨d, hd, rfl⟩
  exact h d hd

theorem ofDigits_fixed (pos : 0 < base) {value : UInt8 → Nat}
    (h : ∀ d < base, value (byte (digit d)) = d) :
    Nat.ofDigits base ((bytes (fixed base width n)).map value).reverse = n % base ^ width := by
  induction width generalizing n with
  | zero => simp [fixed, bytes, Nat.mod_one]
  | succ width ih =>
      have hlast : bytes (fixed base (width + 1) n) =
          bytes (fixed base width (n / base)) ++ [byte (digit (n % base))] :=
        List.map_append
      rw [hlast, List.map_append, List.reverse_append, List.map_singleton, List.reverse_singleton,
        List.singleton_append, Nat.ofDigits_cons, ih, h _ (Nat.mod_lt n pos), Nat.pow_succ',
        Nat.mod_mul]

theorem isOctal_fixed : IsOctal (bytes (fixed 8 width n)) :=
  forall_bytes_fixed width n (by decide) (by decide)

theorem isHex_fixed : IsHex (bytes (fixed 16 width n)) :=
  forall_bytes_fixed width n (by decide) (by decide)

variable {width n}

theorem octalNumber_fixed (h : n < 8 ^ width) : octalNumber (bytes (fixed 8 width n)) = n := by
  rw [octalNumber, ofDigits_fixed width n (by decide) (by decide), Nat.mod_eq_of_lt h]

theorem hexNumber_fixed (h : n < 16 ^ width) : hexNumber (bytes (fixed 16 width n)) = n := by
  rw [hexNumber, ofDigits_fixed width n (by decide) (by decide), Nat.mod_eq_of_lt h]

theorem hexDigits_le (pos : 0 < width) (h : n < 16 ^ width) :
    hexDigits n ≤ width := by
  by_cases hn : n = 0
  · subst hn
    exact pos
  · rw [show 16 = 2 ^ 4 from rfl, ← Nat.pow_mul] at h
    have := (Nat.log2_lt hn).mpr h
    rw [hexDigits]
    omega

end CLex.Numeral

namespace CLex.Outlook

open LexM Character Lexer Literal Numeral

variable {σ : Type} [CharStream σ] {O : Outlook σ} {rest : List UInt8}

/-- Neither a control character nor outside ASCII. -/
def Printable (c : Char) : Prop :=
  0x20 ≤ c.toNat ∧ c.toNat < 0x7F

instance (c : Char) : Decidable (Printable c) :=
  inferInstanceAs (Decidable (_ ∧ _))

theorem printable_ofNat {n : Nat} (h : 0x20 ≤ n ∧ n < 0x7F) : Printable (Char.ofNat n) :=
  (by decide +kernel : ∀ n < 0x7F, 0x20 ≤ n → Printable (Char.ofNat n)) n h.2 h.1

theorem printable_fixed {base width n : Nat} (pos : 0 < base) (hbase : base ≤ 16) :
    ∀ c ∈ Numeral.fixed base width n, Printable c := by
  intro c hc
  rcases Numeral.mem_fixed pos hc with ⟨d, hd, rfl⟩
  exact (by decide : ∀ d < 16, Printable (Numeral.digit d)) d (Nat.lt_of_lt_of_le hd hbase)

/-- A byte stands for itself, takes an escape of one letter, or takes three octal digits. -/
inductive SpelledByte (b : UInt8) : List Char → Prop where
  | plain (hprint : 0x20 ≤ b.toNat ∧ b.toNat < 0x7F) (hquote : b ≠ doubleQuote)
      (hbackslash : b ≠ backslash) : SpelledByte b [Char.ofNat b.toNat]
  | short {c : Char} (hprint : Printable c) (hvalue : simpleEscape? (byte c) = some b.toNat)
      (hmark : isUniversalMark (byte c).toNat = false) : SpelledByte b ['\\', c]
  | octal : SpelledByte b ('\\' :: Numeral.fixed 8 3 b.toNat)

theorem spelledByte_spellByte (b : UInt8) : SpelledByte b (spellByte b) := by
  unfold spellByte
  split
  · next hb => exact .short (by decide) (hb ▸ by decide) (by decide)
  · next hquote =>
    split
    · next hb => exact .short (by decide) (hb ▸ by decide) (by decide)
    · next hbackslash =>
      split
      · next hb => exact .short (by decide) (hb ▸ by decide) (by decide)
      · split
        · next hb => exact .short (by decide) (hb ▸ by decide) (by decide)
        · split
          · next hb => exact .short (by decide) (hb ▸ by decide) (by decide)
          · split
            · next hb => exact .short (by decide) (hb ▸ by decide) (by decide)
            · split
              · next hb => exact .short (by decide) (hb ▸ by decide) (by decide)
              · split
                · next h =>
                  exact .plain ⟨UInt8.le_iff_toNat_le.mp h.1, UInt8.lt_iff_toNat_lt.mp h.2⟩ hquote
                    hbackslash
                · exact .octal

theorem printable_spellByte (b : UInt8) : ∀ c ∈ spellByte b, Printable c := by
  have hspelled := spelledByte_spellByte b
  generalize spellByte b = cs at hspelled
  cases hspelled with
  | plain hprint => exact List.forall_mem_singleton.mpr (printable_ofNat hprint)
  | short hprint =>
      exact List.forall_mem_cons.mpr ⟨by decide, List.forall_mem_singleton.mpr hprint⟩
  | octal =>
      exact List.forall_mem_cons.mpr ⟨by decide, printable_fixed (by decide) (by decide)⟩

theorem printable_spellString (content : List UInt8) :
    ∀ c ∈ spellString content, Printable c := by
  intro c hc
  rcases List.mem_flatMap.mp hc with ⟨b, -, hc⟩
  exact printable_spellByte b c hc

theorem reads_stringRound_close (content : List UInt8) :
    O.Reads (doubleQuote :: rest) (stringRound content) (· = .done content.reverse) rest :=
  reads_next.bind_eq (reads_pure rfl)

theorem reads_stringRound_plain {c : UInt8} (hquote : c ≠ doubleQuote) (hc : c ≠ backslash)
    (content : List UInt8) :
    O.Reads (c :: rest) (stringRound content) (· = .again (c :: content)) rest := by
  refine reads_next.bind_eq ?_
  dsimp only
  rw [if_neg hquote, if_neg hc]
  exact reads_pure rfl

theorem reads_stringRound_escape {text : List UInt8} {n : Nat}
    (hmark : text.head?.any (fun c => isUniversalMark c.toNat) = false)
    (h : O.Reads text escape (· = n) rest) (content : List UInt8) :
    O.Reads (backslash :: text) (stringRound content)
      (· = .again (UInt8.ofNat n :: content)) rest := by
  refine reads_next.bind_eq ?_
  dsimp only
  rw [if_neg (by decide), if_pos rfl]
  refine (reads_peekIs _).bind_eq (h.bind_eq ?_)
  rw [hmark]
  exact reads_pure rfl

/-- A byte of a string is read back from its spelling, whatever follows. -/
theorem reads_stringRound_spelled (b : UInt8) (content : List UInt8) :
    O.Reads (bytes (spellByte b) ++ rest) (stringRound content) (· = .again (b :: content))
      rest := by
  have hbyte : ∀ a, a = (.again (UInt8.ofNat b.toNat :: content) : Round _ (List UInt8)) →
      a = .again (b :: content) := by
    rintro _ rfl
    rw [UInt8.ofNat_toNat]
  have hspelled := spelledByte_spellByte b
  generalize spellByte b = cs at hspelled
  cases hspelled with
  | plain hprint hquote hbackslash =>
      rw [bytes, List.map_singleton, Utf8.byte_ofNat (Nat.lt_trans hprint.2 (by decide)),
        UInt8.ofNat_toNat]
      exact reads_stringRound_plain hquote hbackslash content
  | short _ hvalue hmark =>
      exact (reads_stringRound_escape (by exact hmark) (reads_escape_simple hvalue) content).mono
        hbyte
  | octal =>
      have hlt : b.toNat < 8 ^ 3 := Nat.lt_trans b.toNat_lt (by decide)
      have hlength : (bytes (fixed 8 3 b.toNat)).length = 3 := length_bytes_fixed 3 b.toNat
      have hne : bytes (fixed 8 3 b.toNat) ≠ [] := List.ne_nil_of_length_eq_add_one hlength
      have hoctal := isOctal_fixed 3 b.toNat
      refine (reads_stringRound_escape (hoctal.head?_mark hne rest)
        (reads_escape_octal hoctal hne (Nat.le_of_eq hlength) fun h => ?_) content).mono ?_
      · exact absurd hlength (Nat.ne_of_lt h)
      · rw [octalNumber_fixed hlt]
        exact hbyte

theorem reads_stringLiteral (content : List UInt8) (encoding : Encoding) :
    O.Reads (bytes (spellString content) ++ doubleQuote :: rest) (stringLiteral encoding)
      (fun t => t.gist = (.string content, encoding, false)) rest := by
  have loops : ∀ (content before : List UInt8),
      O.Reads (bytes (spellString content) ++ doubleQuote :: rest)
        (loop stringRound progress_stringRound before) (· = before.reverse ++ content) rest := by
    intro content
    induction content with
    | nil =>
        intro before
        rw [List.append_nil]
        exact reads_loop_done (reads_stringRound_close before)
    | cons b content ih =>
        intro before
        have hspell : bytes (spellString (b :: content)) ++ doubleQuote :: rest =
            bytes (spellByte b) ++ (bytes (spellString content) ++ doubleQuote :: rest) := by
          simp [bytes, spellString]
        rw [hspell]
        refine reads_loop_again (reads_stringRound_spelled b before) ((ih (b :: before)).mono ?_)
        rintro _ rfl
        simp
  exact (loops content []).bind_eq (reads_finish _ encoding)

/-- The number that the body of a character literal spells. -/
def charCode (value : Int) : Nat :=
  if value < 0 then (value % 0x100).toNat else value.toNat

/-- A number stands for itself, takes an escape of one letter, or takes hexadecimal digits. -/
inductive SpelledChar (code : Nat) : List Char → Prop where
  | plain (hprint : 0x20 ≤ code ∧ code < 0x7F) (hbackslash : code ≠ 0x5C) :
      SpelledChar code [Char.ofNat code]
  | short {c : Char} (hprint : Printable c) (hvalue : simpleEscape? (byte c) = some code) :
      SpelledChar code ['\\', c]
  | hex {width : Nat} (pos : 0 < width) (h : code < 16 ^ width) :
      SpelledChar code ('\\' :: 'x' :: Numeral.fixed 16 width code)
  | universal (huniversal : isUniversal code = true) (h : code < 16 ^ 4) :
      SpelledChar code ('\\' :: 'u' :: Numeral.fixed 16 4 code)
  | long (huniversal : isUniversal code = true) (h : code < 16 ^ 8) :
      SpelledChar code ('\\' :: 'U' :: Numeral.fixed 16 8 code)

theorem hex_eq_fixed {width n : Nat} (pos : 0 < width) (h : n < 16 ^ width) :
    Numeral.hex width n = Numeral.fixed 16 width n := by
  rw [Numeral.hex, Nat.max_eq_left (Numeral.hexDigits_le pos h)]

theorem spelledChar_spellChar {value : Int} (hsurrogate : ¬ (0xD800 ≤ value ∧ value ≤ 0xDFFF))
    (hmax : value ≤ 0xFFFFFFFF) : SpelledChar (charCode value) (spellChar value) := by
  have hcode : 0 ≤ value ∧ charCode value = value.toNat ∨
      value < 0 ∧ charCode value = (value % 0x100).toNat := by
    by_cases h : value < 0
    · exact Or.inr ⟨h, by rw [charCode, if_pos h]⟩
    · exact Or.inl ⟨by omega, by rw [charCode, if_neg h]⟩
  unfold spellChar
  split
  · next h => exact .short (by decide) (h ▸ by decide)
  · next hbackslash =>
    split
    · next h => exact .short (by decide) (h ▸ by decide)
    · split
      · next h =>
        rw [show value.toNat = charCode value by omega]
        exact .plain (by omega) (by omega)
      · dsimp only
        rw [← show charCode value = if value < 0 then (value % 0x100).toNat else value.toNat from
          rfl]
        have huniversal : 0xFF < charCode value → isUniversal (charCode value) = true := by
          intro h
          simp only [isUniversal, Bool.and_eq_true, Bool.not_eq_true', Bool.and_eq_false_iff,
            decide_eq_false_iff_not, Bool.or_eq_true, decide_eq_true_eq]
          omega
        split
        · rw [hex_eq_fixed (by decide) (by omega)]
          exact .hex (by decide) (by omega)
        · split
          · rw [hex_eq_fixed (by decide) (by omega)]
            exact .universal (huniversal (by omega)) (by omega)
          · rw [hex_eq_fixed (by decide) (by omega)]
            exact .long (huniversal (by omega)) (by omega)

theorem printable_escape {mark : Char} (hmark : Printable mark) (width n : Nat) :
    ∀ c ∈ '\\' :: mark :: Numeral.fixed 16 width n, Printable c := by
  refine List.forall_mem_cons.mpr ⟨by decide, List.forall_mem_cons.mpr ⟨hmark, ?_⟩⟩
  exact printable_fixed (by decide) (by decide)

theorem printable_spellChar (value : Int) : ∀ c ∈ spellChar value, Printable c := by
  unfold spellChar
  split
  · exact List.forall_mem_cons.mpr ⟨by decide, List.forall_mem_singleton.mpr (by decide)⟩
  · split
    · exact List.forall_mem_cons.mpr ⟨by decide, List.forall_mem_singleton.mpr (by decide)⟩
    · split
      · next h => exact List.forall_mem_singleton.mpr (printable_ofNat (by omega))
      · generalize (if value < 0 then (value % 0x100).toNat else value.toNat) = code
        dsimp only
        split
        · exact printable_escape (by decide : Printable 'x') _ _
        · split
          · exact printable_escape (by decide : Printable 'u') _ _
          · exact printable_escape (by decide : Printable 'U') _ _

theorem reads_literalValue (O : Outlook σ) (rest : List UInt8) {code : Nat} {cs : List Char}
    (h : SpelledChar code cs) :
    ∃ c more, bytes cs = c :: more ∧
      O.Reads (more ++ singleQuote :: rest) (literalValue c) (· = code) (singleQuote :: rest) := by
  have hescape : ∀ {text : List UInt8} {n : Nat},
      O.Reads text escape (· = n) (singleQuote :: rest) →
        O.Reads text (literalValue backslash) (· = n) (singleQuote :: rest) := by
    intro text n h
    rw [literalValue, if_pos rfl]
    exact h
  cases h with
  | plain hprint hbackslash =>
      have hnat : (UInt8.ofNat code).toNat = code := by
        rw [UInt8.toNat_ofNat']
        omega
      refine ⟨UInt8.ofNat code, [], ?_, ?_⟩
      · rw [bytes, List.map_singleton, Utf8.byte_ofNat (by omega)]
      · rw [literalValue, if_neg ?_]
        · exact reads_pure hnat
        · intro hc
          rw [hc] at hnat
          exact hbackslash hnat.symm
  | @short c _ hvalue => exact ⟨backslash, [byte c], rfl, hescape (reads_escape_simple hvalue)⟩
  | @hex width pos h =>
      have hne : bytes (fixed 16 width code) ≠ [] := by
        rw [← List.length_pos_iff, length_bytes_fixed]
        exact pos
      have hread : O.Reads _ escape _ (singleQuote :: rest) :=
        reads_escape_hex (isHex_fixed width code) hne (by rw [List.head?_cons]; decide)
      rw [hexNumber_fixed h] at hread
      exact ⟨backslash, _, rfl, hescape hread⟩
  | universal huniversal h =>
      have hnumber := hexNumber_fixed h
      have hread : O.Reads _ escape _ (singleQuote :: rest) :=
        reads_escape_universal (isHex_fixed 4 code) (length_bytes_fixed 4 code)
          (by rw [hnumber]; exact huniversal)
      rw [hnumber] at hread
      exact ⟨backslash, _, rfl, hescape hread⟩
  | long huniversal h =>
      have hnumber := hexNumber_fixed h
      have hread : O.Reads _ escape _ (singleQuote :: rest) :=
        reads_escape_universal_long (isHex_fixed 8 code) (length_bytes_fixed 8 code)
          (by rw [hnumber]; exact huniversal)
      rw [hnumber] at hread
      exact ⟨backslash, _, rfl, hescape hread⟩

theorem reads_charLiteral {value : Int} {encoding : Encoding}
    (hvalue : if encoding = .plain then -0x80 ≤ value ∧ value < 0x80 else 0 ≤ value)
    (hsurrogate : ¬ (0xD800 ≤ value ∧ value ≤ 0xDFFF)) (hmax : value ≤ 0xFFFFFFFF) :
    O.Reads (bytes (spellChar value) ++ singleQuote :: rest) (charLiteral encoding)
      (fun t => t.gist = (.char value, encoding, false)) rest := by
  have hspelled := spelledChar_spellChar hsurrogate hmax
  rcases reads_literalValue O rest hspelled with ⟨c, more, hbody, hread⟩
  have hback : (if encoding = .plain then plainValue (charCode value) else (charCode value : Int)) =
      value := by
    by_cases hplain : encoding = .plain
    · rw [if_pos hplain] at hvalue ⊢
      unfold plainValue charCode
      split
      · rw [Int.bmod_def]
        omega
      · rw [Int.bmod_def]
        omega
    · rw [if_neg hplain] at hvalue ⊢
      rw [charCode, if_neg (by omega)]
      omega
  rw [hbody]
  refine reads_next.bind_eq (hread.bind_eq (reads_next.bind_eq ?_))
  rw [if_pos rfl, hback]
  exact reads_finish _ _

theorem reads_token_string (content : List UInt8) (encoding : Encoding) :
    O.Reads (bytes encoding.mark.toList ++
        doubleQuote :: (bytes (spellString content) ++ doubleQuote :: rest)) token
      (fun t => t.gist = (.string content, encoding, false)) rest := by
  have hbody : O.Reads _ _ _ rest := reads_stringLiteral content encoding
  cases encoding with
  | plain => exact reads_token hbody
  | wide => exact reads_token (reads_skipIf.bind_eq hbody)
  | char16 => exact reads_token (reads_skipIf.bind_eq hbody)
  | char32 => exact reads_token (reads_skipIf.bind_eq hbody)
  | utf8 =>
      change O.Reads (byte 'u' :: byte '8' :: doubleQuote :: _) token _ rest
      refine reads_token ((reads_skipIf_other ?_).bind_eq ((reads_skipIf_other ?_).bind_eq ?_))
      · rw [List.head?_cons]
        decide
      · rw [List.head?_cons]
        decide
      · exact reads_skipIf.bind_eq (reads_skipIf.bind_eq hbody)

theorem leads_token_char {text : List UInt8} {encoding : Encoding} (hutf8 : encoding ≠ .utf8)
    {E : Failure → Lexer σ → Prop} {Q : Token → Lexer σ → Prop}
    (h : Leads E (O.faces text) (charLiteral encoding) Q) :
    Leads E (O.faces (bytes encoding.mark.toList ++ singleQuote :: text)) token Q := by
  have hmarked : O.Reads (singleQuote :: text) (skipIf doubleQuote) (· = false) _ :=
    reads_skipIf_other (by rw [List.head?_cons]; decide)
  cases encoding with
  | plain => exact leads_token h
  | wide => exact leads_token (hmarked.leads_bind_eq (reads_skipIf.leads_bind_eq h))
  | char16 => exact leads_token (hmarked.leads_bind_eq (reads_skipIf.leads_bind_eq h))
  | char32 => exact leads_token (hmarked.leads_bind_eq (reads_skipIf.leads_bind_eq h))
  | utf8 => exact absurd rfl hutf8

theorem reads_token_char {value : Int} {encoding : Encoding} (hutf8 : encoding ≠ .utf8)
    (hvalue : if encoding = .plain then -0x80 ≤ value ∧ value < 0x80 else 0 ≤ value)
    (hsurrogate : ¬ (0xD800 ≤ value ∧ value ≤ 0xDFFF)) (hmax : value ≤ 0xFFFFFFFF) :
    O.Reads (bytes encoding.mark.toList ++
        singleQuote :: (bytes (spellChar value) ++ singleQuote :: rest)) token
      (fun t => t.gist = (.char value, encoding, false)) rest :=
  leads_token_char hutf8 (reads_charLiteral hvalue hsurrogate hmax)

theorem printable_bytes {cs : List Char} (h : ∀ c ∈ cs, Printable c) :
    ∀ b ∈ bytes cs, 0x20 ≤ b.toNat ∧ b.toNat < 0x7F := by
  intro b hb
  rcases List.mem_map.mp hb with ⟨c, hc, rfl⟩
  have hprint := h c hc
  rw [Utf8.toNat_byte (Nat.lt_trans hprint.2 (by decide))]
  exact hprint

theorem printable_mark (encoding : Encoding) : ∀ c ∈ encoding.mark.toList, Printable c := by
  have hall : (encoding.mark.toList.all fun c => Printable c) = true := by
    cases encoding <;> decide
  exact fun c hc => of_decide_eq_true (List.all_eq_true.mp hall c hc)

theorem ascii_of_printable {cs : List Char} (h : ∀ c ∈ cs, Printable c) :
    ∀ c ∈ cs, c.toNat < 0x80 :=
  fun c hc => Nat.lt_trans (h c hc).2 (by decide)

theorem encode_quoted {body : List Char} (h : ∀ c ∈ body, Printable c) (encoding : Encoding)
    (quote : Char) (hquote : Printable quote) :
    Utf8.encode (encoding.mark ++ String.singleton quote ++ String.ofList body ++
        String.singleton quote) =
      bytes encoding.mark.toList ++ byte quote :: (bytes body ++ [byte quote]) := by
  rw [Utf8.encode_append, Utf8.encode_append, Utf8.encode_append,
    Utf8.encode_ascii (ascii_of_printable h), ← String.ofList_toList (s := encoding.mark),
    Utf8.encode_ascii (ascii_of_printable (printable_mark encoding)), String.ofList_toList,
    show Utf8.encode (String.singleton quote) = [byte quote] from
      Utf8.encode_ascii (ascii_of_printable (List.forall_mem_singleton.mpr hquote))]
  simp only [List.append_assoc, List.cons_append, List.nil_append]

theorem printable_quoted {body : List Char} (h : ∀ c ∈ body, Printable c) (encoding : Encoding)
    (quote : Char) (hquote : Printable quote) :
    ∀ b ∈ bytes encoding.mark.toList ++ byte quote :: (bytes body ++ [byte quote]),
      0x20 ≤ b.toNat ∧ b.toNat < 0x7F := by
  have hwhole : ∀ c ∈ encoding.mark.toList ++ quote :: (body ++ [quote]), Printable c := by
    intro c hc
    simp only [List.mem_append, List.mem_cons, List.not_mem_nil, or_false] at hc
    rcases hc with hc | rfl | hc | rfl
    · exact printable_mark encoding c hc
    · exact hquote
    · exact h c hc
    · exact hquote
  have hbytes := printable_bytes hwhole
  simpa only [bytes, List.map_append, List.map_cons, List.map_nil] using hbytes

theorem written_string (content : List UInt8) (encoding : Encoding) :
    Utf8.encode ((Lexeme.string content).spelling encoding) =
      bytes encoding.mark.toList ++ doubleQuote :: (bytes (spellString content) ++ [doubleQuote]) :=
  encode_quoted (printable_spellString content) encoding '"' (by decide)

theorem printable_written_string (content : List UInt8) (encoding : Encoding) :
    ∀ b ∈ Utf8.encode ((Lexeme.string content).spelling encoding),
      0x20 ≤ b.toNat ∧ b.toNat < 0x7F := by
  rw [written_string]
  exact printable_quoted (printable_spellString content) encoding '"' (by decide)

theorem written_char (value : Int) (encoding : Encoding) :
    Utf8.encode ((Lexeme.char value).spelling encoding) =
      bytes encoding.mark.toList ++ singleQuote :: (bytes (spellChar value) ++ [singleQuote]) :=
  encode_quoted (printable_spellChar value) encoding '\'' (by decide)

theorem printable_written_char (value : Int) (encoding : Encoding) :
    ∀ b ∈ Utf8.encode ((Lexeme.char value).spelling encoding), 0x20 ≤ b.toNat ∧ b.toNat < 0x7F := by
  rw [written_char]
  exact printable_quoted (printable_spellChar value) encoding '\'' (by decide)

theorem oneLine_quoted {encoding : Encoding} {quote : UInt8}
    (hquote : quote = doubleQuote ∨ quote = singleQuote) {body : List UInt8}
    (hprint : ∀ b ∈ bytes encoding.mark.toList ++ quote :: (body ++ [quote]),
      0x20 ≤ b.toNat ∧ b.toNat < 0x7F) :
    OneLine (bytes encoding.mark.toList ++ quote :: (body ++ [quote])) where
  newline_notMem h := absurd (hprint _ h) (by decide)
  return_notMem h := absurd (hprint _ h) (by decide)
  ends := by
    rw [← List.cons_append, ← List.append_assoc, List.getLast?_concat]
    rcases hquote with rfl | rfl <;> decide
  unblank := by
    have hopen : ∀ text, Unblank (quote :: text) := by
      intro text
      rcases hquote with rfl | rfl <;> exact ⟨by decide, fun h => absurd h (by decide)⟩
    rw [List.append_assoc]
    cases encoding with
    | plain => exact hopen _
    | _ => exact ⟨by decide +kernel, fun h => absurd h (by decide +kernel)⟩

end CLex.Outlook

namespace CLex

open Character Lexer Lines Outlook

/-- A string literal is read back from its spelling: whatever its bytes and its encoding, the
spelling is a line with this one token, and nothing about it is odd. -/
theorem listing_spelled_string (name : String) (content : List UInt8) (encoding : Encoding)
    (options : Options) :
    let written := Utf8.encode (Token.spelling { lexeme := .string content, encoding })
    let read := (Lexer.ofStream (Stream.ofSources [.ofBytes name written]) options).listing
    read.failure = none ∧
      read.gists =
        [(.string content, encoding, false), (.newline, .plain, false), (.eof, .plain, false)] ∧
      read.lexer.collector = .empty options.maxWarnings ∧
      ∀ e ∈ read.lexer.stream.journal.events, e.isWarning = false := by
  intro written read
  have hprint := printable_written_string content encoding
  have htext : written = bytes encoding.mark.toList ++
      doubleQuote :: (bytes (Literal.spellString content) ++ [doubleQuote]) :=
    written_string content encoding
  rw [written_string] at hprint
  have hline : OneLine written := htext ▸ oneLine_quoted (Or.inl rfl) hprint
  refine listing_of_token name options hline (by simp) ?_
  rw [htext, List.append_assoc, List.cons_append, List.append_assoc]
  exact reads_token_string content encoding

end CLex
