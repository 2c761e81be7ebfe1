import CLex.Proofs.Leading
import CLex.Proofs.Lexemes
import CLex.Proofs.Position
import CLex.Proofs.Quoting

namespace CLex

open Character Lexer LexM

namespace Lexer

variable {σ : Type} [CharStream σ] {lx lx' : Lexer σ} {t : Token}

/-- What is known of a character literal that has been read. -/
def CharFits (lexeme : Lexeme) (encoding : Encoding) : Prop :=
  ∀ value, lexeme = .char value → encoding ≠ .utf8 ∧ InRange encoding value

theorem charFits_of_ne {lexeme : Lexeme} {encoding : Encoding} (h : ∀ value, lexeme ≠ .char value) :
    CharFits lexeme encoding :=
  fun value heq => absurd heq (h value)

theorem charFits_tokenFrom (c : UInt8) : Gives (σ := σ) CharFits (tokenFrom c) := by
  have hdots : c = byte '.' → Gives (σ := σ) CharFits (dots c) := fun _ =>
    gives_dots (fun _ => charFits_of_ne (by simp)) (charFits_of_ne (by simp))
      (fun _ => charFits_of_ne (by simp)) c
  refine gives_tokenFrom (fun _ => charFits_of_ne (by simp)) (fun _ _ => charFits_of_ne (by simp)) ?_
    (fun _ => charFits_of_ne (by simp)) (fun _ _ => charFits_of_ne (by simp))
    (fun _ => charFits_of_ne (by simp)) (charFits_of_ne (by simp)) hdots
  rintro value encoding hutf8 hrange _ ⟨⟩
  exact ⟨hutf8, hrange⟩

theorem charFits_freshToken (h : freshToken lx = .ok t lx') : CharFits t.lexeme t.encoding := by
  obtain ⟨_, _, -, h⟩ := bind_eq_ok.mp h
  obtain ⟨startsLine, _, -, h⟩ := bind_eq_ok.mp h
  obtain ⟨spaced, lx₁, -, h⟩ := bind_eq_ok.mp h
  obtain ⟨read, lx₂, htoken, h⟩ := bind_eq_ok.mp h
  have hgives : Gives (σ := σ) CharFits token := by
    refine yields_bind fun _ => yields_bind fun c => ?_
    cases c with
    | none => exact gives_finish (charFits_of_ne (by simp))
    | some c => exact charFits_tokenFrom c
  obtain ⟨rfl, -⟩ := pure_eq_ok.mp h
  exact hgives lx₁ read lx₂ htoken

theorem charFits_nextTokens {lx : Lexer} (hpending : lx.pending = [[]]) (n : Nat) :
    (nextTokens lx n).2.pending = [[]] ∧
      ∀ t, some t ∈ (nextTokens lx n).1 → CharFits t.lexeme t.encoding := by
  induction n with
  | zero => exact ⟨hpending, fun t ht => absurd ht List.not_mem_nil⟩
  | succ n ih =>
      have hstep := ignoresPending_rules.rel_freshToken.pending_eq (nextTokens lx n).2
      rw [nextTokens, nextToken_fresh ih.1]
      cases h : freshToken (nextTokens lx n).2 with
      | error f lx' =>
          rw [h, ih.1] at hstep
          refine ⟨hstep, fun t ht => ih.2 t ?_⟩
          simpa using ht
      | ok u lx' =>
          rw [h, ih.1] at hstep
          refine ⟨hstep, fun t ht => ?_⟩
          rcases List.mem_append.mp ht with ht | ht
          · exact ih.2 t ht
          · rw [List.mem_singleton, Option.some.injEq] at ht
            rw [ht]
            exact charFits_freshToken h

end Lexer

namespace Numeral

theorem fixed_add (base width more n : Nat) :
    fixed base (width + more) n = fixed base width (n / base ^ more) ++ fixed base more n := by
  induction more generalizing n with
  | zero => simp [fixed]
  | succ more ih =>
      rw [← Nat.add_assoc, fixed, fixed, ih, Nat.div_div_eq_div_mul, ← Nat.pow_succ',
        List.append_assoc]

theorem lt_pow_hexDigits (n : Nat) : n < 16 ^ hexDigits n := by
  have hlt : n < 2 ^ (n.log2 + 1) := Nat.lt_log2_self
  refine Nat.lt_of_lt_of_le hlt ?_
  rw [show 16 = 2 ^ 4 from rfl, ← Nat.pow_mul, hexDigits]
  exact Nat.pow_le_pow_right (by decide) (by omega)

theorem pow_hexDigits_le {n : Nat} (hn : n ≠ 0) : 16 ^ (hexDigits n - 1) ≤ n := by
  refine Nat.le_trans ?_ (Nat.log2_self_le hn)
  rw [show 16 = 2 ^ 4 from rfl, ← Nat.pow_mul, hexDigits]
  exact Nat.pow_le_pow_right (by decide) (by omega)

theorem hex_append {width n : Nat} (h : 16 ^ (width + 1) ≤ n) :
    ∃ first more, hex (width + 1) n = fixed 16 (width + 1) first ++ fixed 16 (more + 1) n ∧
      16 ^ width ≤ first ∧ first < 16 ^ (width + 1) := by
  have hlt : width + 1 < hexDigits n :=
    (Nat.pow_lt_pow_iff_right (by decide)).mp (Nat.lt_of_le_of_lt h (lt_pow_hexDigits n))
  obtain ⟨more, hmore⟩ : ∃ more, hexDigits n = width + 1 + (more + 1) :=
    ⟨hexDigits n - (width + 1) - 1, by omega⟩
  have hpos : 0 < 16 ^ (width + 1) := Nat.pow_pos (by decide)
  have hlow := pow_hexDigits_le (Nat.ne_of_gt (Nat.lt_of_lt_of_le hpos h))
  have hhigh := lt_pow_hexDigits n
  rw [hmore] at hlow hhigh
  refine ⟨n / 16 ^ (more + 1), more, ?_, ?_, ?_⟩
  · rw [hex, Nat.max_eq_right (Nat.le_of_lt hlt), hmore, fixed_add]
  · rw [Nat.le_div_iff_mul_le (Nat.pow_pos (by decide)), ← Nat.pow_add]
    rwa [show width + 1 + (more + 1) - 1 = width + (more + 1) by omega] at hlow
  · rw [Nat.pow_add, Nat.mul_comm] at hhigh
    exact Nat.div_lt_of_lt_mul hhigh

end Numeral

namespace Outlook

open Literal Numeral

variable {σ : Type} [CharStream σ] {O : Outlook σ} {value : Int}

theorem spellChar_universal (h : 0xFF < value) :
    spellChar value =
      if value.toNat ≤ 0xFFFF then '\\' :: 'u' :: hex 4 value.toNat
      else '\\' :: 'U' :: hex 8 value.toNat := by
  have hcode : (if value < 0 then (value % 0x100).toNat else value.toNat) = value.toNat :=
    if_neg (by omega)
  unfold spellChar
  rw [if_neg (by omega), if_neg (by omega), if_neg (by omega), hcode]
  dsimp only
  rw [if_neg (by omega)]
  rfl

theorem fails_charLiteral_surrogate (hvalue : 0xD800 ≤ value ∧ value ≤ 0xDFFF)
    (encoding : Encoding) (rest : List UInt8) :
    O.Fails (bytes (spellChar value) ++ rest) (charLiteral encoding)
      (.invalidUniversal (String.ofList (spellChar value))) := by
  have hlt : value.toNat < 16 ^ 4 := by omega
  have hnumber := hexNumber_fixed hlt
  have huniversal : isUniversal (hexNumber (bytes (fixed 16 4 value.toNat))) = false := by
    rw [hnumber]
    simp only [isUniversal, Bool.and_eq_false_iff, Bool.not_eq_false', Bool.and_eq_true,
      decide_eq_true_eq]
    omega
  have hescape : O.Fails (byte 'u' :: (bytes (fixed 16 4 value.toNat) ++ rest)) escape _ :=
    fails_escape_universal (isHex_fixed 4 value.toNat) (length_bytes_fixed 4 value.toNat) huniversal
  rw [hnumber] at hescape
  rw [spellChar_universal (by omega), if_pos (by omega)]
  refine reads_next.bind_fails_eq (Fails.bind ?_)
  rw [literalValue, if_pos (by decide)]
  rwa [hex_eq_fixed (by decide) hlt] at hescape ⊢

theorem fails_charLiteral_large (hvalue : 0xFFFFFFFF < value) (encoding : Encoding)
    (rest : List UInt8) :
    O.Fails (bytes (spellChar value) ++ rest) (charLiteral encoding) .unterminatedChar := by
  have hdigits : 16 ^ (7 + 1) ≤ value.toNat := by omega
  obtain ⟨first, more, hspelled, hlow, hhigh⟩ := hex_append hdigits
  have hnumber := hexNumber_fixed hhigh
  have huniversal : isUniversal (hexNumber (bytes (fixed 16 8 first))) = true := by
    rw [hnumber]
    simp only [isUniversal, Bool.and_eq_true, Bool.not_eq_true', Bool.and_eq_false_iff,
      decide_eq_false_iff_not, Bool.or_eq_true, decide_eq_true_eq]
    omega
  have hlength : (bytes (fixed 16 (more + 1) value.toNat)).length = more + 1 :=
    length_bytes_fixed (more + 1) value.toNat
  obtain ⟨d, digits, hdigits⟩ := List.exists_cons_of_length_eq_add_one hlength
  have hd : d ≠ singleQuote := by
    rintro rfl
    have hhex := isHex_fixed (more + 1) value.toNat singleQuote (by rw [hdigits]; simp)
    exact absurd hhex (by decide)
  rw [spellChar_universal (by omega), if_neg (by omega), hspelled]
  have htext : bytes ('\\' :: 'U' :: (fixed 16 8 first ++ fixed 16 (more + 1) value.toNat)) ++ rest =
      backslash :: byte 'U' :: (bytes (fixed 16 8 first) ++ d :: (digits ++ rest)) := by
    rw [← List.cons_append (a := d), ← hdigits, ← List.append_assoc]
    exact congrArg (fun body => backslash :: byte 'U' :: (body ++ rest)) List.map_append
  rw [htext]
  refine reads_next.bind_fails_eq ?_
  dsimp only
  rw [literalValue, if_pos rfl]
  refine (reads_escape_universal_long (isHex_fixed 8 first) (length_bytes_fixed 8 first)
    huniversal).bind_fails_eq (reads_next.bind_fails_eq ?_)
  rw [if_neg (by simpa using hd)]
  exact fails_throw_marked

end Outlook

open Literal Outlook

/-- A character literal that was read is read back from its spelling: the spelling is a line with
this one token, and nothing about it is odd. It is different with a value that the spelling gives a
universal character name and that has none. The name of a surrogate is refused, and that of a number
with more than eight digits is followed by a digit in place of the closing quote. -/
theorem listing_spelled_char (stream : Stream) (options options' : Options) (name : String) (n : Nat)
    {t : Token} (hread : some t ∈ (nextTokens (Lexer.ofStream stream options) n).1) {value : Int}
    (hchar : t.lexeme = .char value) :
    let written := Utf8.encode t.spelling
    let read := (Lexer.ofStream (Stream.ofSources [.ofBytes name written]) options').listing
    if 0xD800 ≤ value ∧ value ≤ 0xDFFF then
      read.tokens = [] ∧ ∃ location,
        read.failure = some (.located (.invalidUniversal (String.ofList (spellChar value))) location)
    else if 0xFFFFFFFF < value then
      read.tokens = [] ∧ ∃ location, read.failure = some (.located .unterminatedChar location)
    else
      read.failure = none ∧
        read.gists =
          [(.char value, t.encoding, false), (.newline, .plain, false), (.eof, .plain, false)] ∧
        read.lexer.collector = .empty options'.maxWarnings ∧
        ∀ e ∈ read.lexer.stream.journal.events, e.isWarning = false := by
  intro written read
  obtain ⟨hutf8, hrange⟩ := (charFits_nextTokens rfl n).2 t hread value hchar
  have htext : written = bytes t.encoding.mark.toList ++
      singleQuote :: (bytes (spellChar value) ++ [singleQuote]) := by
    rw [← written_char, ← hchar]
    rfl
  have hline : OneLine written := by
    have hprint := printable_written_char value t.encoding
    rw [written_char] at hprint
    exact htext ▸ oneLine_quoted (Or.inr rfl) hprint
  have hbehind : written ++ [newline] = bytes t.encoding.mark.toList ++
      singleQuote :: (bytes (spellChar value) ++ singleQuote :: [newline]) := by
    rw [htext, List.append_assoc, List.cons_append, List.append_assoc]
    rfl
  split
  · next hsurrogate =>
    refine listing_of_fails name options' hline ?_
    rw [hbehind]
    exact leads_token_char hutf8 (fails_charLiteral_surrogate hsurrogate t.encoding _)
  · next hsurrogate =>
    split
    · next hlarge =>
      refine listing_of_fails name options' hline ?_
      rw [hbehind]
      exact leads_token_char hutf8 (fails_charLiteral_large hlarge t.encoding _)
    · next hmax =>
      refine listing_of_token name options' hline (by simp) ?_
      rw [hbehind]
      exact reads_token_char hutf8 hrange hsurrogate (Int.not_lt.mp hmax)

theorem listing_spelled_char_large :
    let text := Utf8.encode "'\\377' L'\\xFFFFFFFF'"
    let calls := nextTokens (Lexer.ofStream (Stream.ofSources [.ofBytes "t.c" text])) 2
    ∃ t, some t ∈ calls.1 ∧ t.lexeme = .char 0xFFFFFFFF ∧ t.spelling = "L'\\Uffffffff'" ∧
      let written := Utf8.encode t.spelling
      let read := (Lexer.ofStream (Stream.ofSources [.ofBytes "t.c" written])).listing
      read.failure = none ∧
        read.gists = [(.char 0xFFFFFFFF, .wide, false), (.newline, .plain, false),
          (.eof, .plain, false)] := by
  intro text calls
  let t : Token :=
    { lexeme := .char 0xFFFFFFFF, encoding := .wide, file := "t.c", line := 1, column := 8,
      index := 1, spaced := true, startsLine := false }
  have hread : some t ∈ calls.1 := by decide +kernel
  have hback := listing_spelled_char _ {} {} "t.c" 2 hread rfl
  rw [if_neg (by decide), if_neg (by decide)] at hback
  exact ⟨t, hread, rfl, by decide +kernel, hback.1, hback.2.1⟩

/-- A surrogate and a number with nine digits can be read, from hexadecimal escapes, and their
spellings cannot. -/
theorem listing_spelled_char_surrogate :
    let text := Utf8.encode "L'\\xD800' U'\\x123456789'"
    let calls := nextTokens (Lexer.ofStream (Stream.ofSources [.ofBytes "t.c" text])) 2
    let failure (spelled : String) :=
      (Lexer.ofStream (Stream.ofSources [.ofBytes "t.c" (Utf8.encode spelled)])).listing.failure
    (calls.1.map fun o => o.map fun t => (t.lexeme, t.encoding, t.spelling)) =
        [some (.char 0xD800, .wide, "L'\\ud800'"),
          some (.char 0x123456789, .char32, "U'\\U123456789'")] ∧
      failure "L'\\ud800'" = some (.located (.invalidUniversal "\\ud800") ⟨"t.c", 1, 3⟩) ∧
      failure "U'\\U123456789'" = some (.located .unterminatedChar ⟨"t.c", 1, 1⟩) := by
  decide +kernel

end CLex
