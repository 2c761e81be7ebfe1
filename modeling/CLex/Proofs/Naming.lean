import CLex.Proofs.Respelling

namespace CLex

open Character Lexer LexM Lines Numeral

namespace Naming

/-- What stands for a character of a name, behind the first: the character as UTF-8, or its number
in four or eight hexadecimal digits. -/
inductive Written (c : Char) : List UInt8 → Prop where
  | plain : Written c (Utf8.sequence c.toNat)
  | short {digits : List UInt8} (hc : c = '$' ∨ 0xA0 ≤ c.toNat) (hdigits : IsHex digits)
      (hcount : digits.length = 4) (hnumber : hexNumber digits = c.toNat) :
      Written c (backslash :: byte 'u' :: digits)
  | long {digits : List UInt8} (hc : c = '$' ∨ 0xA0 ≤ c.toNat) (hdigits : IsHex digits)
      (hcount : digits.length = 8) (hnumber : hexNumber digits = c.toNat) :
      Written c (backslash :: byte 'U' :: digits)

variable {c : Char} {part : List UInt8}

theorem isUniversal_of_char (hc : c = '$' ∨ 0xA0 ≤ c.toNat) : isUniversal c.toNat = true := by
  rcases hc with rfl | hc
  · decide
  · have hvalid : c.toNat < 0xD800 ∨ 0xDFFF < c.toNat := c.valid.imp_right And.left
    simp only [isUniversal, Bool.and_eq_true, Bool.not_eq_true', Bool.and_eq_false_iff,
      decide_eq_false_iff_not, Bool.or_eq_true, decide_eq_true_eq]
    omega

theorem isIdentChar_sequence (hc : isIdentChar c.toNat = true) :
    ∀ b ∈ Utf8.sequence c.toNat, isIdentChar b.toNat = true := by
  intro b hb
  by_cases hascii : c.toNat < 0x80
  · rw [Utf8.sequence, if_pos hascii, List.mem_singleton] at hb
    rw [hb, UInt8.toNat_ofNat', Nat.mod_eq_of_lt (Nat.lt_trans hascii (by decide))]
    exact hc
  · have hle := Utf8.le_of_mem_sequence (Nat.le_of_not_lt hascii) (Utf8.toNat_lt_encode c) hb
    simp [isIdentChar, isIdentStart, hle]

theorem isIdentChar_of_isHex {digits : List UInt8} (hdigits : IsHex digits) :
    ∀ b ∈ digits, isIdentChar b.toNat = true := by
  intro b hb
  have hsome := hdigits b hb
  unfold hexValue? at hsome
  simp only [isIdentChar, isIdentStart, isLetter, isDigit, Bool.or_eq_true, Bool.and_eq_true,
    decide_eq_true_eq, beq_iff_eq]
  split at hsome
  · omega
  · split at hsome
    · omega
    · split at hsome
      · omega
      · cases hsome

theorem Written.bytes (h : Written c part) (hc : isIdentChar c.toNat = true) :
    ∃ mark content, part = mark ++ content ∧ mark ∈ [[], [backslash]] ∧ content ≠ [] ∧
      ∀ b ∈ content, isIdentChar b.toNat = true := by
  cases h with
  | plain =>
      exact ⟨[], _, rfl, by simp, Utf8.sequence_ne_nil c.toNat, isIdentChar_sequence hc⟩
  | short _ hdigits =>
      exact ⟨[backslash], _, rfl, by simp, by simp,
        List.forall_mem_cons.mpr ⟨by decide, isIdentChar_of_isHex hdigits⟩⟩
  | long _ hdigits =>
      exact ⟨[backslash], _, rfl, by simp, by simp,
        List.forall_mem_cons.mpr ⟨by decide, isIdentChar_of_isHex hdigits⟩⟩

/-- What is known of the bytes that a name is written with. -/
structure Inked (text : List UInt8) : Prop where
  bytes : ∀ b ∈ text, isIdentChar b.toNat = true ∨ b = backslash
  last : ∃ b, text.getLast? = some b ∧ isIdentChar b.toNat = true

theorem inked_of_content {content : List UInt8} (hne : content ≠ [])
    (h : ∀ b ∈ content, isIdentChar b.toNat = true) : Inked content :=
  ⟨fun b hb => Or.inl (h b hb), content.getLast hne, List.getLast?_eq_some_getLast hne,
    h _ (List.getLast_mem hne)⟩

theorem Inked.append {text : List UInt8} (h : Inked text) (hpart : Written c part)
    (hc : isIdentChar c.toNat = true) : Inked (text ++ part) := by
  rcases hpart.bytes hc with ⟨mark, content, rfl, hmark, hne, hcontent⟩
  have hlast := (inked_of_content hne hcontent).last
  refine ⟨fun b hb => ?_, ?_⟩
  · rcases List.mem_append.mp hb with hb | hb
    · exact h.bytes b hb
    · rcases List.mem_append.mp hb with hb | hb
      · rw [List.mem_cons, List.mem_singleton] at hmark
        rcases hmark with rfl | rfl
        · exact absurd hb List.not_mem_nil
        · exact Or.inr (List.mem_singleton.mp hb)
      · exact Or.inl (hcontent b hb)
  · rcases hlast with ⟨b, hb, hident⟩
    refine ⟨b, ?_, hident⟩
    rw [List.getLast?_append, List.getLast?_append, hb]
    rfl

theorem Inked.flatten {text : List UInt8} {cs : List Char} {parts : List (List UInt8)}
    (h : Inked text) (hparts : List.Forall₂ Written cs parts)
    (hcs : ∀ c ∈ cs, isIdentChar c.toNat = true) : Inked (text ++ parts.flatten) := by
  induction hparts generalizing text with
  | nil => simpa using h
  | cons hpart _ ih =>
      rw [List.forall_mem_cons] at hcs
      rw [List.flatten_cons, ← List.append_assoc]
      exact ih (h.append hpart hcs.1) hcs.2

theorem Inked.not_mem {text : List UInt8} (h : Inked text) {b : UInt8}
    (hb : isIdentChar b.toNat = false) (hne : b ≠ backslash) : b ∉ text := by
  intro hmem
  rcases h.bytes b hmem with hident | heq
  · rw [hb] at hident
    cases hident
  · exact hne heq

end Naming

namespace Outlook

open Naming

variable {σ : Type} [CharStream σ] {O : Outlook σ} {text rest before : List UInt8}

theorem reads_identRound_universal {n : Nat} (h : n < 0x200000)
    (hmark : text.head?.any (fun d => isUniversalMark d.toNat) = true)
    (hescape : O.Reads text escape (· = n) rest) :
    O.Reads (backslash :: text) (identRound before)
      (· = .again ((Utf8.sequence n).reverse ++ before)) rest := by
  refine reads_next.bind_eq ?_
  dsimp only
  rw [if_neg (by decide), if_pos rfl]
  refine (reads_peekIs _).bind_eq ?_
  rw [hmark, if_pos rfl]
  exact hescape.bind_eq ((reads_universalBytes h).bind_eq (reads_pure rfl))

theorem reads_identLoop_written {c : Char} {part : List UInt8} {P : List UInt8 → Prop}
    (hpart : Written c part) (hc : isIdentChar c.toNat = true)
    (h : O.Reads text (loop identRound progress_identRound
      ((Utf8.sequence c.toNat).reverse ++ before)) P rest) :
    O.Reads (part ++ text) (loop identRound progress_identRound before) P rest := by
  cases hpart with
  | plain => exact reads_identLoop_append (isIdentChar_sequence hc) h
  | short huniversal hdigits hcount hnumber =>
      have hescape : O.Reads _ escape _ text := reads_escape_universal hdigits hcount
        (hnumber.symm ▸ isUniversal_of_char huniversal)
      rw [hnumber] at hescape
      exact reads_loop_again (reads_identRound_universal (Utf8.toNat_lt_encode c) rfl hescape) h
  | long huniversal hdigits hcount hnumber =>
      have hescape : O.Reads _ escape _ text := reads_escape_universal_long hdigits hcount
        (hnumber.symm ▸ isUniversal_of_char huniversal)
      rw [hnumber] at hescape
      exact reads_loop_again (reads_identRound_universal (Utf8.toNat_lt_encode c) rfl hescape) h

theorem reads_identLoop_name {cs : List Char} {parts : List (List UInt8)}
    (hparts : List.Forall₂ Written cs parts) (hcs : ∀ c ∈ cs, isIdentChar c.toNat = true)
    (hends : Lexeme.NameEnds rest) :
    O.Reads (parts.flatten ++ rest) (loop identRound progress_identRound before)
      (· = before.reverse ++ cs.flatMap fun c => Utf8.sequence c.toNat) rest := by
  induction hparts generalizing before with
  | nil =>
      rw [List.flatMap_nil, List.append_nil]
      exact reads_loop_done (reads_identRound_done hends)
  | cons hpart _ ih =>
      rw [List.forall_mem_cons] at hcs
      rw [List.flatten_cons, List.append_assoc]
      refine reads_identLoop_written hpart hcs.1 ((ih hcs.2).mono ?_)
      rintro _ rfl
      simp

theorem unblank_of_isIdentChar {b : UInt8} (h : isIdentChar b.toNat = true) :
    Unblank (b :: text) := by
  constructor
  · simp only [isIdentChar, isIdentStart, isLetter, isDigit, Bool.or_eq_true, Bool.and_eq_true,
      decide_eq_true_eq, beq_iff_eq] at h
    simp only [isBlank, Bool.or_eq_false_iff, beq_eq_false_iff_ne]
    omega
  · rintro rfl
    exact absurd h (by decide)

theorem reads_tokenFrom_unquoted {first : UInt8} {P : Token → Prop}
    (hfirst : isIdentStart first.toNat = true) (hdouble : doubleQuote ∉ text)
    (hsingle : singleQuote ∉ text) (h : O.Reads text (ident first) P rest) :
    O.Reads text (tokenFrom first) P rest := by
  have hhead : ∀ {quote : UInt8} {text : List UInt8}, quote ∉ text → text.head? ≠ some quote :=
    fun hnot hhead => hnot (List.mem_of_head? hhead)
  have hline : first ≠ newline := by
    rintro rfl
    cases hfirst
  rw [tokenFrom, if_neg hline]
  cases encodingOf? first with
  | none =>
      dsimp only
      rw [if_pos hfirst]
      exact h
  | some encoding =>
      refine reads_literalOrIdent h (hhead hdouble) (hhead hsingle) ?_
      rintro - tail rfl
      exact hhead fun hmem => hdouble (List.mem_cons_of_mem _ hmem)

/-- A name is read as the text that it stands for. -/
theorem reads_token_written_name {first : Char} {others : List Char} {parts : List (List UInt8)}
    (hfirst : isIdentStart first.toNat = true)
    (hothers : ∀ c ∈ others, isIdentChar c.toNat = true)
    (hparts : List.Forall₂ Written others parts) (hends : Lexeme.NameEnds rest)
    (hdouble : doubleQuote ∉ rest) (hsingle : singleQuote ∉ rest) :
    O.Reads (Utf8.sequence first.toNat ++ parts.flatten ++ rest) token
      (fun t => t.gist = (.ident (String.ofList (first :: others)), .plain, false)) rest := by
  have hchar : isIdentChar first.toNat = true := by rw [isIdentChar, hfirst, Bool.true_or]
  have hsequence := isIdentChar_sequence hchar
  have hinked := (inked_of_content (Utf8.sequence_ne_nil first.toNat) hsequence).flatten hparts
    hothers
  have hname : Utf8.encode (String.ofList (first :: others)) =
      Utf8.sequence first.toNat ++ others.flatMap fun c => Utf8.sequence c.toNat :=
    Utf8.encode_ofList _
  have hstart : ∀ b, (Utf8.sequence first.toNat).head? = some b → isIdentStart b.toNat = true := by
    intro b hb
    by_cases hascii : first.toNat < 0x80
    · rw [Utf8.sequence, if_pos hascii, List.head?_cons, Option.some.injEq] at hb
      rw [← hb, UInt8.toNat_ofNat', Nat.mod_eq_of_lt (Nat.lt_trans hascii (by decide))]
      exact hfirst
    · have hle := Utf8.le_of_mem_sequence (Nat.le_of_not_lt hascii) (Utf8.toNat_lt_encode first)
        (List.mem_of_head? hb)
      simp [isIdentStart, hle]
  cases hbytes : Utf8.sequence first.toNat with
  | nil => exact absurd hbytes (Utf8.sequence_ne_nil first.toNat)
  | cons b content =>
      rw [hbytes] at hsequence hinked hname hstart
      rw [List.forall_mem_cons] at hsequence
      have hquote : ∀ {quote : UInt8}, isIdentChar quote.toNat = false → quote ≠ backslash →
          quote ∉ rest → quote ∉ content ++ (parts.flatten ++ rest) := by
        intro quote hident hne hrest hmem
        rw [← List.append_assoc, List.mem_append] at hmem
        rcases hmem with hmem | hmem
        · exact hinked.not_mem hident hne (List.mem_cons_of_mem b hmem)
        · exact hrest hmem
      rw [List.cons_append, List.cons_append, List.append_assoc]
      refine reads_token (reads_tokenFrom_unquoted (hstart b rfl)
        (hquote (by decide) (by decide) hdouble) (hquote (by decide) (by decide) hsingle) ?_)
      refine (reads_identLoop_append hsequence.2 (reads_identLoop_name hparts hothers hends)).bind_eq
        ?_
      rw [show (content.reverse ++ [b]).reverse = b :: content by simp, ← hname,
        Utf8.decode_encode]
      exact reads_finish _ _

end Outlook

open Naming Outlook

/-- A name is the same however it is written: its first character as UTF-8, and each of the others
either so or by its number, of four or eight hexadecimal digits. -/
theorem listing_written_name (sourceName : String) (options : Options) {first : Char}
    {others : List Char} {parts : List (List UInt8)} (hfirst : isIdentStart first.toNat = true)
    (hothers : ∀ c ∈ others, isIdentChar c.toNat = true)
    (hparts : List.Forall₂ Written others parts) :
    let text := Utf8.sequence first.toNat ++ parts.flatten
    let read := (Lexer.ofStream (Stream.ofSources [.ofBytes sourceName text]) options).listing
    read.failure = none ∧
      read.gists = [(.ident (String.ofList (first :: others)), .plain, false),
        (.newline, .plain, false), (.eof, .plain, false)] ∧
      read.lexer.collector = .empty options.maxWarnings ∧
      ∀ e ∈ read.lexer.stream.journal.events, e.isWarning = false := by
  intro text read
  have hchar : isIdentChar first.toNat = true := by rw [isIdentChar, hfirst, Bool.true_or]
  have hinked : Inked text := (inked_of_content (Utf8.sequence_ne_nil first.toNat)
    (isIdentChar_sequence hchar)).flatten hparts hothers
  have hline : OneLine text := by
    refine ⟨hinked.not_mem (by decide) (by decide), hinked.not_mem (by decide) (by decide), ?_, ?_⟩
    · rcases hinked.last with ⟨b, hlast, hident⟩
      rw [hlast, Ne, Option.some.injEq]
      rintro rfl
      exact absurd hident (by decide)
    · rw [List.append_assoc]
      cases hbytes : Utf8.sequence first.toNat with
      | nil => exact absurd hbytes (Utf8.sequence_ne_nil first.toNat)
      | cons b content =>
          exact unblank_of_isIdentChar (isIdentChar_sequence hchar b (by rw [hbytes]; simp))
  refine listing_of_token sourceName options hline (by simp) ?_
  exact reads_token_written_name hfirst hothers hparts
    ⟨by decide, fun _ h => absurd (List.cons.inj h).1 (by decide)⟩ (by decide) (by decide)

theorem listing_written_name_mixed :
    let text := Utf8.encode "u8\\u00E9a\\U0001f6001é"
    let read := (Lexer.ofStream (Stream.ofSources [.ofBytes "t.c" text])).listing
    read.failure = none ∧
      read.gists = [(.ident "u8éa😀1é", .plain, false), (.newline, .plain, false),
        (.eof, .plain, false)] := by
  intro text read
  let short := backslash :: byte 'u' :: bytes ['0', '0', 'E', '9']
  let long := backslash :: byte 'U' :: bytes ['0', '0', '0', '1', 'f', '6', '0', '0']
  let parts := [Utf8.sequence '8'.toNat, short, Utf8.sequence 'a'.toNat, long,
    Utf8.sequence '1'.toNat, Utf8.sequence 'é'.toNat]
  have hshort : Written 'é' short :=
    .short (Or.inr (by decide)) (by decide +kernel) rfl (by decide +kernel)
  have hlong : Written '😀' long :=
    .long (Or.inr (by decide)) (by decide +kernel) rfl (by decide +kernel)
  have hparts : List.Forall₂ Written ['8', 'é', 'a', '😀', '1', 'é'] parts :=
    .cons .plain (.cons hshort (.cons .plain (.cons hlong (.cons .plain (.cons .plain .nil)))))
  have hfirst : isIdentStart 'u'.toNat = true := by decide
  have hothers : (['8', 'é', 'a', '😀', '1', 'é'].all fun c => isIdentChar c.toNat) = true := by
    decide
  have hread := listing_written_name "t.c" {} hfirst (List.all_eq_true.mp hothers) hparts
  have htext : Utf8.sequence 'u'.toNat ++ parts.flatten = text := by decide +kernel
  rw [htext] at hread
  exact ⟨hread.1, hread.2.1⟩

end CLex
