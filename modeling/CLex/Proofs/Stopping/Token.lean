import CLex.Proofs.Lexemes
import CLex.Proofs.Respelling
import CLex.Proofs.Stopping.Word

namespace CLex.Outlook

open Character LexM Lexer Joining Stopping

variable {text mid rest : List UInt8}

theorem table_spelling : ∀ e ∈ Punctuator.table,
    (e.1.head? = (bytes e.2.entry.spelling).head? ∨
      ∃ d ∈ Lexeme.brackets, (bytes e.2.entry.spelling).head? = some d) ∧
    (e.2 = .hash ∨ e.1 = bytes e.2.entry.spelling ∨
      Punctuator.Ends [] (bytes e.2.entry.spelling) e.2) ∧
    (e.2 = .slash → e.1 = [byte '/']) ∧ (e.2 = .dot → e.1 = [byte '.']) ∧ e.1 ≠ [] := by
  decide +kernel

theorem cut_punctuator {c : UInt8} {e : List UInt8 × Punctuator} {t : Token} (hdot : c ≠ byte '.')
    (hencoding : t.encoding = .plain) (hlexeme : t.lexeme = .punctuator e.2)
    (htext : c :: mid = e.1 ++ rest) (hlongest : Punctuator.Longest (c :: mid) e)
    (hslash : c = byte '/' → mid.head? ≠ some (byte '*') ∧ mid.head? ≠ some (byte '/')) :
    Cut c mid rest t := by
  rcases table_spelling _ hlongest.1 with ⟨hhead, hsame, hslash', hdot', hne⟩
  rcases e with ⟨word, p⟩
  rcases List.exists_cons_of_ne_nil hne with ⟨d, w, rfl⟩
  rcases List.cons.inj htext with ⟨rfl, rfl⟩
  refine ⟨?_, ?_, ?_, ?_⟩
  · rw [hlexeme]
    exact hencoding
  · rw [Token.spelling, hlexeme, Lexeme.spelling, Lexeme.written_punctuator]
    rcases hhead with hhead | ⟨d, hd, hhead⟩
    · exact ⟨_, hhead.symm, Or.inl rfl⟩
    · exact ⟨d, hhead, Or.inr (Or.inr hd)⟩
  · by_cases hhash : p = .hash
    · exact Or.inl (hhash ▸ hlexeme)
    · refine Or.inr ?_
      rw [hlexeme]
      cases rest with
      | nil => rfl
      | cons e rest =>
          have hfirst : Punctuator.isBeginning (bytes p.entry.spelling ++ [e]) = false := by
            rcases hsame with heq | heq | hends
            · exact absurd heq hhash
            · exact heq ▸ hlongest.isBeginning_eq_false (by simpa using hdot) hhash
            · exact hends.isBeginning_eq_false
          have hcomment : (p == .slash && (e == byte '*' || e == byte '/')) = false := by
            simp only [Bool.and_eq_false_imp, beq_iff_eq, Bool.or_eq_false_iff,
              beq_eq_false_iff_ne]
            intro hp
            rcases List.cons.inj (hslash' hp) with ⟨rfl, rfl⟩
            simpa using hslash rfl
          have hdigit : (p == .dot && isDigit e.toNat) = false := by
            simp only [Bool.and_eq_false_imp, beq_iff_eq]
            exact fun hp => absurd (List.cons.inj (hdot' hp)).1 hdot
          simp only [Lexeme.goesOn, Lexeme.goesOnWith, hfirst, hcomment, hdigit, Bool.or_self]
  · rw [hlexeme]
    exact fun _ h => by cases h

theorem takes_stringLiteral (encoding : Encoding) :
    plainly.Takes text (stringLiteral encoding) fun t _ =>
      t.encoding = encoding ∧ ∃ content, t.lexeme = .string content := by
  have hround := Footing.leads_stringRound (F := footing)
  refine (takes_of_leads (leads_loop (I := fun _ => Holds []) hround []) ?_ ?_).bind ?_
  · exact fun lx h => h
  · exact fun _ lx h => Footing.loose_of_kept h
  · exact fun content rest _ =>
      takes_finish fun t hlexeme hencoding => ⟨hencoding, content, hlexeme⟩

theorem takes_charLiteral (encoding : Encoding) :
    plainly.Takes text (charLiteral encoding) fun t _ =>
      t.encoding = encoding ∧ ∃ value, t.lexeme = .char value ∧
        if encoding = .plain then -0x80 ≤ value ∧ value < 0x80 else 0 ≤ value := by
  have hmarked : ∀ {text : List UInt8} {Q : Token → List UInt8 → Prop},
      plainly.Takes text (do throw (.located .unterminatedChar (← marked))) Q :=
    leads_bind leads_marked fun _ => leads_throw fun _ _ => trivial
  refine takes_of_sound fun hcr => ?_
  cases text with
  | nil =>
      refine reads_next_end.bind_takes ?_
      rintro _ rfl
      exact hmarked
  | cons c text =>
      refine reads_next.bind_takes ?_
      rintro _ rfl
      have hvalue := Footing.leads_literalValue (F := footing) c
      have hout : ∀ lx, Holds [] lx → Holds [c] lx := by
        rw [List.mem_cons, not_or] at hcr
        rintro lx ⟨q, h, hrest, -⟩
        exact ⟨q, h, hrest, by simpa using hcr.1⟩
      refine (takes_of_leads hvalue hout fun _ _ h => h).bind fun code rest _ => ?_
      have hnext : plainly.Takes rest next? fun _ _ => True := by
        cases rest with
        | nil => exact reads_next_end.takes.mono fun _ _ _ => trivial
        | cons d rest => exact reads_next.takes.mono fun _ _ _ => trivial
      refine hnext.bind fun d rest _ => ?_
      split
      · exact takes_finish fun t hlexeme hencoding =>
          ⟨hencoding, _, hlexeme, inRange_literal encoding code⟩
      · exact hmarked

theorem cut_literal {c : UInt8} {t : Token} (encoding : Encoding) (quote : Char)
    (hquote : quote.toNat < 0x80)
    (hmark : (bytes encoding.mark.toList ++ [byte quote]).head? = some c)
    {body : String} (hspelling : t.spelling = encoding.mark ++ String.singleton quote ++ body)
    (hformed : t.lexeme.Formed t.encoding) (hgoesOn : ∀ rest, t.lexeme.goesOn rest = false)
    (hvalid : ∀ spelled, t.lexeme ≠ .invalid spelled) : Cut c mid rest t := by
  have hascii := ascii_of_printable (printable_mark encoding)
  refine ⟨hformed, ⟨c, ?_, Or.inl rfl⟩, Or.inr (hgoesOn rest), fun spelled h => ?_⟩
  · rw [hspelling, Utf8.encode_append, Utf8.encode_append,
      ← String.ofList_toList (s := encoding.mark), Utf8.encode_ascii hascii,
      show Utf8.encode (String.singleton quote) = [byte quote] from
        Utf8.encode_ascii (List.forall_mem_singleton.mpr hquote), List.head?_append, hmark]
    rfl
  · exact absurd h (hvalid spelled)

theorem takes_string {c : UInt8} {encoding : Encoding}
    (hmark : (bytes encoding.mark.toList ++ [doubleQuote]).head? = some c) :
    plainly.Takes text (stringLiteral encoding) fun t rest => Cut c mid rest t := by
  refine (takes_stringLiteral encoding).mono ?_
  rintro t rest ⟨hencoding, content, hlexeme⟩
  have hspelling : t.spelling = encoding.mark ++ String.singleton '"' ++
      (String.ofList (Literal.spellString content) ++ "\"") := by
    rw [Token.spelling, hlexeme, hencoding, Lexeme.spelling, String.append_assoc]
    rfl
  refine cut_literal encoding '"' (by decide) hmark hspelling ?_ ?_ ?_
  · rw [hlexeme]
    exact trivial
  · rw [hlexeme]
    rintro (_ | _)
    · rfl
    · rfl
  · simp [hlexeme]

theorem takes_char {c : UInt8} {encoding : Encoding} (hutf8 : encoding ≠ .utf8)
    (hmark : (bytes encoding.mark.toList ++ [singleQuote]).head? = some c) :
    plainly.Takes text (charLiteral encoding) fun t rest => Cut c mid rest t := by
  refine (takes_charLiteral encoding).mono ?_
  rintro t rest ⟨hencoding, value, hlexeme, hvalue⟩
  have hspelling : t.spelling = encoding.mark ++ String.singleton '\'' ++
      (String.ofList (Literal.spellChar value) ++ "'") := by
    rw [Token.spelling, hlexeme, hencoding, Lexeme.spelling, String.append_assoc]
    rfl
  refine cut_literal encoding '\'' (by decide) hmark hspelling ?_ ?_ ?_
  · rw [hlexeme, hencoding]
    exact ⟨hutf8, hvalue⟩
  · rw [hlexeme]
    rintro (_ | _)
    · rfl
    · rfl
  · simp [hlexeme]

theorem takes_name {c : UInt8} (hfirst : isIdentStart c.toNat = true)
    (hquote : encodingOf? c ≠ none → mid.head? ≠ some doubleQuote ∧ mid.head? ≠ some singleQuote)
    (height : c = byte 'u' → ∀ tail, mid = byte '8' :: tail → tail.head? ≠ some doubleQuote) :
    plainly.Takes mid (ident c) fun t rest => Cut c mid rest t := by
  refine (takes_ident c).mono ?_
  rintro t rest ⟨content, hencoding, hlexeme, hread, hends⟩
  have hgoesOn := goesOn_name hfirst hread hends hquote height
  exact cut_name hfirst hencoding hlexeme hread (hlexeme ▸ hgoesOn)

theorem takes_literalOrIdent {c : UInt8} {encoding : Encoding}
    (hencoding : encodingOf? c = some encoding) :
    plainly.Takes mid (literalOrIdent c encoding) fun t rest => Cut c mid rest t := by
  rcases Simulation.mark_of_encodingOf hencoding with ⟨hmark, hutf8, h16⟩
  have hfirst := Simulation.isIdentStart_of_encodingOf hencoding
  refine (takes_skipIf doubleQuote).bind ?_
  rintro _ rest (⟨rfl, -⟩ | ⟨rfl, rfl, hdouble⟩)
  · rw [if_pos rfl]
    exact takes_string (by rw [hmark]; rfl)
  · rw [if_neg (by simp)]
    refine (takes_skipIf singleQuote).bind ?_
    rintro _ rest (⟨rfl, -⟩ | ⟨rfl, rfl, hsingle⟩)
    · rw [if_pos rfl]
      exact takes_char hutf8 (by rw [hmark]; rfl)
    · rw [if_neg (by simp)]
      have hname : (c = byte 'u' → ∀ tail, rest = byte '8' :: tail →
          tail.head? ≠ some doubleQuote) →
          plainly.Takes rest (ident c) fun t left => Cut c rest left t :=
        takes_name hfirst fun _ => ⟨hdouble, hsingle⟩
      split
      · next hencoding16 =>
        have hc := h16.mp hencoding16
        refine takes_of_sound fun hcr => (takes_skipIf (byte '8')).bind ?_
        rintro _ tail (⟨rfl, rfl⟩ | ⟨rfl, rfl, height⟩)
        · rw [if_pos rfl]
          refine (takes_skipIf doubleQuote).bind ?_
          rintro _ tail' (⟨rfl, -⟩ | ⟨rfl, rfl, hdouble'⟩)
          · rw [if_pos rfl]
            exact takes_string (by rw [hc]; decide)
          · rw [if_neg (by simp)]
            refine (reads_unread hcr).bind_takes fun _ _ => hname fun _ tail htail => ?_
            rw [← (List.cons.inj htail).2]
            exact hdouble'
        · rw [if_neg (by simp)]
          refine hname fun _ tail htail => absurd ?_ height
          rw [htail, List.head?_cons]
      · next hother => exact hname fun hc => absurd (h16.mpr hc) hother

theorem eq_dot_of_isBeginning {d : UInt8} (h : Punctuator.isBeginning [byte '.', d] = true) :
    d = byte '.' := by
  have htable : ∀ e ∈ Punctuator.table, e.1.head? = some (byte '.') →
      ∀ c ∈ e.1, c = byte '.' := by decide +kernel
  rcases Punctuator.isBeginning_iff.mp h with ⟨e, he, more, hmore⟩
  refine htable e he (by rw [← hmore]; rfl) d ?_
  rw [← hmore]
  simp

theorem cut_dots {t : Token} (hencoding : t.encoding = .plain)
    (hlexeme : t.lexeme ∈ [.ident "..", .punctuator .dot, .punctuator .ellipsis])
    (hstops : t.lexeme.goesOn rest = false) : Cut (byte '.') mid rest t := by
  have hformed : ∀ lexeme ∈ [Lexeme.ident "..", .punctuator .dot, .punctuator .ellipsis],
      lexeme.Formed .plain ∧ (Utf8.encode (lexeme.spelling .plain)).head? = some (byte '.') := by
    simp only [List.mem_cons, List.not_mem_nil, or_false]
    rintro lexeme (rfl | rfl | rfl)
    · exact ⟨⟨rfl, Or.inl rfl⟩, by decide +kernel⟩
    · exact ⟨rfl, by decide +kernel⟩
    · exact ⟨rfl, by decide +kernel⟩
  have hvalid : ∀ lexeme ∈ [Lexeme.ident "..", .punctuator .dot, .punctuator .ellipsis],
      ∀ spelled, lexeme ≠ .invalid spelled := by simp
  refine ⟨?_, ⟨byte '.', ?_, Or.inl rfl⟩, Or.inr hstops, fun spelled h => ?_⟩
  · rw [hencoding]
    exact (hformed _ hlexeme).1
  · rw [Token.spelling, hencoding]
    exact (hformed _ hlexeme).2
  · exact absurd h (hvalid _ hlexeme spelled)

theorem goesOn_ellipsis (rest : List UInt8) :
    (Lexeme.punctuator .ellipsis).goesOn rest = false := by
  cases rest with
  | nil => rfl
  | cons d rest =>
      have hlongest : Punctuator.Ends [] (bytes Punctuator.ellipsis.entry.spelling) .ellipsis := by
        decide +kernel
      have hbeginning : Punctuator.isBeginning
          (bytes Punctuator.ellipsis.entry.spelling ++ [d]) = false := hlongest.isBeginning_eq_false
      simp [Lexeme.goesOn, Lexeme.goesOnWith, hbeginning]

theorem goesOn_dot (hdot : rest.head? ≠ some (byte '.'))
    (hdigit : rest.head?.any (fun d => isDigit d.toNat) = false) :
    (Lexeme.punctuator .dot).goesOn rest = false := by
  cases rest with
  | nil => rfl
  | cons d rest =>
      have hbeginning : Punctuator.isBeginning
          (bytes Punctuator.dot.entry.spelling ++ [d]) = false :=
        Bool.eq_false_iff.mpr fun h => hdot (congrArg some (eq_dot_of_isBeginning h))
      rw [List.head?_cons, Option.any_some] at hdigit
      simp [Lexeme.goesOn, Lexeme.goesOnWith, hbeginning, hdigit]

theorem takes_dots :
    plainly.Takes mid (dots (byte '.')) fun t rest => Cut (byte '.') mid rest t := by
  refine (reads_peekIs _).bind_takes ?_
  rintro _ rfl
  split
  · next hdigit =>
    refine (takes_number _).mono ?_
    rintro t rest ⟨chars, hencoding, hlexeme, hread, hends⟩
    refine cut_number hencoding hlexeme hread ?_ hends
    have hsecond : chars.head?.any (fun d => isDigit d.toNat) = true := by
      rw [hread.1] at hdigit
      cases chars with
      | nil =>
          have hother := hends (byte '.') rfl
          cases rest with
          | nil => cases hdigit
          | cons d rest =>
              simp only [List.nil_append, List.head?_cons, Option.any_some] at hdigit hother
              simp [extendsNumber, hdigit] at hother
      | cons d chars => exact hdigit
    simp [Lexeme.beginsNumber, hsecond]
  · next hdigit =>
    refine (takes_skipIf (byte '.')).bind ?_
    rintro _ rest (⟨rfl, rfl⟩ | ⟨rfl, rfl, hdot⟩)
    · rw [if_pos rfl]
      refine (takes_skipIf (byte '.')).bind ?_
      rintro _ rest' (⟨rfl, rfl⟩ | ⟨rfl, rfl, hdot⟩)
      · rw [if_pos rfl]
        refine takes_finish fun t hlexeme hencoding => cut_dots hencoding (by simp [hlexeme]) ?_
        rw [hlexeme]
        exact goesOn_ellipsis rest'
      · rw [if_neg (by simp)]
        refine takes_finish fun t hlexeme hencoding => cut_dots hencoding (by simp [hlexeme]) ?_
        rw [hlexeme]
        cases rest' with
        | nil => rfl
        | cons d rest' => simpa [Lexeme.goesOn, Lexeme.goesOnWith] using hdot
    · rw [if_neg (by simp)]
      refine takes_finish fun t hlexeme hencoding => cut_dots hencoding (by simp [hlexeme]) ?_
      rw [hlexeme]
      exact goesOn_dot hdot (by simpa using hdigit)

theorem takes_operator {c : UInt8} (hsymbol : Lexeme.isSymbol c = true) (hdot : c ≠ byte '.')
    (hcr : c ≠ carriageReturn) (hblank : isBlank c.toNat = false)
    (hslash : c = byte '/' → mid.head? ≠ some (byte '*') ∧ mid.head? ≠ some (byte '/')) :
    plainly.Takes mid (operator c) fun t rest => Cut c mid rest t := by
  by_cases hbranch : Branch.of? c = none
  · rw [operator_eq, hbranch]
    refine takes_finish fun t hlexeme hencoding => ?_
    have hodd : Lexeme.isOdd c = true := by
      simp [Lexeme.isOdd, hsymbol, hcr, hblank, (branch_eq_none_iff hdot).mp hbranch]
    refine ⟨?_, ⟨c, ?_, Or.inl rfl⟩, Or.inr ?_, fun _ _ => rfl⟩
    · rw [hlexeme]
      exact ⟨hencoding, c, rfl, hodd⟩
    · rw [Token.spelling, hlexeme, Lexeme.spelling, Lexeme.encode_text_odd hodd]
      rfl
    · rw [hlexeme]
      cases mid with
      | nil => rfl
      | cons d mid => rfl
  · rcases reads_operator (O := plainly) hbranch mid with ⟨e, left, htext, hlongest, hread⟩
    refine hread.takes.mono ?_
    rintro t _ ⟨hgist, rfl⟩
    rw [Token.gist, Prod.mk.injEq, Prod.mk.injEq] at hgist
    exact cut_punctuator hdot hgist.2.1 hgist.1 htext hlongest hslash

theorem takes_tokenFrom {c : UInt8} (hline : c ≠ newline) (hcr : c ≠ carriageReturn)
    (hunblank : Unblank (c :: mid)) :
    plainly.Takes mid (tokenFrom c) fun t rest => Cut c mid rest t := by
  rw [tokenFrom, if_neg hline]
  split
  · next encoding hencoding => exact takes_literalOrIdent hencoding
  · next hencoding =>
    split
    · next hfirst =>
      refine takes_name hfirst (fun h => absurd hencoding h) ?_
      rintro rfl
      cases hencoding
    · next hfirst =>
      split
      · next hdigit =>
        refine (takes_number c).mono ?_
        rintro t rest ⟨chars, htoken, hlexeme, hread, hends⟩
        exact cut_number htoken hlexeme hread (by simp [Lexeme.beginsNumber, hdigit]) hends
      · next hdigit =>
        split
        · next hc => exact takes_string (by rw [hc]; decide)
        · next hdouble =>
          split
          · next hc => exact takes_char (by decide) (by rw [hc]; decide)
          · next hsingle =>
            split
            · next hc => exact hc ▸ takes_dots
            · next hdot =>
              refine takes_operator ?_ hdot hcr hunblank.1 hunblank.2
              simp [Lexeme.isSymbol, hfirst, hdigit, hline, hdouble, hsingle]

theorem takes_skipBlank : plainly.Takes text skipBlank fun b rest =>
    b = true ∨ b = false ∧ rest = text ∧ Unblank text := by
  have hcomment : ∀ {text : List UInt8}, plainly.Takes text skipComment fun _ _ => True :=
    takes_of_leads (Footing.leads_skipComment (F := footing)) (fun _ h => h) fun _ _ h => h
  have hline : ∀ {text : List UInt8}, plainly.Takes text skipLine fun _ _ => True :=
    takes_of_leads (Footing.leads_skipLine (F := footing)) (fun _ h => h) fun _ _ h => h
  refine takes_of_sound fun hcr => ?_
  cases text with
  | nil =>
      refine reads_next_end.bind_takes ?_
      rintro _ rfl
      exact takes_pure (Or.inr ⟨rfl, rfl, trivial⟩)
  | cons c text =>
      refine reads_next.bind_takes ?_
      rintro _ rfl
      dsimp only
      split
      · exact takes_pure (Or.inl rfl)
      · next hblank =>
        have hback : Unblank (c :: text) → plainly.Takes text (do unread c; pure false)
            fun b rest => b = true ∨ b = false ∧ rest = c :: text ∧ Unblank (c :: text) :=
          fun h => (reads_unread hcr).bind_takes fun _ _ => takes_pure (Or.inr ⟨rfl, rfl, h⟩)
        have hclear : isBlank c.toNat = false := by simpa using hblank
        split
        · refine (takes_skipIf (byte '*')).bind ?_
          rintro _ rest (⟨rfl, -⟩ | ⟨rfl, rfl, hstar⟩)
          · rw [if_pos rfl]
            exact hcomment.bind fun _ _ _ => takes_pure (Or.inl rfl)
          · rw [if_neg (by simp)]
            refine (takes_skipIf (byte '/')).bind ?_
            rintro _ rest' (⟨rfl, -⟩ | ⟨rfl, rfl, hslash⟩)
            · rw [if_pos rfl]
              exact hline.bind fun _ _ _ => takes_pure (Or.inl rfl)
            · rw [if_neg (by simp)]
              exact hback ⟨hclear, fun _ => ⟨hstar, hslash⟩⟩
        · next hc => exact hback ⟨hclear, fun h => absurd h hc⟩

theorem takes_skipBlanks : plainly.Takes text skipBlanks fun spaced rest =>
    Unblank rest ∧ (spaced = false → rest = text) := by
  refine takes_loop (I := fun skipped left => skipped = false → left = text) ?_ false fun _ => rfl
  intro skipped left h
  refine takes_skipBlank.bind ?_
  rintro _ rest (rfl | ⟨rfl, rfl, hunblank⟩)
  · exact takes_pure fun h => absurd h (by simp)
  · exact takes_pure ⟨hunblank, h⟩

/-- What is known of a token, when `text` came before its first character. -/
def Begun (text : List UInt8) (t : Token) (rest : List UInt8) : Prop :=
  t.lexeme = .eof ∧ t.encoding = .plain ∨
    (t.lexeme = .newline ∧ t.encoding = .plain ∧ text = newline :: rest) ∨
      ∃ c mid, text = c :: mid ∧ Cut c mid rest t

theorem takes_token (h : Unblank text) : plainly.Takes text token (Begun text) := by
  refine takes_of_sound fun hcr => reads_setMark.bind_takes fun _ _ => ?_
  cases text with
  | nil =>
      refine reads_next_end.bind_takes ?_
      rintro _ rfl
      exact takes_finish fun t hlexeme hencoding => Or.inl ⟨hlexeme, hencoding⟩
  | cons c mid =>
      refine reads_next.bind_takes ?_
      rintro _ rfl
      dsimp only
      by_cases hline : c = newline
      · subst hline
        rw [tokenFrom, if_pos rfl]
        exact takes_finish fun t hlexeme hencoding => Or.inr (Or.inl ⟨hlexeme, hencoding, rfl⟩)
      · rw [List.mem_cons, not_or] at hcr
        exact (takes_tokenFrom hline (Ne.symm hcr.1) h).mono fun t rest cut =>
          Or.inr (Or.inr ⟨c, mid, rfl, cut⟩)

theorem takes_freshToken : plainly.Takes text freshToken fun t rest =>
    ∃ left, (t.spaced = false → left = text) ∧ Begun left t rest := by
  refine reads_needSource.bind_takes fun _ _ => reads_isAtLineStart.bind_takes fun _ _ => ?_
  refine takes_skipBlanks.bind fun spaced left hleft => (takes_token hleft.1).bind ?_
  intro t rest hbegun
  refine takes_pure ⟨left, hleft.2, ?_⟩
  rcases hbegun with hend | hline | ⟨c, mid, htext, cut⟩
  · exact Or.inl hend
  · exact Or.inr (Or.inl hline)
  · exact Or.inr (Or.inr ⟨c, mid, htext, cut.formed, cut.head, cut.stops, cut.single⟩)

theorem takes_nextToken {lx lx' : Lexer Book} {t : Token} (h : plainly.faces text lx)
    (ht : nextToken lx = .ok t lx') :
    ∃ rest, (∃ left, (t.spaced = false → left = text) ∧ Begun left t rest) ∧
      plainly.faces rest lx' := by
  have hfresh := takes_freshToken lx h
  rw [← nextToken_fresh (plainly.pending h), ht] at hfresh
  exact hfresh

/-- The gists are those of tokens that are cut from the text one behind the other. -/
inductive Parsed : List UInt8 → List Gist → Prop where
  | done {text : List UInt8} (spaced : Bool) : Parsed text [(.eof, .plain, spaced)]
  | newline {text mid : List UInt8} {gists : List Gist} (spaced : Bool) (more : Parsed mid gists) :
      Parsed text ((.newline, .plain, spaced) :: gists)
  | token {text mid rest : List UInt8} {c : UInt8} {t : Token} {gists : List Gist}
      (begun : t.spaced = false → text = c :: mid) (cut : Cut c mid rest t)
      (more : Parsed rest gists) : Parsed text (t.gist :: gists)

theorem Cut.congr {c : UInt8} {t u : Token} (h : Cut c mid rest t) (hgist : t.gist = u.gist) :
    Cut c mid rest u := by
  rw [Token.gist, Token.gist, Prod.mk.injEq, Prod.mk.injEq] at hgist
  rcases hgist with ⟨hlexeme, hencoding, -⟩
  have hspelling : t.spelling = u.spelling := by
    rw [Token.spelling, Token.spelling, hlexeme, hencoding]
  exact ⟨hlexeme ▸ hencoding ▸ h.formed, hspelling ▸ h.head, hlexeme ▸ h.stops, hlexeme ▸ h.single⟩

theorem Cut.lexeme_ne_eof {c : UInt8} {t : Token} (h : Cut c mid rest t) : t.lexeme ≠ .eof := by
  intro hlexeme
  have hformed := h.formed
  rw [hlexeme] at hformed
  exact hformed

theorem Cut.lexeme_ne_newline {c : UInt8} {t : Token} (h : Cut c mid rest t) :
    t.lexeme ≠ .newline := by
  intro hlexeme
  have hformed := h.formed
  rw [hlexeme] at hformed
  exact hformed

/-- What is listed of a text without a failure has been cut from it. -/
theorem parsed_listing {lx : Lexer Book} (h : plainly.faces text lx)
    (hfailure : lx.listing.failure = none) : Parsed text lx.listing.gists := by
  induction lx using listing_induction generalizing text with
  | error lx f lx' ht =>
      rw [listing_of_error ht] at hfailure
      cases hfailure
  | last lx t lx' ht hend =>
      rcases takes_nextToken h ht with ⟨rest, ⟨left, -, hbegun⟩, -⟩
      rw [Token.isEnd, beq_iff_eq] at hend
      rcases hbegun with ⟨-, hencoding⟩ | ⟨hlexeme, -⟩ | ⟨c, mid, -, cut⟩
      · rw [listing_of_end ht (by simp [Token.isEnd, hend]), Listing.gists, List.map_singleton,
          Token.gist, hend, hencoding]
        exact .done t.spaced
      · rw [hend] at hlexeme
        cases hlexeme
      · exact absurd hend cut.lexeme_ne_eof
  | more lx t lx' ht hend ih =>
      rcases takes_nextToken h ht with ⟨rest, ⟨left, hleft, hbegun⟩, hfaces⟩
      rcases listing_cons ht hend with ⟨hgists, hfailure', -⟩
      have hparsed := ih hfaces (hfailure' ▸ hfailure)
      rw [hgists]
      rcases hbegun with ⟨hlexeme, -⟩ | ⟨hlexeme, hencoding, -⟩ | ⟨c, mid, rfl, cut⟩
      · simp [Token.isEnd, hlexeme] at hend
      · rw [Token.gist, hlexeme, hencoding]
        exact .newline t.spaced hparsed
      · exact .token (fun hspaced => (hleft hspaced).symm) cut hparsed

end CLex.Outlook
