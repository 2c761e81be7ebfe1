import CLex.Proofs.Following
import CLex.Proofs.Quoting

namespace CLex.Outlook

open Character LexM Lexer

variable {σ : Type} [CharStream σ] {O : Outlook σ} {rest : List UInt8}

theorem reads_identRound_done {content : List UInt8} (hends : Lexeme.NameEnds rest) :
    O.Reads rest (identRound content) (· = .done content.reverse) rest := by
  refine reads_of_sound fun hsound => ?_
  cases rest with
  | nil => exact reads_next_end.bind_eq (reads_pure rfl)
  | cons c rest =>
      refine reads_next.bind_eq ?_
      dsimp only
      rw [if_neg (by simpa using hends.1)]
      split
      · next hc =>
        subst hc
        refine (reads_peekIs _).bind_eq ?_
        rw [hends.2 rest rfl, if_neg (by simp)]
        exact (reads_unread hsound).bind fun _ _ => reads_pure rfl
      · exact (reads_unread hsound).bind fun _ _ => reads_pure rfl

theorem reads_identLoop_append {content text : List UInt8} {P : List UInt8 → Prop}
    (hcontent : ∀ c ∈ content, isIdentChar c.toNat = true) {before : List UInt8}
    (h : O.Reads text (loop identRound progress_identRound (content.reverse ++ before)) P rest) :
    O.Reads (content ++ text) (loop identRound progress_identRound before) P rest := by
  induction content generalizing before with
  | nil => exact h
  | cons c content ih =>
      rw [List.forall_mem_cons] at hcontent
      have hround : O.Reads (c :: (content ++ text)) (identRound before) (· = .again (c :: before))
          (content ++ text) := by
        refine reads_next.bind_eq ?_
        dsimp only
        rw [if_pos hcontent.1]
        exact reads_pure rfl
      rw [List.reverse_cons, List.append_assoc] at h
      exact reads_loop_again hround (ih hcontent.2 h)

theorem reads_ident {first : UInt8} {content : List UInt8}
    (hcontent : ∀ c ∈ content, isIdentChar c.toNat = true) (hends : Lexeme.NameEnds rest) :
    O.Reads (content ++ rest) (ident first)
      (fun t => t.gist = (.ident (Utf8.decode (first :: content)), .plain, false)) rest := by
  refine (reads_identLoop_append hcontent
    (reads_loop_done (reads_identRound_done hends))).bind_eq ?_
  rw [show (content.reverse ++ [first]).reverse = first :: content by simp]
  exact reads_finish _ _

theorem reads_number {first : UInt8} {chars : List UInt8}
    (hchain : (first :: chars).IsChain fun c d => extendsNumber c d = true)
    (hrest : ∀ last, (first :: chars).getLast? = some last →
      rest.head?.any (extendsNumber last) = false) :
    O.Reads (chars ++ rest) (number first)
      (fun t => t.gist = (.number (textOf (first :: chars)), .plain, false)) rest := by
  have loops : ∀ before, O.Reads (chars ++ rest)
      (loop numberRound progress_numberRound (first, before))
      (· = before.reverse ++ first :: chars) rest := by
    induction chars generalizing first with
    | nil =>
        intro before
        rw [← List.reverse_cons]
        exact reads_loop_done ((reads_takeIf_other (hrest first rfl)).bind_eq (reads_pure rfl))
    | cons c chars ih =>
        intro before
        rw [List.isChain_cons_cons] at hchain
        refine reads_loop_again ((reads_takeIf hchain.1).bind_eq (reads_pure rfl)) ?_
        refine (ih hchain.2 ?_ (first :: before)).mono ?_
        · intro last hlast
          exact hrest last (by rw [List.getLast?_cons_cons]; exact hlast)
        · rintro _ rfl
          simp
  exact (loops []).bind_eq (reads_finish _ _)

theorem first_spelling : ∀ e ∈ Punctuator.table, ∃ c, e.1.head? = some c ∧
    Lexeme.isSymbol c = true ∧ isBlank c.toNat = false ∧
      (c = byte '.' ∨ Branch.of? c ≠ none) := by
  decide +kernel

theorem branch_eq_none_iff {c : UInt8} (hdot : c ≠ byte '.') :
    Branch.of? c = none ↔ Punctuator.ofSpelling? [c] = none := by
  constructor
  · intro hnone
    cases hp : Punctuator.ofSpelling? [c] with
    | none => rfl
    | some p =>
        rcases first_spelling _ (Punctuator.mem_table_of_ofSpelling hp) with
          ⟨d, hd, -, -, hbranch⟩
        cases hd
        simp [hnone, hdot] at hbranch
  · intro hnone
    cases hb : Branch.of? c with
    | none => rfl
    | some b =>
        have hall : ∀ e ∈ Branch.all, Punctuator.ofSpelling? [e.1] ≠ none := by
          decide +kernel
        exact absurd hnone (hall _ (Branch.mem_of hb))

/-- What is read of the text lengthens the word to the longest spelling. -/
def Lengthens (O : Outlook σ) (word text : List UInt8) (m : LexOn σ Punctuator) : Prop :=
  ∃ more p rest, text = more ++ rest ∧ Punctuator.Longest (word ++ text) (word ++ more, p) ∧
    O.Reads text m (· = p) rest

section Branch

variable {word more text : List UInt8} {tried : List (List UInt8)} {p : Punctuator}
  {m m' : LexOn σ Punctuator}

theorem lengthens_stop (hends : Punctuator.Ends tried word p)
    (htext : ∀ more ∈ tried, ¬ more <+: text) (hread : O.Reads text m (· = p) text) :
    O.Lengthens word text m := by
  refine ⟨[], p, text, rfl, ?_, hread⟩
  rw [List.append_nil]
  exact hends.longest htext

theorem lengthens_more (h : O.Lengthens (word ++ more) text m)
    (hread : ∀ {P rest}, O.Reads text m P rest → O.Reads (more ++ text) m' P rest) :
    O.Lengthens word (more ++ text) m' := by
  rcases h with ⟨more', p, rest, rfl, hlongest, h⟩
  simp only [List.append_assoc] at hlongest
  exact ⟨more ++ more', p, rest, (List.append_assoc ..).symm, hlongest, hread h⟩

theorem lengthens_branch {b : Branch} (h : b.Munches tried word)
    (htext : ∀ more ∈ tried, ¬ more <+: text) : O.Lengthens word text b.run := by
  induction b generalizing tried word text with
  | found p => exact lengthens_stop h htext (reads_pure rfl)
  | next c taken other htaken hother =>
      by_cases hc : text.head? = some c
      · rcases List.head?_eq_some_iff.mp hc with ⟨text, rfl⟩
        exact lengthens_more (htaken h.1 (List.forall_mem_nil _)) (reads_skipIf.bind_eq ·)
      · have hnext : ¬ [c] <+: text := by
          rintro ⟨tail, rfl⟩
          exact hc rfl
        rcases hother h.2 (List.forall_mem_cons.mpr ⟨hnext, htext⟩) with
          ⟨more, p, rest, htext, hlongest, hread⟩
        exact ⟨more, p, rest, htext, hlongest, (reads_skipIf_other hc).bind_eq hread⟩
  | pair c d taken other =>
      have stop : ¬ [c, d] <+: text →
          O.Reads text (Branch.pair c d taken other).run (· = other) text →
            O.Lengthens word text (Branch.pair c d taken other).run :=
        fun hpair => lengthens_stop h.2 (List.forall_mem_cons.mpr ⟨hpair, htext⟩)
      by_cases hc : text.head? = some c
      · rcases List.head?_eq_some_iff.mp hc with ⟨text, rfl⟩
        by_cases hd : text.head? = some d
        · rcases List.head?_eq_some_iff.mp hd with ⟨text, rfl⟩
          have htaken : O.Lengthens (word ++ [c, d]) text (pure taken) :=
            lengthens_stop h.1 (List.forall_mem_nil _) (reads_pure rfl)
          exact lengthens_more htaken fun hread =>
            reads_skipIf.bind_eq (reads_skipIf.bind_eq hread)
        · have hread : O.Reads (c :: text) (Branch.pair c d taken other).run (· = other)
              (c :: text) := by
            -- The first of the two has been taken when the second is not there.
            refine reads_of_sound fun hsound => reads_skipIf.bind_eq ?_
            refine (reads_skipIf_other hd).bind_eq ?_
            exact (reads_unread hsound).bind fun _ _ => reads_pure rfl
          refine stop ?_ hread
          rintro ⟨tail, htail⟩
          cases htail
          exact hd rfl
      · refine stop ?_ ((reads_skipIf_other hc).bind_eq (reads_pure rfl))
        rintro ⟨tail, rfl⟩
        exact hc rfl

end Branch

/-- Behind its first character a punctuator is read to the end of the longest spelling. -/
theorem reads_operator {c : UInt8} (hc : Branch.of? c ≠ none) (text : List UInt8) :
    ∃ e rest, c :: text = e.1 ++ rest ∧ Punctuator.Longest (c :: text) e ∧
      O.Reads text (operator c) (fun t => t.gist = (.punctuator e.2, .plain, false)) rest := by
  rw [operator_eq]
  cases hb : Branch.of? c with
  | none => exact absurd hb hc
  | some b =>
      have hlengthens : O.Lengthens [c] text b.run :=
        lengthens_branch (Branch.munches_of hb) (List.forall_mem_nil _)
      rcases hlengthens with ⟨more, p, rest, rfl, hlongest, hread⟩
      exact ⟨(c :: more, p), rest, rfl, hlongest, hread.bind_eq (reads_finish _ _)⟩

theorem encodingOf_eq_none {c : UInt8} (hident : isIdentStart c.toNat = false) :
    encodingOf? c = none := by
  cases h : encodingOf? c with
  | none => rfl
  | some encoding =>
      rw [Simulation.isIdentStart_of_encodingOf h] at hident
      cases hident

theorem tokenFrom_operator {c : UInt8} (h : Lexeme.isSymbol c = true) (hdot : c ≠ byte '.') :
    tokenFrom (σ := σ) c = operator c := by
  simp only [Lexeme.isSymbol, Bool.and_eq_true, Bool.not_eq_true', List.contains_eq_mem,
    decide_eq_false_iff_not, List.mem_cons, List.not_mem_nil, or_false, not_or] at h
  rcases h with ⟨⟨hident, hdigit⟩, hline, hdouble, hsingle⟩
  rw [tokenFrom, if_neg hline, encodingOf_eq_none hident]
  dsimp only
  rw [if_neg (by simp [hident]), if_neg (by simp [hdigit]), if_neg hdouble, if_neg hsingle,
    if_neg hdot]

theorem reads_token_ellipsis :
    O.Reads (bytes Punctuator.ellipsis.entry.spelling ++ rest) token
      (fun t => t.gist = (.punctuator .ellipsis, .plain, false)) rest :=
  reads_token ((reads_peekIs _).bind_eq (reads_skipIf.bind_eq (reads_skipIf.bind_eq
    (reads_finish _ _))))

theorem reads_token_oneDot (hdigit : rest.head?.any (fun d => isDigit d.toNat) = false)
    (hdot : rest.head? ≠ some (byte '.')) :
    O.Reads (byte '.' :: rest) token (fun t => t.gist = (.punctuator .dot, .plain, false))
      rest := by
  refine reads_token ((reads_peekIs _).bind_eq ?_)
  rw [hdigit, if_neg (by simp)]
  exact (reads_skipIf_other hdot).bind_eq (reads_finish _ _)

theorem reads_token_dot (hrest : (Lexeme.punctuator .dot).goesOn rest = false) :
    O.Reads (byte '.' :: rest) token (fun t => t.gist = (.punctuator .dot, .plain, false))
      rest := by
  cases rest with
  | nil => exact reads_token_oneDot rfl (by simp)
  | cons d rest =>
      simp only [Lexeme.goesOn, Lexeme.goesOnWith, Bool.or_eq_false_iff] at hrest
      refine reads_token_oneDot (by simpa using hrest.2) fun h => ?_
      rw [List.head?_cons, Option.some.injEq] at h
      exact absurd (h ▸ hrest.1.1) (by decide +kernel)

theorem reads_token_longest {c : UInt8} (hsymbol : Lexeme.isSymbol c = true)
    (hdot : c ≠ byte '.') (hbranch : Branch.of? c ≠ none) (text : List UInt8) :
    ∃ e rest, c :: text = e.1 ++ rest ∧ Punctuator.Longest (c :: text) e ∧
      O.Reads (c :: text) token (fun t => t.gist = (.punctuator e.2, .plain, false)) rest := by
  rcases reads_operator (O := O) hbranch text with ⟨e, rest, htext, hlongest, hread⟩
  refine ⟨e, rest, htext, hlongest, reads_token ?_⟩
  rw [tokenFrom_operator hsymbol hdot]
  exact hread

theorem reads_token_entry {e : List UInt8 × Punctuator}
    (hlongest : Punctuator.Longest (e.1 ++ rest) e) (hhead : e.1.head? ≠ some (byte '.')) :
    O.Reads (e.1 ++ rest) token (fun t => t.gist = (.punctuator e.2, .plain, false)) rest := by
  rcases first_spelling e hlongest.1 with ⟨c, hc, hsymbol, -, hbranch⟩
  have hdot : c ≠ byte '.' := fun heq => hhead (heq ▸ hc)
  rcases List.head?_eq_some_iff.mp hc with ⟨more, hmore⟩
  rcases reads_token_longest (O := O) hsymbol hdot (hbranch.resolve_left hdot) (more ++ rest) with
    ⟨e', left, htext, hlongest', hread⟩
  rw [← List.cons_append, ← hmore] at htext hlongest' hread
  cases hlongest'.unique hlongest
  cases List.append_cancel_left htext
  exact hread

theorem reads_token_punctuator (p : Punctuator)
    (hrest : (Lexeme.punctuator p).goesOn rest = false) :
    O.Reads (bytes p.entry.spelling ++ rest) token
      (fun t => t.gist = (.punctuator p, .plain, false)) rest := by
  by_cases hellipsis : p = .ellipsis
  · exact hellipsis ▸ reads_token_ellipsis
  · by_cases hdot : p = .dot
    · subst hdot
      exact reads_token_dot hrest
    · have hentry : (bytes p.entry.spelling, p) ∈ Punctuator.table :=
        List.mem_append_left _ (List.mem_map.mpr ⟨p, p.mem_all, rfl⟩)
      have hhead : ∀ e ∈ Punctuator.table, e.2 ≠ .ellipsis → e.2 ≠ .dot →
          e.1.head? ≠ some (byte '.') := by
        decide +kernel
      have hlongest : Punctuator.Longest (bytes p.entry.spelling ++ rest)
          (bytes p.entry.spelling, p) := by
        refine Punctuator.longest_of_head hentry ?_
        cases rest with
        | nil => rfl
        | cons d rest =>
            simp only [Lexeme.goesOn, Lexeme.goesOnWith, Bool.or_eq_false_iff] at hrest
            exact hrest.1.1
      exact reads_token_entry hlongest (hhead _ hentry hellipsis hdot)

theorem reads_token_invalid {c : UInt8} (hc : Lexeme.isOdd c = true) :
    O.Reads (c :: rest) token (fun t => t.gist = (.invalid (text c), .plain, false)) rest := by
  simp only [Lexeme.isOdd, Bool.and_eq_true, Option.isNone_iff_eq_none] at hc
  have hdot : c ≠ byte '.' := by
    rintro rfl
    exact absurd hc.2 (by decide)
  refine reads_token ?_
  rw [tokenFrom_operator hc.1.1.1 hdot, operator_eq, (branch_eq_none_iff hdot).mpr hc.2]
  exact reads_finish _ _

theorem tokenFrom_number {c : UInt8} (hdigit : isDigit c.toNat = true) :
    tokenFrom (σ := σ) c = number c := by
  have hline : c ≠ newline := by
    rintro rfl
    cases hdigit
  have hident : isIdentStart c.toNat = false := by
    simp only [isDigit, isIdentStart, isLetter, Bool.and_eq_true, decide_eq_true_eq,
      Bool.or_eq_false_iff, Bool.and_eq_false_iff, decide_eq_false_iff_not, beq_eq_false_iff_ne,
      ne_eq] at hdigit ⊢
    omega
  rw [tokenFrom, if_neg hline, encodingOf_eq_none hident]
  dsimp only
  rw [if_neg (by simp [hident]), if_pos hdigit]

theorem reads_token_number {first : UInt8} {chars : List UInt8}
    (hbegins : Lexeme.beginsNumber (first :: chars) = true)
    (hchain : (first :: chars).IsChain fun c d => extendsNumber c d = true)
    (hrest : ∀ last, (first :: chars).getLast? = some last →
      rest.head?.any (extendsNumber last) = false) :
    O.Reads (first :: chars ++ rest) token
      (fun t => t.gist = (.number (textOf (first :: chars)), .plain, false)) rest := by
  have hnumber : O.Reads (chars ++ rest) (number first) _ rest := reads_number hchain hrest
  rw [List.cons_append]
  refine reads_token ?_
  simp only [Lexeme.beginsNumber, Bool.or_eq_true, Bool.and_eq_true, beq_iff_eq] at hbegins
  rcases hbegins with hdigit | ⟨rfl, hdigit⟩
  · rw [tokenFrom_number hdigit]
    exact hnumber
  · have hsecond : (chars ++ rest).head?.any (fun d => isDigit d.toNat) = true := by
      cases chars with
      | nil => cases hdigit
      | cons d chars => exact hdigit
    rw [show tokenFrom (σ := σ) (byte '.') = dots (byte '.') from rfl]
    refine (reads_peekIs _).bind_eq ?_
    rw [hsecond]
    exact hnumber

theorem reads_token_twoDots (hrest : rest.head? ≠ some (byte '.')) :
    O.Reads (byte '.' :: byte '.' :: rest) token
      (fun t => t.gist = (.ident "..", .plain, false)) rest :=
  reads_token ((reads_peekIs _).bind_eq (reads_skipIf.bind_eq
    ((reads_skipIf_other hrest).bind_eq (reads_finish _ _))))

theorem reads_token_dots (hrest : (Lexeme.ident "..").goesOn rest = false) :
    O.Reads (byte '.' :: byte '.' :: rest) token
      (fun t => t.gist = (.ident "..", .plain, false)) rest := by
  apply reads_token_twoDots
  cases rest with
  | nil => simp
  | cons d rest => simpa [Lexeme.goesOn, Lexeme.goesOnWith] using hrest

theorem reads_literalOrIdent {first : UInt8} {text : List UInt8} {encoding : Encoding}
    {P : Token → Prop} (hident : O.Reads text (ident first) P rest)
    (hdouble : text.head? ≠ some doubleQuote) (hsingle : text.head? ≠ some singleQuote)
    (height : encoding = .char16 → ∀ tail, text = byte '8' :: tail →
      tail.head? ≠ some doubleQuote) :
    O.Reads text (literalOrIdent first encoding) P rest := by
  refine (reads_skipIf_other hdouble).bind_eq ?_
  rw [if_neg (by simp)]
  refine (reads_skipIf_other hsingle).bind_eq ?_
  rw [if_neg (by simp)]
  split
  · next hencoding =>
    by_cases hhead : text.head? = some (byte '8')
    · refine reads_of_sound fun hsound => ?_
      rcases List.head?_eq_some_iff.mp hhead with ⟨tail, rfl⟩
      refine reads_skipIf.bind_eq ?_
      rw [if_pos rfl]
      refine (reads_skipIf_other (height hencoding tail rfl)).bind_eq ?_
      rw [if_neg (by simp)]
      exact (reads_unread hsound).bind fun _ _ => hident
    · refine (reads_skipIf_other hhead).bind_eq ?_
      rw [if_neg (by simp)]
      exact hident
  · exact hident

theorem decode_mark {c : UInt8} {encoding : Encoding} (h : encodingOf? c = some encoding) :
    Utf8.decode [c] ∈ ["L", "u", "U"] ∧
      (encoding = .char16 → Utf8.decode [c, byte '8'] = "u8") := by
  have htable : ∀ c ∈ [byte 'L', byte 'u', byte 'U'], Utf8.decode [c] ∈ ["L", "u", "U"] ∧
      (encodingOf? c = some .char16 → Utf8.decode [c, byte '8'] = "u8") := by
    decide +kernel
  have hmem : c ∈ [byte 'L', byte 'u', byte 'U'] := by
    simp only [List.mem_cons, List.not_mem_nil, or_false]
    unfold encodingOf? at h
    split at h
    · exact Or.inl ‹_›
    · split at h
      · exact Or.inr (Or.inl ‹_›)
      · split at h
        · exact Or.inr (Or.inr ‹_›)
        · cases h
  exact ⟨(htable c hmem).1, fun h16 => (htable c hmem).2 (h16 ▸ h)⟩

theorem reads_marked_name {first : UInt8} {content : List UInt8} {encoding : Encoding}
    (hencoding : encodingOf? first = some encoding)
    (hcontent : ∀ c ∈ content, isIdentChar c.toNat = true)
    (hdots : Utf8.decode (first :: content) ≠ "..")
    (hrest : (Lexeme.ident (Utf8.decode (first :: content))).goesOn rest = false) :
    O.Reads (content ++ rest) (literalOrIdent first encoding)
      (fun t => t.gist = (.ident (Utf8.decode (first :: content)), .plain, false)) rest := by
  rcases (Lexeme.goesOn_ident hdots).mp hrest with ⟨hends, hdouble, hsingle⟩
  rcases decode_mark hencoding with ⟨hletter, height⟩
  have hquotes : isIdentChar doubleQuote.toNat = false ∧
      isIdentChar singleQuote.toNat = false ∧ isIdentChar (byte '8').toNat = true := by decide
  have hnot : ∀ quote, isIdentChar quote.toNat = false → ∀ c ∈ content, c ≠ quote := by
    rintro quote hquote c hc rfl
    rw [hcontent c hc] at hquote
    cases hquote
  refine reads_literalOrIdent (reads_ident hcontent hends) ?_ ?_ fun h16 tail htail => ?_
  · cases content with
    | nil => exact hdouble (List.mem_append_left ["u8"] hletter)
    | cons c content => simpa using hnot _ hquotes.1 c List.mem_cons_self
  · cases content with
    | nil => exact hsingle hletter
    | cons c content => simpa using hnot _ hquotes.2.1 c List.mem_cons_self
  · cases content with
    | nil =>
        have hchar := hends.1
        rw [List.nil_append] at htail
        rw [htail] at hchar
        simp [hquotes.2.2] at hchar
    | cons c content =>
        rw [List.cons_append, List.cons.injEq] at htail
        rcases htail with ⟨rfl, rfl⟩
        cases content with
        | nil => exact hdouble (by rw [height h16]; decide)
        | cons d content => simpa using hnot _ hquotes.1 d (by simp)

theorem reads_token_name {first : UInt8} {content : List UInt8} {name : String}
    (hname : name = Utf8.decode (first :: content)) (hdots : name ≠ "..")
    (hfirst : isIdentStart first.toNat = true)
    (hcontent : ∀ c ∈ content, isIdentChar c.toNat = true)
    (hrest : (Lexeme.ident name).goesOn rest = false) :
    O.Reads (first :: content ++ rest) token (fun t => t.gist = (.ident name, .plain, false))
      rest := by
  subst hname
  have hline : first ≠ newline := by
    rintro rfl
    cases hfirst
  rw [List.cons_append]
  refine reads_token ?_
  rw [tokenFrom, if_neg hline]
  cases hencoding : encodingOf? first with
  | none =>
      dsimp only
      rw [if_pos hfirst]
      exact reads_ident hcontent ((Lexeme.goesOn_ident hdots).mp hrest).1
  | some encoding => exact reads_marked_name hencoding hcontent hdots hrest

theorem written_name {c : UInt8} {content : List UInt8} (hfirst : isIdentStart c.toNat = true)
    (hcontent : ∀ b ∈ content, Lexeme.isNameByte b = true)
    (hspell : (Lexeme.ident (Utf8.decode (c :: content))).Spellable) :
    ∃ d w, Utf8.encode (Utf8.decode (c :: content)) = d :: w ∧ isIdentStart d.toNat = true ∧
      ∀ b ∈ w, isIdentChar b.toNat = true := by
  have hlarge : ∀ {b : UInt8}, 0x80 ≤ b.toNat → isIdentStart b.toNat = true := fun h => by
    simp [isIdentStart, h]
  rcases Utf8.encode_decode_cons c content with ⟨d, w, hwritten, hd⟩
  refine ⟨d, w, hwritten, ?_, fun b hb => ?_⟩
  · rcases hd with rfl | ⟨-, hle⟩
    · exact hfirst
    · exact hlarge hle
  · have hmem : b ∈ Utf8.encode (Utf8.decode (c :: content)) :=
      hwritten ▸ List.mem_cons_of_mem d hb
    have hchar : ∀ a : Char, a ∉ (Utf8.decode (c :: content)).toList → a.toNat < 0x80 →
        b ≠ UInt8.ofNat a.toNat := by
      rintro a hnot hascii rfl
      refine hnot ?_
      have hnat : (UInt8.ofNat a.toNat).toNat = a.toNat := by
        rw [UInt8.toNat_ofNat']
        omega
      have hback := Utf8.mem_of_mem_encode (by rw [hnat]; exact hascii) hmem
      rwa [hnat, Char.ofNat_toNat] at hback
    rcases Utf8.mem_encode_decode hmem with hle | hbyte
    · rw [isIdentChar, hlarge hle, Bool.true_or]
    · rcases List.mem_cons.mp hbyte with rfl | hbyte
      · rw [isIdentChar, hfirst, Bool.true_or]
      · have hname := hcontent b hbyte
        simp only [Lexeme.isNameByte, Bool.or_eq_true, beq_iff_eq] at hname
        rcases hname with (hident | hat) | hgrave
        · exact hident
        · exact absurd hat (hchar '@' hspell.1 (by decide))
        · exact absurd hgrave (hchar '\x60' hspell.2 (by decide))

/-- What is known of the characters that a lexeme is written with. -/
structure Inked (lexeme : Lexeme) (d : UInt8) (w : List UInt8) : Prop where
  breakless : ∀ b ∈ d :: w, b ≠ newline ∧ b ≠ carriageReturn
  unblank : isBlank d.toNat = false
  escape : d = backslash → lexeme = .invalid "\\" ∧ w = []
  open_end : (d :: w).getLast? = some backslash → lexeme = .invalid "\\"
  hash : d = byte '#' → lexeme = .punctuator .hash ∨ lexeme = .punctuator .hashHash
  slash : d = byte '/' →
    lexeme = .punctuator .slash ∧ w = [] ∨ lexeme = .punctuator .slashAssign ∧ w = [byte '=']

theorem inked_of_first {lexeme : Lexeme} {d : UInt8} {w : List UInt8}
    (hbreakless : ∀ b ∈ d :: w, b ≠ newline ∧ b ≠ carriageReturn)
    (hblank : isBlank d.toNat = false) (hd : d ∉ [backslash, byte '#', byte '/'])
    (hlast : (d :: w).getLast? ≠ some backslash) : Inked lexeme d w where
  breakless := hbreakless
  unblank := hblank
  escape h := absurd (by rw [h]; decide) hd
  open_end h := absurd h hlast
  hash h := absurd (by rw [h]; decide) hd
  slash h := absurd (by rw [h]; decide) hd

theorem inked_word {lexeme : Lexeme} {d : UInt8} {w : List UInt8}
    (h : ∀ b ∈ d :: w, Lexeme.isWordByte b = true) : Inked lexeme d w := by
  have hne : ∀ b ∈ d :: w, ∀ c, Lexeme.isWordByte c = false → b ≠ c := by
    rintro b hb _ hc rfl
    rw [h b hb] at hc
    cases hc
  refine inked_of_first (fun b hb => ⟨hne b hb _ (by decide), hne b hb _ (by decide)⟩) ?_ ?_ ?_
  · have hd := h d List.mem_cons_self
    refine Bool.eq_false_iff.mpr fun hblank => ?_
    simp only [isBlank, Bool.or_eq_true, beq_iff_eq] at hblank
    have hspace : d ∈ [byte ' ', 0x09, 0x0C, 0x0B] := by
      simp only [List.mem_cons, List.not_mem_nil, or_false, ← UInt8.toNat_inj]
      exact or_assoc.mp (or_assoc.mp hblank)
    exact absurd hd (by
      rw [(by decide +kernel : ∀ d ∈ [byte ' ', 0x09, 0x0C, 0x0B],
        Lexeme.isWordByte d = false) d hspace]
      decide)
  · intro hd
    have hfirst : ∀ c ∈ [backslash, byte '#', byte '/'], Lexeme.isWordByte c = false := by
      decide +kernel
    exact hne d List.mem_cons_self d (hfirst d hd) rfl
  · exact fun hlast => hne _ (List.mem_of_getLast? hlast) _ (by decide) rfl

theorem inked_quoted {lexeme : Lexeme} (encoding : Encoding) {quote : UInt8}
    (hquote : quote = doubleQuote ∨ quote = singleQuote) {body : List UInt8}
    (hprint : ∀ b ∈ bytes encoding.mark.toList ++ quote :: (body ++ [quote]),
      0x20 ≤ b.toNat ∧ b.toNat < 0x7F) :
    ∃ d w, bytes encoding.mark.toList ++ quote :: (body ++ [quote]) = d :: w ∧
      Inked lexeme d w := by
  have hfirst : ∀ d ∈ [doubleQuote, singleQuote, byte 'L', byte 'u', byte 'U'],
      isBlank d.toNat = false ∧ d ∉ [backslash, byte '#', byte '/'] := by decide +kernel
  have hhead : ∃ d w, bytes encoding.mark.toList ++ quote :: (body ++ [quote]) = d :: w ∧
      d ∈ [doubleQuote, singleQuote, byte 'L', byte 'u', byte 'U'] := by
    have hmem : quote ∈ [doubleQuote, singleQuote, byte 'L', byte 'u', byte 'U'] := by
      rcases hquote with rfl | rfl
      · decide
      · decide
    cases encoding with
    | plain => exact ⟨quote, _, rfl, hmem⟩
    | wide => exact ⟨byte 'L', _, rfl, by decide⟩
    | char32 => exact ⟨byte 'U', _, rfl, by decide⟩
    | char16 => exact ⟨byte 'u', _, rfl, by decide⟩
    | utf8 => exact ⟨byte 'u', _, rfl, by decide⟩
  have hlast : (bytes encoding.mark.toList ++ quote :: (body ++ [quote])).getLast? =
      some quote := by
    rw [← List.cons_append, ← List.append_assoc, List.getLast?_concat]
  rcases hhead with ⟨d, w, hwritten, hd⟩
  rw [hwritten] at hprint hlast
  refine ⟨d, w, hwritten, inked_of_first (fun b hb => ?_) (hfirst d hd).1 (hfirst d hd).2 ?_⟩
  · have hb := (hprint b hb).1
    constructor
    · rintro rfl
      exact absurd hb (by decide)
    · rintro rfl
      exact absurd hb (by decide)
  · rw [hlast, Ne, Option.some.injEq]
    rcases hquote with rfl | rfl
    · decide
    · decide

theorem inked_punctuator (p : Punctuator) :
    ∃ d w, bytes p.entry.spelling = d :: w ∧ Inked (.punctuator p) d w := by
  have htable : ∀ p : Punctuator, p.entry.spelling ≠ [] ∧
      (∀ b ∈ bytes p.entry.spelling, b ∉ [newline, carriageReturn, backslash] ∧
        isBlank b.toNat = false) ∧
      ((bytes p.entry.spelling).head? = some (byte '#') → p = .hash ∨ p = .hashHash) ∧
      ((bytes p.entry.spelling).head? = some (byte '/') → p = .slash ∨ p = .slashAssign) := by
    intro p
    cases p <;> decide +kernel
  rcases htable p with ⟨hne, hbytes, hhash, hslash⟩
  cases hspelling : bytes p.entry.spelling with
  | nil => exact absurd (List.map_eq_nil_iff.mp hspelling) hne
  | cons d w =>
      rw [hspelling] at hbytes hhash hslash
      refine ⟨d, w, rfl, fun b hb => ?_, (hbytes d List.mem_cons_self).2, fun hd => ?_,
        fun hlast => ?_, fun hd => ?_, fun hd => ?_⟩
      · have hb := (hbytes b hb).1
        simp only [List.mem_cons, List.not_mem_nil, or_false, not_or] at hb
        exact ⟨hb.1, hb.2.1⟩
      · exact absurd (by rw [hd]; decide) (hbytes d List.mem_cons_self).1
      · exact absurd (by decide) (hbytes _ (List.mem_of_getLast? hlast)).1
      · exact (hhash (congrArg some hd)).imp (congrArg _) (congrArg _)
      · rcases hslash (congrArg some hd) with rfl | rfl
        · exact Or.inl ⟨rfl, (List.cons.inj hspelling).2.symm⟩
        · exact Or.inr ⟨rfl, (List.cons.inj hspelling).2.symm⟩

theorem inked_invalid {c : UInt8} (hc : Lexeme.isOdd c = true) :
    Inked (.invalid (text c)) c [] := by
  simp only [Lexeme.isOdd, Lexeme.isSymbol, Bool.and_eq_true, Bool.not_eq_true', bne_iff_ne,
    Option.isNone_iff_eq_none, List.contains_eq_mem, decide_eq_false_iff_not] at hc
  rcases hc with ⟨⟨⟨⟨-, hline⟩, hcr⟩, hblank⟩, hnone⟩
  refine ⟨?_, hblank, fun h => ⟨h ▸ rfl, rfl⟩, ?_, fun h => ?_, fun h => ?_⟩
  · refine List.forall_mem_singleton.mpr ⟨?_, hcr⟩
    rintro rfl
    exact hline (by decide)
  · intro h
    rw [List.getLast?_singleton, Option.some.injEq] at h
    exact h ▸ rfl
  · rw [h] at hnone
    exact absurd hnone (by decide)
  · rw [h] at hnone
    exact absurd hnone (by decide)

theorem inked_written {lexeme : Lexeme} {encoding : Encoding} (hformed : lexeme.Formed encoding)
    (hspell : lexeme.Spellable) :
    ∃ d w, Utf8.encode (lexeme.spelling encoding) = d :: w ∧ Inked lexeme d w := by
  cases lexeme with
  | ident name =>
      rcases hformed.2 with rfl | ⟨c, content, rfl, hfirst, hcontent⟩
      · rw [Lexeme.spelling]
        exact ⟨byte '.', [byte '.'], by decide +kernel, inked_word (by decide +kernel)⟩
      · rcases written_name hfirst hcontent hspell with ⟨d, w, hwritten, hd, hw⟩
        refine ⟨d, w, hwritten, inked_word (List.forall_mem_cons.mpr ⟨?_, fun b hb => ?_⟩)⟩
        · simp [Lexeme.isWordByte, isIdentChar, hd]
        · simp [Lexeme.isWordByte, hw b hb]
  | number spelled =>
      rcases hformed.2 with ⟨chars, rfl, hbegins, hchain⟩
      have hbytes := Lexeme.number_bytes hbegins hchain
      rw [Lexeme.spelling, Utf8.encode_textOf fun b hb => (hbytes b hb).2]
      cases chars with
      | nil => cases hbegins
      | cons d w => exact ⟨d, w, rfl, inked_word fun b hb => (hbytes b hb).1⟩
  | punctuator p =>
      rw [Lexeme.spelling, Lexeme.written_punctuator]
      exact inked_punctuator p
  | string content =>
      rw [written_string]
      exact inked_quoted encoding (Or.inl rfl)
        (printable_quoted (printable_spellString content) encoding '"' (by decide))
  | char value =>
      rw [written_char]
      exact inked_quoted encoding (Or.inr rfl)
        (printable_quoted (printable_spellChar value) encoding '\'' (by decide))
  | invalid spelled =>
      rcases hformed.2 with ⟨c, rfl, hc⟩
      exact ⟨c, [], Lexeme.encode_text_odd hc, inked_invalid hc⟩
  | _ => exact hformed.elim

theorem reads_token_written {lexeme : Lexeme} {encoding : Encoding}
    (hformed : lexeme.Formed encoding) (hspell : lexeme.Spellable)
    (hrest : lexeme.goesOn rest = false) :
    O.Reads (Utf8.encode (lexeme.spelling encoding) ++ rest) token
      (fun t => t.gist = (lexeme, encoding, false)) rest := by
  cases lexeme with
  | ident name =>
      rcases hformed with ⟨rfl, rfl | ⟨c, content, rfl, hfirst, hcontent⟩⟩
      · exact reads_token_dots hrest
      · rcases written_name hfirst hcontent hspell with ⟨d, w, hwritten, hd, hw⟩
        have hdots : Utf8.decode (c :: content) ≠ ".." := by
          intro hname
          rw [hname] at hwritten
          have hdot : byte '.' = d := (List.cons.inj hwritten).1
          rw [← hdot] at hd
          exact absurd hd (by decide)
        rw [Lexeme.spelling, hwritten]
        refine reads_token_name ?_ hdots hd hw hrest
        rw [← hwritten, Utf8.decode_encode]
  | number spelled =>
      rcases hformed with ⟨rfl, chars, rfl, hbegins, hchain⟩
      have hwritten : Utf8.encode (textOf chars) = chars :=
        Utf8.encode_textOf fun b hb => (Lexeme.number_bytes hbegins hchain b hb).2
      rw [Lexeme.spelling, hwritten]
      cases chars with
      | nil => cases hbegins
      | cons d w =>
          refine reads_token_number hbegins hchain fun last hlast => ?_
          cases rest with
          | nil => rfl
          | cons e rest =>
              rw [Lexeme.goesOn, Lexeme.goesOnWith, hwritten, hlast] at hrest
              exact hrest
  | punctuator p =>
      cases (show encoding = .plain from hformed)
      rw [Lexeme.spelling, Lexeme.written_punctuator]
      exact reads_token_punctuator p hrest
  | string content =>
      rw [written_string, List.append_assoc, List.cons_append, List.append_assoc]
      exact reads_token_string content encoding
  | char value =>
      rw [written_char, List.append_assoc, List.cons_append, List.append_assoc]
      exact reads_token_char hformed.1 hformed.2 hspell.1 hspell.2
  | invalid spelled =>
      rcases hformed with ⟨rfl, c, rfl, hc⟩
      rw [Lexeme.spelling, Lexeme.encode_text_odd hc]
      exact reads_token_invalid hc
  | _ => exact hformed.elim

theorem unblank_written {lexeme : Lexeme} {d : UInt8} {w : List UInt8} (h : Inked lexeme d w)
    (hrest : lexeme.goesOn rest = false) : Unblank (d :: w ++ rest) := by
  refine ⟨h.unblank, fun hd => ?_⟩
  rcases h.slash hd with ⟨rfl, rfl⟩ | ⟨rfl, rfl⟩
  · cases rest with
    | nil => simp
    | cons e rest =>
        simp only [Lexeme.goesOn, Lexeme.goesOnWith, Bool.or_eq_false_iff, beq_self_eq_true,
          Bool.true_and, beq_eq_false_iff_ne] at hrest
        simpa using hrest.1.2
  · show some (byte '=') ≠ some (byte '*') ∧ some (byte '=') ≠ some (byte '/')
    decide

end CLex.Outlook
