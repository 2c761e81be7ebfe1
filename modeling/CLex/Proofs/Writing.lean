import CLex.Proofs.Consumption
import CLex.Proofs.Longest

namespace CLex.Lexer

open LexM Character Lines

variable {I : List UInt8 → Prop}

/-- From behind the opening quote of a string literal to behind the closing one. -/
inductive StringBody : List UInt8 → List UInt8 → Prop where
  | close (rest : List UInt8) : StringBody (doubleQuote :: rest) rest
  | plain {c : UInt8} {text rest : List UInt8} (hquote : c ≠ doubleQuote) (hc : c ≠ backslash)
      (body : StringBody text rest) : StringBody (c :: text) rest
  | escape {c : UInt8} {text rest : List UInt8} (body : StringBody text rest) :
      StringBody (backslash :: c :: text) rest

/-- A string or character literal without its encoding mark. -/
inductive Quoted : List UInt8 → List UInt8 → Prop where
  | string {text rest : List UInt8} (body : StringBody text rest) :
      Quoted (doubleQuote :: text) rest
  | char {c : UInt8} (hc : c ≠ backslash) (rest : List UInt8) :
      Quoted (singleQuote :: c :: singleQuote :: rest) rest
  | escape {c : UInt8} {text rest : List UInt8}
      (body : Run (· ≠ singleQuote) text (singleQuote :: rest)) :
      Quoted (singleQuote :: backslash :: c :: text) rest

theorem HexDigit.ne {c d : UInt8} (hc : HexDigit c) (hd : (hexValue? d.toNat).isSome = false) :
    c ≠ d := by
  rintro rfl
  rw [HexDigit, hd] at hc
  cases hc

theorem StringBody.run {text text' rest : List UInt8} (hrun : Run HexDigit text text')
    (body : StringBody text' rest) : StringBody text rest := by
  rcases hrun with ⟨w, rfl, hw⟩
  induction w with
  | nil => exact body
  | cons c w ih =>
      have hc := hw c List.mem_cons_self
      exact .plain (hc.ne (by decide)) (hc.ne (by decide))
        (ih fun d hd => hw d (List.mem_cons_of_mem c hd))

/-- The text at the end of a round ends the literal wherever the text before it does. -/
theorem leaves_stringRound (text bytes : List UInt8) :
    Leaves (fun rest => ∀ rest', StringBody rest rest' → StringBody text rest')
      (stringRound bytes)
      (AfterRound (fun _ rest => ∀ rest', StringBody rest rest' → StringBody text rest')
        fun _ => StringBody text) := by
  have escaped : Leaves (fun rest => ∀ rest', StringBody (backslash :: rest) rest' →
        StringBody text rest') escape
      (fun _ rest => ∀ rest', StringBody rest rest' → StringBody text rest') := by
    refine leaves_escape ?_ ?_
    · rintro - rest' ⟨⟩
    · intro c text' rest hI hrun rest' body
      exact hI rest' (.escape (.run hrun body))
  refine leaves_bind leaves_next fun c => ?_
  cases c with
  | none => exact leaves_bind leaves_marked fun _ => leaves_throw _
  | some c =>
      dsimp only
      split
      · next hc =>
        subst hc
        exact leaves_pure fun rest h => h rest (.close rest)
      · next hquote =>
        split
        · next hc =>
          subst hc
          refine leaves_bind (leaves_peekIs _) fun named => ?_
          refine leaves_bind (escaped.pre fun rest h => h.1) fun value => ?_
          split
          · exact leaves_bind (leaves_universalBytes _) fun _ => leaves_pure fun _ h => h
          · exact leaves_pure fun _ h => h
        · next hc => exact leaves_pure fun rest h rest' body => h rest' (.plain hquote hc body)

theorem leaves_stringLiteral (text : List UInt8) (encoding : Encoding) :
    Leaves (· = text) (stringLiteral encoding)
      (fun a rest => (∃ bytes, a.lexeme = .string bytes) ∧ StringBody text rest) := by
  refine leaves_bind ((leaves_loop (leaves_stringRound text) []).pre ?_) fun bytes => ?_
  · rintro rest rfl rest' body
    exact body
  · exact (leaves_finish _ encoding).post fun a rest h => ⟨⟨bytes, h.1⟩, h.2⟩

theorem leaves_charLiteral (text : List UInt8) (encoding : Encoding) :
    Leaves (· = text) (charLiteral encoding)
      (fun a rest => (∃ value, a.lexeme = .char value) ∧ Quoted (singleQuote :: text) rest) := by
  refine leaves_bind leaves_next fun c => ?_
  cases c with
  | none => exact leaves_bind leaves_marked fun _ => leaves_throw _
  | some c =>
      refine leaves_bind (Q := fun _ rest =>
        ∀ rest', rest = singleQuote :: rest' → Quoted (singleQuote :: text) rest') ?_ fun value => ?_
      · unfold literalValue
        split
        · next hc =>
          subst hc
          refine leaves_escape (fun _ rest' h => nomatch h) ?_
          rintro c text' rest rfl hrun rest' rfl
          exact .escape (hrun.mono fun d hd => hd.ne (by decide))
        · next hc =>
          refine leaves_pure ?_
          rintro rest rfl rest' rfl
          exact .char hc rest'
      · refine leaves_bind leaves_next fun d => ?_
        split
        · next hd =>
          cases hd
          refine (leaves_finish _ encoding).post ?_
          rintro a rest ⟨hlexeme, h⟩
          exact ⟨⟨_, hlexeme⟩, h rest rfl⟩
        · exact leaves_bind leaves_marked fun _ => leaves_throw _

/-- The characters that may end a word and begin something else. -/
def special : List UInt8 :=
  [newline, byte '#', doubleQuote, singleQuote, byte '/', byte ' ', byte '\t', 0x0B, 0x0C]

/-- A character that begins neither blanks nor literals nor directives. -/
def Inert (c : UInt8) : Prop :=
  c ∉ special

instance : DecidablePred Inert :=
  fun c => inferInstanceAs (Decidable (c ∉ special))

theorem inert_of {p : UInt8 → Bool} (hp : ∀ c ∈ special, p c = false) {c : UInt8}
    (hc : p c = true) : Inert c := by
  intro h
  rw [hp c h] at hc
  cases hc

theorem Inert.ne {c d : UInt8} (h : Inert c) (hd : d ∈ special) : c ≠ d := by
  rintro rfl
  exact h hd

theorem Inert.not_isBlank {c : UInt8} (h : Inert c) : isBlank c.toNat = false := by
  have hcode : ∀ {d : UInt8}, d ∈ special → ¬ c.toNat = d.toNat :=
    fun hd heq => h.ne hd (UInt8.toNat_inj.mp heq)
  simp only [isBlank, Bool.or_eq_false_iff, beq_eq_false_iff_ne]
  refine ⟨⟨⟨hcode (d := byte ' ') ?_, hcode (d := byte '\t') ?_⟩, hcode (d := 0x0C) ?_⟩,
    hcode (d := 0x0B) ?_⟩ <;> decide

theorem leaves_identRound {text : List UInt8} (htext : Unjoined text) (bytes : List UInt8) :
    Leaves (Run Inert text) (identRound bytes)
      (AfterRound (fun _ => Run Inert text) fun _ => Run Inert text) := by
  refine leaves_bind leaves_next fun c => ?_
  cases c with
  | none => exact leaves_pure fun rest h => h.2
  | some c =>
      have put : ∀ name : List UInt8, Leaves (fun rest => Run Inert text (c :: rest))
          (do unread c; pure (Round.done name) : LexOn Book (Round (List UInt8) (List UInt8)))
          (AfterRound (fun _ => Run Inert text) fun _ => Run Inert text) := by
        intro name
        refine leaves_bind (leaves_unread.pre fun rest h => ⟨h.unjoined htext, h⟩) fun _ => ?_
        exact leaves_pure fun _ h => h
      dsimp only
      split
      · next hc =>
        refine leaves_pure fun rest h => h.snoc (inert_of (p := fun c => isIdentChar c.toNat) ?_ hc)
        decide +kernel
      · split
        · next hc =>
          subst hc
          refine leaves_bind (leaves_peekIs _) fun named => ?_
          cases named with
          | true =>
              refine leaves_bind (leaves_escape (J := Run Inert text) ?_ ?_) fun value => ?_
              · exact fun h => h.1.snoc (by decide)
              · rintro c text' rest ⟨h, hc⟩ hrun
                rcases hc rfl with ⟨d, tail, heq, hmark⟩
                rcases List.cons.inj heq with ⟨rfl, rfl⟩
                have hinert : Inert c :=
                  inert_of (p := fun c => isUniversalMark c.toNat) (by decide +kernel) hmark
                refine ((h.snoc (by decide)).snoc hinert).trans (hrun.mono fun e he => ?_)
                exact inert_of (p := fun c => (hexValue? c.toNat).isSome) (by decide +kernel) he
              · exact leaves_bind (leaves_universalBytes _) fun _ => leaves_pure fun _ h => h
          | false => exact (put _).pre fun rest h => h.1
        · exact put _

theorem leaves_ident {text : List UInt8} (htext : Unjoined text) (first : UInt8) :
    Leaves (Run Inert text) (ident first)
      (fun a rest => (∃ name, a.lexeme = .ident name) ∧ Run Inert text rest) := by
  refine leaves_bind (leaves_loop (leaves_identRound htext) [first]) fun name => ?_
  exact (leaves_finish _ .plain).post fun a rest h => ⟨⟨_, h.1⟩, h.2⟩

theorem leaves_number (text : List UInt8) (first : UInt8) :
    Leaves (Run Inert text) (number first)
      (fun a rest => (∃ spelled, a.lexeme = .number spelled) ∧ Run Inert text rest) := by
  refine leaves_bind (leaves_loop (I := fun _ => Run Inert text) (Q := fun _ => Run Inert text)
    (fun chars => leaves_bind (leaves_run ?_) fun c => ?_) (first, [])) fun chars => ?_
  · intro c hc
    have hall : ∀ d ∈ special, (isDigit d.toNat || isLetter d.toNat || d == byte '.' ||
        isSign d.toNat) = false := by decide +kernel
    refine inert_of hall ?_
    simp only [extendsNumber, Bool.or_eq_true, Bool.and_eq_true] at hc ⊢
    exact hc.imp_right And.right
  · cases c with
    | none => exact leaves_pure fun _ h => h
    | some c => exact leaves_pure fun _ h => h
  · exact (leaves_finish _ .plain).post fun a rest h => ⟨⟨_, h.1⟩, h.2⟩

/-- A character that begins neither a literal nor a directive nor a line. -/
def Free (c : UInt8) : Prop :=
  c ∉ [newline, byte '#', doubleQuote, singleQuote]

instance : DecidablePred Free :=
  fun c => inferInstanceAs (Decidable (c ∉ [newline, byte '#', doubleQuote, singleQuote]))

theorem Inert.free {c : UInt8} (h : Inert c) : Free c :=
  fun hc => h (List.mem_append_left _ hc)

/-- How a token is written that begins with `c` and goes on in `text`. -/
inductive Written (c : UInt8) (text : List UInt8) : Lexeme → List UInt8 → Prop where
  | newline (hc : c = newline) : Written c text .newline text
  | word {lexeme : Lexeme} {rest : List UInt8} (hc : Free c)
      (hlexeme : ∀ p, lexeme ≠ .punctuator p) (run : Run Inert text rest) :
      Written c text lexeme rest
  | spelled {w rest : List UInt8} {p : Punctuator} (htext : text = w ++ rest)
      (hp : (c :: w, p) ∈ Punctuator.table) : Written c text (.punctuator p) rest
  | literal {lexeme : Lexeme} {start rest : List UInt8}
      (hlexeme : (∃ bytes, lexeme = .string bytes) ∨ ∃ value, lexeme = .char value)
      (run : Run Inert (c :: text) start) (quoted : Quoted start rest) :
      Written c text lexeme rest

variable {text : List UInt8} {c : UInt8}

theorem leaves_branch (htext : Unjoined text) {b : Branch} {tried : List (List UInt8)}
    {w : List UInt8} (h : b.Munches tried (c :: w)) :
    Leaves (fun rest => text = w ++ rest) b.run
      (fun p rest => ∃ w, text = w ++ rest ∧ (c :: w, p) ∈ Punctuator.table) := by
  induction b generalizing tried w with
  | found p => exact leaves_pure fun rest hrest => ⟨w, hrest, h.1⟩
  | next d taken other htaken hother =>
      refine leaves_bind (leaves_skipIf d) fun follows => ?_
      cases follows with
      | true =>
          refine (htaken (w := w ++ [d]) h.1).pre fun rest hrest => ?_
          rw [List.append_assoc]
          exact hrest
      | false => exact hother h.2
  | pair d e taken other =>
      refine leaves_bind (leaves_skipIf d) fun first => ?_
      cases first with
      | true =>
          refine leaves_bind (leaves_skipIf e) fun second => ?_
          cases second with
          | true =>
              refine leaves_pure fun rest hrest => ⟨w ++ [d, e], ?_, h.1.1⟩
              rw [List.append_assoc]
              exact hrest
          | false =>
              refine leaves_bind (leaves_unread.pre ?_) fun _ =>
                leaves_pure fun rest hrest => ⟨w, hrest, h.2.1⟩
              rintro rest rfl
              exact ⟨(List.isChain_append.mp htext).2.1, rfl⟩
      | false => exact leaves_pure fun rest hrest => ⟨w, hrest, h.2.1⟩

theorem leaves_operator (htext : Unjoined text)
    (hc : c ≠ newline ∧ c ≠ doubleQuote ∧ c ≠ singleQuote) :
    Leaves (· = text) (operator c) (fun a rest => Written c text a.lexeme rest) := by
  rw [operator_eq]
  cases hb : Branch.of? c with
  | some b =>
      refine leaves_bind ((leaves_branch htext (Branch.munches_of hb)).pre ?_) fun p => ?_
      · rintro rest rfl
        rfl
      · refine (leaves_finish _ .plain).post ?_
        rintro a rest ⟨hlexeme, w, hrest, hp⟩
        rw [hlexeme]
        exact .spelled hrest hp
  | none =>
      refine (leaves_finish _ .plain).post ?_
      rintro a rest ⟨hlexeme, rfl⟩
      rw [hlexeme]
      have hhash : c ≠ byte '#' := by
        rintro rfl
        cases hb
      exact .word (by simp [Free, hc, hhash]) (fun p h => nomatch h) (.refl rest)

theorem written_ident (hc : Free c) {a : Token} {rest : List UInt8}
    (h : (∃ name, a.lexeme = .ident name) ∧ Run Inert text rest) :
    Written c text a.lexeme rest := by
  rcases h with ⟨⟨name, hlexeme⟩, hrun⟩
  rw [hlexeme]
  exact .word hc (fun p h => nomatch h) hrun

theorem leaves_number_written (hc : Free c) :
    Leaves (· = text) (number c) (fun a rest => Written c text a.lexeme rest) := by
  refine ((leaves_number text c).post ?_).pre ?_
  · rintro a rest ⟨⟨spelled, hlexeme⟩, hrun⟩
    rw [hlexeme]
    exact .word hc (fun p h => nomatch h) hrun
  · rintro rest rfl
    exact .refl rest

theorem leaves_dots :
    Leaves (· = text) (dots (byte '.')) (fun a rest => Written (byte '.') text a.lexeme rest) := by
  refine leaves_bind (leaves_peekIs _) fun digit => ?_
  cases digit with
  | true => exact (leaves_number_written (by decide)).pre fun rest h => h.1
  | false =>
      refine leaves_bind ((leaves_skipIf (byte '.')).pre fun rest h => h.1) fun second => ?_
      cases second with
      | true =>
          refine leaves_bind ((leaves_skipIf (byte '.')).pre fun rest h => h) fun third => ?_
          cases third with
          | true =>
              refine (leaves_finish _ .plain).post ?_
              rintro a rest ⟨hlexeme, htext⟩
              rw [hlexeme]
              exact .spelled (w := [byte '.', byte '.']) htext.symm (by decide)
          | false =>
              refine (leaves_finish _ .plain).post ?_
              rintro a rest ⟨hlexeme, htext⟩
              refine written_ident (by decide) ⟨⟨_, hlexeme⟩, [byte '.'], htext.symm, ?_⟩
              decide +kernel
      | false =>
          refine (leaves_finish _ .plain).post ?_
          rintro a rest ⟨hlexeme, htext⟩
          rw [hlexeme]
          exact .spelled (w := []) htext.symm (by decide)

theorem leaves_literalOrIdent (htext : Unjoined text) (hc : Inert c) (encoding : Encoding) :
    Leaves (· = text) (literalOrIdent c encoding) (fun a rest => Written c text a.lexeme rest) := by
  have word : Leaves (· = text) (ident c) (fun a rest => Written c text a.lexeme rest) := by
    refine ((leaves_ident htext c).post fun a rest h => written_ident hc.free h).pre ?_
    rintro rest rfl
    exact .refl rest
  -- A string literal whose opening quote has been read, behind the mark `w`.
  have string : ∀ (w : List UInt8) (encoding : Encoding), (∀ d ∈ w, Inert d) →
      Leaves (fun rest => text = w ++ doubleQuote :: rest) (stringLiteral encoding)
        (fun a rest => Written c text a.lexeme rest) := by
    intro w encoding hw rest lx hrest
    refine ((leaves_stringLiteral rest encoding).post ?_) rest lx rfl
    rintro a rest' ⟨hlexeme, body⟩
    refine .literal (Or.inl hlexeme) ⟨c :: w, by rw [hrest]; rfl, ?_⟩ (.string body)
    exact List.forall_mem_cons.mpr ⟨hc, hw⟩
  refine leaves_bind (leaves_skipIf doubleQuote) fun quoted => ?_
  cases quoted with
  | true => exact (string [] encoding (by simp)).pre fun rest h => h.symm
  | false =>
      refine leaves_bind (leaves_skipIf singleQuote) fun quoted => ?_
      cases quoted with
      | true =>
          intro rest lx hrest
          refine ((leaves_charLiteral rest encoding).post ?_) rest lx rfl
          rintro a rest' ⟨hlexeme, quoted⟩
          refine .literal (Or.inr hlexeme) ⟨[c], by rw [← hrest]; rfl, ?_⟩ quoted
          exact fun d hd => List.mem_singleton.mp hd ▸ hc
      | false =>
          simp only [Bool.false_eq_true, if_false]
          split
          · refine leaves_bind (leaves_skipIf (byte '8')) fun eight => ?_
            cases eight with
            | true =>
                refine leaves_bind (leaves_skipIf doubleQuote) fun quoted => ?_
                cases quoted with
                | true => exact (string [byte '8'] .utf8 (by decide +kernel)).pre fun rest h => h.symm
                | false =>
                    refine leaves_bind (leaves_unread.pre fun rest h => ⟨?_, h⟩) fun _ => word
                    exact (show byte '8' :: rest = text from h) ▸ htext
            | false => exact word
          · exact word

theorem leaves_tokenFrom (c : UInt8) :
    Leaves (· = text) (tokenFrom c) (fun a rest => Written c text a.lexeme rest) := by
  refine leaves_unjoined ?_
  rintro rest lx ⟨htext, rfl⟩
  refine (?_ : Leaves (· = rest) (tokenFrom c) _) rest lx rfl
  unfold tokenFrom
  split
  · next hc =>
    refine (leaves_finish _ .plain).post ?_
    rintro a rest ⟨hlexeme, rfl⟩
    rw [hlexeme]
    exact .newline hc
  · next hline =>
    have inert : isIdentStart c.toNat = true → Inert c :=
      inert_of (p := fun c => isIdentStart c.toNat) (by decide +kernel)
    split
    · next encoding he =>
      exact leaves_literalOrIdent htext (inert (Simulation.isIdentStart_of_encodingOf he)) encoding
    · split
      · next hc =>
        refine ((leaves_ident htext c).post fun a rest' h => written_ident (inert hc).free h).pre ?_
        rintro rest rfl
        exact .refl rest
      · split
        · next hc =>
          have digit : Inert c := inert_of (p := fun c => isDigit c.toNat) (by decide +kernel) hc
          exact leaves_number_written digit.free
        · split
          · next hc =>
            subst hc
            refine (leaves_stringLiteral rest .plain).post ?_
            rintro a rest' ⟨hlexeme, body⟩
            exact .literal (Or.inl hlexeme) (.refl _) (.string body)
          · next hdouble =>
            split
            · next hc =>
              subst hc
              refine (leaves_charLiteral rest .plain).post ?_
              rintro a rest' ⟨hlexeme, quoted⟩
              exact .literal (Or.inr hlexeme) (.refl _) quoted
            · next hsingle =>
              split
              · next hc =>
                subst hc
                exact leaves_dots
              · exact leaves_operator htext ⟨hline, hdouble, hsingle⟩

theorem written_hash {lexeme : Lexeme} {rest : List UInt8}
    (h : Written (byte '#') text lexeme rest) :
    lexeme = .punctuator .hash ∧ rest = text ∨
      lexeme = .punctuator .hashHash ∧ text = byte '#' :: rest := by
  cases h with
  | newline hc => exact absurd hc (by decide)
  | word hc => exact absurd hc (by decide)
  | @spelled w _ _ htext hp =>
      rcases (Punctuator.spelling_hash _ hp).1 rfl with ⟨hword, rfl⟩ | ⟨hword, rfl⟩
      · rw [(List.cons.inj hword).2] at htext
        exact Or.inl ⟨rfl, htext.symm⟩
      · rw [(List.cons.inj hword).2] at htext
        exact Or.inr ⟨rfl, htext⟩
  | literal _ run quoted =>
      rcases run with ⟨w, htext, hw⟩
      cases w with
      | nil =>
          rw [List.nil_append] at htext
          subst htext
          cases quoted
      | cons d w =>
          rcases List.cons.inj htext with ⟨rfl, -⟩
          exact absurd (hw _ List.mem_cons_self) (by decide)

theorem written_hash_of {rest : List UInt8} (h : Written c text (.punctuator .hash) rest) :
    c = byte '#' ∨ c = byte '%' ∧ ∃ tail, text = byte ':' :: tail := by
  cases h with
  | word _ hlexeme => exact absurd rfl (hlexeme .hash)
  | @spelled w _ _ htext hp =>
      rcases (Punctuator.spelling_hash _ hp).2 rfl with hword | hword
      · exact Or.inl (List.cons.inj hword).1
      · rcases List.cons.inj hword with ⟨hc, rfl⟩
        exact Or.inr ⟨hc, rest, htext⟩
  | literal hlexeme =>
      rcases hlexeme with ⟨_, hlexeme⟩ | ⟨_, hlexeme⟩
      · cases hlexeme
      · cases hlexeme

theorem written_name {name : String} {rest : List UInt8} (h : Written c text (.ident name) rest) :
    c ≠ newline ∧ ∃ w, text = w ++ rest ∧ newline ∉ w := by
  cases h with
  | word hc _ run =>
      rcases run with ⟨w, htext, hw⟩
      refine ⟨?_, w, htext, fun h => (hw newline h).ne (by decide) rfl⟩
      rintro rfl
      exact absurd hc (by decide)
  | literal hlexeme =>
      rcases hlexeme with ⟨_, hlexeme⟩ | ⟨_, hlexeme⟩
      · cases hlexeme
      · cases hlexeme

end CLex.Lexer
