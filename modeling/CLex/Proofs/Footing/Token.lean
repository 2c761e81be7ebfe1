import CLex.Lexer.Fresh
import CLex.Proofs.Footing.Basic
import CLex.Proofs.Simulation.Escape

namespace CLex

open Character Lexer LexM

namespace Footing

variable {σ α : Type} [CharStream σ] {F : Footing σ} {c : UInt8}

theorem leads_universalBytes {P : Lexer σ → Prop} (h : ∀ lx, P lx → F.loose lx) (code : Nat) :
    Leads F.Failed P (universalBytes code) fun _ => P := by
  unfold universalBytes utf8Bytes
  rw [if_neg (by omega), Int.toNat_natCast]
  cases hcode : Utf8.encode? code with
  | some bytes => exact leads_pure fun lx hP => hP
  | none => exact leads_throw fun lx hP => ⟨F.tooLarge hcode, h lx hP⟩

theorem leads_octalDigits (count value : Nat) :
    Leads F.Failed F.kept (octalDigits count value) fun _ => F.kept := by
  induction count generalizing value with
  | zero => exact leads_pure fun lx h => h
  | succ count ih =>
      refine leads_bind (leads_takeIf_kept (by decide)) fun d => ?_
      cases d with
      | none => exact leads_pure fun lx h => h
      | some d => exact ih _

theorem leads_next_kept :
    Leads F.Failed F.kept next? fun d => d.elim F.loose fun d => F.out [d] := by
  refine (F.next_loose.pre fun lx h => loose_of_kept h).post ?_
  rintro (_ | d) lx h
  · exact F.loose_of_ended h
  · exact h

theorem leads_hexDigits : Leads F.Failed F.kept hexDigits fun _ => F.kept := by
  refine leads_bind (leads_here 2) fun start => leads_bind leads_next_kept fun d => ?_
  cases d with
  | none => exact leads_fail rfl fun lx h => h
  | some d =>
      dsimp only
      split
      · exact leads_fail rfl fun lx h => loose_of_out h
      · next value hv =>
        apply Leads.pre (P := F.kept)
        · refine leads_loop (I := fun _ => F.kept) (fun value => ?_) value
          refine leads_bind (leads_takeIf_kept (by decide)) fun e => ?_
          cases e with
          | none => exact leads_pure fun lx h => h
          | some e => exact leads_pure fun lx h => h
        · exact fun lx h => kept_of_out (Simulation.ne_newline_of_hexValue hv) h

theorem leads_universalDigits (start : Location) (count value : Nat) :
    Leads F.Failed F.kept (universalDigits start count value) fun _ => F.kept := by
  induction count generalizing value with
  | zero => exact leads_pure fun lx h => h
  | succ count ih =>
      refine leads_bind leads_next_kept fun d => ?_
      cases d with
      | none => exact leads_fail rfl fun lx h => h
      | some d =>
          dsimp only
          split
          · exact leads_fail rfl fun lx h => loose_of_out h
          · next value hv =>
            exact (ih _).pre fun lx h => kept_of_out (Simulation.ne_newline_of_hexValue hv) h

theorem leads_universalName (mark : Char) (count : Nat) :
    Leads F.Failed F.kept (universalName mark count) fun _ => F.kept := by
  refine leads_bind (leads_here 2) fun start => ?_
  refine leads_bind (leads_universalDigits start count 0) fun code => ?_
  split
  · exact leads_pure fun lx h => h
  · exact leads_fail rfl fun lx h => loose_of_kept h

theorem leads_warn_kept (location : Location) (text : String) :
    Leads F.Failed F.kept (warn location text) fun _ => F.kept := by
  rintro lx ⟨c, hc, h⟩
  exact ((F.warn_looked c location text).post fun _ lx h => ⟨c, hc, h⟩) lx h

theorem leads_escapeFrom (hc : c ≠ newline) (start : Location) :
    Leads F.Failed (F.out [c]) (escapeFrom start c) fun _ => F.kept := by
  apply Leads.pre (P := F.kept)
  · unfold escapeFrom
    split
    · exact leads_pure fun lx h => h
    · split
      · exact leads_hexDigits
      · split
        · exact leads_universalName _ _
        · split
          · exact leads_universalName _ _
          · split
            · exact leads_octalDigits _ _
            · exact leads_bind (leads_warn_kept _ _) fun _ => leads_pure fun lx h => h
  · exact fun lx h => kept_of_out hc h

theorem leads_escape : Leads F.Failed F.loose escape fun _ => F.loose := by
  refine leads_bind (leads_here 1) fun start => leads_bind F.next_loose fun d => ?_
  cases d with
  | none =>
      apply Leads.pre (P := F.loose)
      · exact leads_bind (F.warn_loose _ _) fun _ => leads_pure fun lx h => h
      · exact fun lx h => F.loose_of_ended h
  | some d =>
      by_cases hd : d = newline
      · subst hd
        apply Leads.pre (P := F.loose)
        · exact leads_bind (F.warn_loose _ _) fun _ => leads_pure fun lx h => h
        · exact fun lx h => loose_of_out h
      · exact (leads_escapeFrom hd start).post fun _ lx h => loose_of_kept h

theorem leads_next_ahead (c : UInt8) :
    Leads F.Failed (fun lx => F.loose lx ∧ lx.Ahead c) next?
      fun d lx => d = some c ∧ F.out [c] lx := by
  rintro lx ⟨h, lx', hnext⟩
  have hout := F.next_loose.ok h hnext
  rw [hnext]
  exact ⟨rfl, hout⟩

theorem leads_escape_named :
    Leads F.Failed (fun lx => ∃ c, isUniversalMark c.toNat = true ∧ F.loose lx ∧ lx.Ahead c) escape
      fun _ => F.kept := by
  refine leads_exists fun c => leads_given fun hc => ?_
  refine leads_bind (leads_here 1) fun start => leads_bind (leads_next_ahead c) fun d => ?_
  -- The escape begins with the mark that was looked at, so it ends in a digit and not in a newline.
  refine leads_given fun hd => ?_
  subst hd
  refine leads_escapeFrom ?_ start
  rintro rfl
  exact absurd hc (by decide)

/-- What is known behind a token. -/
inductive Left (F : Footing σ) (lexeme : Lexeme) (lx : Lexer σ) : Prop
  | newline (h : lexeme = .newline) (looked : F.looked [newline] lx)
  | kept (h : lexeme ≠ .newline) (kept : F.kept lx)
  | hash (h : lexeme = .punctuator .hash) {c : UInt8} (hc : c ≠ Character.newline)
      (behind : F.behind (byte '%') [c] lx)
  | name {spelled : String} (h : lexeme = .ident spelled) {c : UInt8} (hc : c ≠ Character.newline)
      (behind : F.behind backslash [c] lx)

/-- A token, and what is known behind it. -/
def Read (F : Footing σ) (t : Token) (lx : Lexer σ) : Prop :=
  F.token t ∧ F.Left t.lexeme lx

theorem leads_finish {P P' : Lexer σ → Prop} {lexeme : Lexeme} {encoding : Encoding}
    (h : Leads F.Failed P (finish lexeme encoding) fun t lx => F.token t ∧ P' lx)
    (hleft : ∀ lx, P' lx → F.Left lexeme lx) :
    Leads F.Failed P (finish lexeme encoding) F.Read := by
  intro lx hlx
  have hrun := h lx hlx
  cases hfinish : finish lexeme encoding lx with
  | error f lx' =>
      rw [hfinish] at hrun
      exact hrun
  | ok t lx' =>
      rw [hfinish] at hrun
      refine ⟨hrun.1, ?_⟩
      rw [lexeme_finish hfinish]
      exact hleft lx' hrun.2

theorem leads_finish_kept {lexeme : Lexeme} (h : lexeme ≠ .newline) (encoding : Encoding) :
    Leads F.Failed F.kept (finish lexeme encoding) F.Read := by
  rintro lx ⟨c, hc, hlooked⟩
  refine leads_finish (F.finish_looked c lexeme encoding) ?_ lx hlooked
  exact fun lx' hlooked' => .kept h ⟨c, hc, hlooked'⟩

theorem leads_finish_behind {lexeme : Lexeme} {encoding : Encoding} {d c : UInt8}
    (h : ∀ lx, F.behind d [c] lx → F.Left lexeme lx) :
    Leads F.Failed (F.behind d [c]) (finish lexeme encoding) F.Read :=
  leads_finish (F.finish_behind d [c] lexeme encoding) h

theorem leads_finish_newline (encoding : Encoding) :
    Leads F.Failed (F.looked [newline]) (finish .newline encoding) F.Read :=
  leads_finish (F.finish_looked newline .newline encoding) fun _ hlooked => .newline rfl hlooked

theorem leads_stringRound (bytes : List UInt8) :
    Leads F.Failed F.loose (stringRound bytes) (RoundLeft (fun _ => F.loose) fun _ => F.kept) := by
  refine leads_bind F.next_loose fun d => ?_
  cases d with
  | none => exact leads_fail_marked rfl fun lx h => F.loose_of_ended h
  | some d =>
      dsimp only
      split
      · next hd => exact leads_pure fun lx h => kept_of_out (by rw [hd]; decide) h
      · split
        · have hpeek := leads_peekIs d [] (F := F) (p := fun c => isUniversalMark c.toNat) (by decide)
          refine leads_bind (hpeek.pre fun lx h => F.looked_of_out h) fun named => ?_
          apply Leads.pre (P := F.loose)
          · refine leads_bind leads_escape fun value => ?_
            split
            · refine leads_bind (leads_universalBytes (fun lx h => h) value) fun units => ?_
              exact leads_pure fun lx h => h
            · exact leads_pure fun lx h => h
          · exact fun lx h => F.loose_of_looked h.1
        · exact leads_pure fun lx h => loose_of_out h

theorem leads_stringLiteral (encoding : Encoding) :
    Leads F.Failed F.loose (stringLiteral encoding) F.Read := by
  refine leads_bind (leads_loop (I := fun _ => F.loose) leads_stringRound []) fun bytes => ?_
  exact leads_finish_kept (by simp) encoding

theorem leads_literalValue (c : UInt8) :
    Leads F.Failed (F.out [c]) (literalValue c) fun _ => F.loose := by
  unfold literalValue
  split
  · exact leads_escape.pre fun lx h => loose_of_out h
  · exact leads_pure fun lx h => loose_of_out h

theorem leads_charLiteral (encoding : Encoding) :
    Leads F.Failed F.loose (charLiteral encoding) F.Read := by
  refine leads_bind F.next_loose fun d => ?_
  cases d with
  | none => exact leads_fail_marked rfl fun lx h => F.loose_of_ended h
  | some d =>
      refine leads_bind (leads_literalValue d) fun value => leads_bind F.next_loose fun e => ?_
      split
      · next he =>
        subst he
        exact (leads_finish_kept (by simp) encoding).pre fun lx h => kept_of_out (by decide) h
      · refine leads_fail_marked rfl fun lx h => ?_
        cases e with
        | none => exact F.loose_of_ended h
        | some e => exact loose_of_out h

def nameLeft (F : Footing σ) (lx : Lexer σ) : Prop :=
  F.kept lx ∨ ∃ c, c ≠ newline ∧ F.behind backslash [c] lx

theorem leads_identRound (bytes : List UInt8) :
    Leads F.Failed F.kept (identRound bytes) (RoundLeft (fun _ => F.kept) fun _ => F.nameLeft) := by
  rintro lx ⟨c, hc, hlooked⟩
  revert lx
  show Leads F.Failed (F.looked [c]) _ _
  refine leads_bind (F.next_looked c []) fun d => ?_
  cases d with
  | none => exact leads_pure fun lx h => Or.inl ⟨c, hc, h⟩
  | some d =>
      dsimp only
      split
      · next hd =>
        refine leads_pure fun lx h => kept_of_out ?_ h
        rintro rfl
        exact absurd hd (by decide)
      · split
        · next hd =>
          subst hd
          refine leads_bind (Leads.pre (leads_peekIs backslash [c] (by decide)) ?_) fun named => ?_
          · exact fun lx h => F.looked_of_out h
          cases named with
          | true =>
              apply Leads.pre (P := fun lx =>
                ∃ c, isUniversalMark c.toNat = true ∧ F.loose lx ∧ lx.Ahead c)
              · refine leads_bind leads_escape_named fun code => ?_
                refine leads_bind (leads_universalBytes (fun lx h => loose_of_kept h) code) ?_
                exact fun units => leads_pure fun lx h => h
              · rintro lx ⟨h, hahead⟩
                rcases hahead rfl with ⟨e, he, hahead⟩
                exact ⟨e, he, F.loose_of_looked h, hahead⟩
          | false =>
              refine (leads_bind (F.unread_looked (by decide) [c]) fun _ => ?_).pre fun lx h => h.1
              exact leads_pure fun lx h => Or.inr ⟨c, hc, h.1⟩
        · refine leads_bind (F.unread_out d c []) fun _ => leads_pure fun lx h => ?_
          exact Or.inl ⟨c, hc, h.1⟩

theorem leads_finish_name {name : String} :
    Leads F.Failed F.nameLeft (finish (.ident name)) F.Read := by
  refine leads_or (leads_finish_kept (by simp) .plain) ?_
  refine leads_exists fun c => leads_given fun hc => ?_
  exact leads_finish_behind fun lx h => .name rfl hc h

theorem leads_ident (first : UInt8) : Leads F.Failed F.kept (ident first) F.Read :=
  leads_bind (leads_loop (I := fun _ => F.kept) leads_identRound [first]) fun _ => leads_finish_name

theorem leads_numberRound (chars : UInt8 × List UInt8) :
    Leads F.Failed F.kept (numberRound chars) (RoundLeft (fun _ => F.kept) fun _ => F.kept) := by
  refine leads_bind (leads_takeIf_kept ?_) fun d => ?_
  · have hdot : newline ≠ byte '.' := by decide
    simp [extendsNumber, isDigit, isLetter, isSign, hdot, show newline.toNat = 10 from rfl]
  · cases d with
    | none => exact leads_pure fun lx h => h
    | some d => exact leads_pure fun lx h => h

theorem leads_number (first : UInt8) : Leads F.Failed F.kept (number first) F.Read :=
  leads_bind (leads_loop (I := fun _ => F.kept) leads_numberRound (first, [])) fun _ =>
    leads_finish_kept (by simp) .plain

/-- Behind a punctuator, also the hash that a `%` follows. -/
def punctuatorLeft (F : Footing σ) (p : Punctuator) (lx : Lexer σ) : Prop :=
  F.kept lx ∨ p = .hash ∧ ∃ c, c ≠ newline ∧ F.behind (byte '%') [c] lx

theorem leads_branch {b : Branch} (hplain : b.Plain) :
    Leads F.Failed F.kept b.run F.punctuatorLeft := by
  induction b with
  | found p => exact leads_pure fun lx h => Or.inl h
  | next d taken other htaken hother =>
      rcases hplain with ⟨⟨hnewline, -⟩, hplain, hplain'⟩
      refine leads_exists fun c => leads_given fun hc => ?_
      refine leads_bind (leads_skipIf c [] d) fun follows => ?_
      cases follows with
      | true => exact (htaken hplain).pre fun lx h => kept_of_out hnewline h
      | false => exact (hother hplain').pre fun lx h => ⟨c, hc, h⟩
  | pair d e taken other =>
      rcases hplain with ⟨⟨rfl, rfl⟩, hnewline, -⟩
      refine leads_exists fun c => leads_given fun hc => ?_
      refine leads_bind (leads_skipIf c [] (byte '%')) fun first => ?_
      cases first with
      | true =>
          refine leads_bind ((leads_skipIf (byte '%') [c] e).pre ?_) fun second => ?_
          · exact fun lx h => F.looked_of_out h
          cases second with
          | true => exact leads_pure fun lx h => Or.inl (kept_of_out hnewline h)
          | false =>
              refine leads_bind (F.unread_looked (by decide) [c]) fun _ => ?_
              exact leads_pure fun lx h => Or.inr ⟨rfl, c, hc, h.1⟩
      | false => exact leads_pure fun lx h => Or.inl ⟨c, hc, h⟩

theorem leads_operator (c : UInt8) : Leads F.Failed F.kept (operator c) F.Read := by
  rw [operator_eq]
  cases hb : Branch.of? c with
  | some b =>
      refine leads_bind (leads_branch (Branch.plain_of hb)) fun p => ?_
      refine leads_or (leads_finish_kept (by simp) .plain) (leads_given ?_)
      rintro rfl
      refine leads_exists fun d => leads_given fun hd => ?_
      exact leads_finish_behind fun lx h => .hash rfl hd h
  | none => exact leads_finish_kept (by simp) .plain

/-- The digit of `u8` is put back, and the name goes on with it. -/
theorem leads_ident_ahead (first : UInt8) {c : UInt8} (hident : isIdentChar c.toNat = true)
    (d : UInt8) :
    Leads F.Failed (fun lx => F.behind c [d] lx ∧ lx.Ahead c) (ident first) F.Read := by
  have hc : c ≠ newline := by
    rintro rfl
    exact absurd hident (by decide)
  refine leads_bind (Q := fun _ => F.nameLeft) ?_ fun _ => leads_finish_name
  rintro lx ⟨h, lx', hnext⟩
  -- The first round takes the digit again, and only from then on nothing is out of place.
  have hlooked := (F.next_behind c [d]).ok h hnext
  have hround : identRound [first] lx = .ok (.again [c, first]) lx' := by
    rw [identRound, bind_of_ok hnext]
    dsimp only
    rw [if_pos hident]
    rfl
  rw [loop_eq, hround]
  exact leads_loop (I := fun _ => F.kept) leads_identRound [c, first] lx' ⟨c, hc, hlooked⟩

theorem leads_literalOrIdent (hc : c ≠ newline) (encoding : Encoding) :
    Leads F.Failed (F.looked [c]) (literalOrIdent c encoding) F.Read := by
  refine leads_bind (leads_skipIf c [] doubleQuote) fun quoted => ?_
  cases quoted with
  | true => exact (leads_stringLiteral encoding).pre fun lx h => loose_of_out h
  | false =>
      refine leads_bind (leads_skipIf c [] singleQuote) fun quoted => ?_
      cases quoted with
      | true => exact (leads_charLiteral encoding).pre fun lx h => loose_of_out h
      | false =>
          have hident : Leads F.Failed (F.looked [c]) (ident c) F.Read :=
            (leads_ident c).pre fun lx h => ⟨c, hc, h⟩
          simp only [Bool.false_eq_true, if_false]
          split
          · refine leads_bind (leads_skipIf c [] (byte '8')) fun eight => ?_
            cases eight with
            | true =>
                refine leads_bind (Leads.pre (leads_skipIf (byte '8') [c] doubleQuote) ?_)
                  fun quoted => ?_
                · exact fun lx h => F.looked_of_out h
                cases quoted with
                | true => exact (leads_stringLiteral .utf8).pre fun lx h => loose_of_out h
                | false =>
                    refine leads_bind (F.unread_looked (by decide) [c]) fun _ => ?_
                    exact (leads_ident_ahead c (by decide) c).pre fun lx h => ⟨h.1, h.2 (by decide)⟩
            | false => exact hident
          · exact hident

theorem leads_dots (hc : c ≠ newline) : Leads F.Failed (F.looked [c]) (dots c) F.Read := by
  have hdot : ∀ lx, F.out [byte '.', c] lx → F.looked [byte '.'] lx :=
    fun lx h => F.looked_single (F.looked_of_out h)
  refine leads_bind (leads_peekIs c [] (by decide)) fun digit => ?_
  cases digit with
  | true => exact (leads_number c).pre fun lx h => ⟨c, hc, h.1⟩
  | false =>
      refine leads_bind ((leads_skipIf c [] (byte '.')).pre fun lx h => h.1) fun second => ?_
      cases second with
      | true =>
          refine leads_bind ((leads_skipIf (byte '.') [] (byte '.')).pre hdot) fun third => ?_
          cases third with
          | true =>
              exact (leads_finish_kept (by simp) .plain).pre fun lx h => kept_of_out (by decide) h
          | false =>
              exact (leads_finish_kept (by simp) .plain).pre fun lx h => ⟨_, by decide, h⟩
      | false => exact (leads_finish_kept (by simp) .plain).pre fun lx h => ⟨c, hc, h⟩

theorem leads_tokenFrom (c : UInt8) : Leads F.Failed (F.looked [c]) (tokenFrom c) F.Read := by
  unfold tokenFrom
  split
  · next hc =>
    subst hc
    exact leads_finish_newline .plain
  · next hc =>
    have hkept : ∀ lx, F.looked [c] lx → F.kept lx := fun lx h => ⟨c, hc, h⟩
    split
    · exact leads_literalOrIdent hc _
    · split
      · exact (leads_ident c).pre hkept
      · split
        · exact (leads_number c).pre hkept
        · split
          · exact (leads_stringLiteral _).pre fun lx h => F.loose_of_looked h
          · split
            · exact (leads_charLiteral _).pre fun lx h => F.loose_of_looked h
            · split
              · exact leads_dots hc
              · exact (leads_operator c).pre hkept

/-- Nothing more is known of a lexer while characters are out, so it may stand anywhere between two
operations. -/
structure Level (F : Footing σ) : Prop where
  front {c : UInt8} {lx : Lexer σ} (h : F.front c lx) : F.loose lx
  behind {c : UInt8} {cs : List UInt8} {lx : Lexer σ} (h : F.behind c cs lx) : F.loose lx
  setMark : Leads F.Failed F.loose setMark fun _ => F.loose
  needSource : Leads F.Failed F.loose needSource fun _ => F.loose

theorem Level.leads_skipBlanks (L : F.Level) :
    Leads F.Failed F.loose skipBlanks fun _ => F.loose := by
  refine (Footing.leads_skipBlanks.pre fun lx h => Or.inl h).post ?_
  rintro spaced lx (h | ⟨c, h⟩)
  · exact F.loose_of_ended h
  · exact L.front h

theorem Level.leads_token (L : F.Level) : Leads F.Failed F.loose token fun _ => F.loose := by
  refine leads_bind L.setMark fun _ => leads_bind F.next_loose fun d => ?_
  cases d with
  | none => exact (F.finish_ended .eof .plain).post fun t lx h => F.loose_of_ended h.2
  | some d =>
      refine ((leads_tokenFrom d).pre fun lx h => F.looked_of_out h).post ?_
      rintro t lx ⟨-, left⟩
      cases left with
      | newline _ h => exact F.loose_of_looked h
      | kept _ h => exact loose_of_kept h
      | hash _ _ h => exact L.behind h
      | name _ _ h => exact L.behind h

theorem Level.leads_freshToken (L : F.Level) :
    Leads F.Failed F.loose freshToken fun _ => F.loose := by
  refine leads_bind L.needSource fun _ => leads_bind (Q := fun _ => F.loose) (fun lx h => h) ?_
  refine fun startsLine => leads_bind L.leads_skipBlanks fun spaced => ?_
  exact leads_bind L.leads_token fun t => leads_pure fun lx h => h

end Footing

end CLex
