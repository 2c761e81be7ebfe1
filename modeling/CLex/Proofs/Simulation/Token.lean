import CLex.Lexer.Listing
import CLex.Proofs.Simulation.Escape

namespace CLex

open Character Lexer Reading

namespace Simulation

variable {σ τ : Type} [CharStream σ] [CharStream τ] {S : Simulation σ τ}

theorem same_stringRound (bytes : List UInt8) :
    S.Same S.Out
      (fun r s t => match r with | .again _ => S.Out s t | .done _ => S.held [] s t)
      (stringRound bytes) (stringRound bytes) := by
  refine runs_next_out (fun _ s => ⟨_, s, rfl⟩) (runs_throw_marked _) fun c => ?_
  dsimp only
  split
  · next hc =>
    exact same_pure fun s t h => S.keep h (by rw [hc]; decide)
  · split
    · next hc =>
      apply Runs.pre (P := S.held [])
      · refine same_bind (same_peekIs plain_nil (by decide)) fun named => ?_
        cases named with
        | true =>
            refine same_bind (same_escape_named.pre fun s t h => ⟨h.1, h.2 rfl⟩) fun value => ?_
            exact same_bind (same_universalBytes value) fun _ =>
              same_pure fun s t h => out_of_held h
        | false =>
            exact same_bind (same_escape.pre fun s t h => h.1) fun _ => same_pure fun s t h => h
      · exact fun s t h => S.keep h (by rw [hc]; decide)
    · exact same_pure fun s t h => out_of_held h

theorem runs_stringLiteral (encoding : Encoding) :
    S.Runs (S.held []) S.Read (stringLiteral encoding) (stringLiteral encoding) := by
  apply Runs.pre (P := S.Out)
  · refine same_bind (same_loop (I := fun _ => S.Out) (Q := fun _ => S.held []) ?_ []) fun _ => ?_
    · intro bytes
      apply (same_stringRound bytes).post
      rintro (_ | _) s t h <;> exact h
    · exact runs_finish_held (by simp) (by simp) encoding
  · exact fun s t h => out_of_held h

theorem same_literalValue (c : UInt8) :
    S.Same (S.held [c]) (fun _ => S.Out) (literalValue c) (literalValue c) := by
  unfold literalValue
  split
  · next hc => exact same_escape.pre fun s t h => S.keep h (by rw [hc]; decide)
  · exact same_pure fun s t h => out_of_held h

theorem runs_charLiteral (encoding : Encoding) :
    S.Runs (S.held []) S.Read (charLiteral encoding) (charLiteral encoding) := by
  refine same_bind (same_next plain_nil) fun c => ?_
  cases c with
  | none => exact runs_throw_marked _
  | some c =>
      refine same_bind (same_literalValue c) fun value => ?_
      refine runs_next_out (fun _ s => ⟨_, s, rfl⟩) (runs_throw_marked _) fun d => ?_
      split
      · next hd =>
        cases hd
        exact (runs_finish_held (by simp) (by simp) _).pre fun s t h => S.keep h (by decide)
      · exact runs_throw_marked _

theorem same_identRound (bytes : List UInt8) :
    S.Same (S.held [])
      (fun r s t => match r with
        | .again longer => (∃ more, longer = more ++ bytes) ∧ S.held [] s t
        | .done name => name = bytes.reverse ∧ S.word s t)
      (identRound bytes) (identRound bytes) := by
  intro s t h
  rcases S.next h plain_nil with ⟨c, s₁, t₁, hs, ht, h₁⟩
  rw [identRound, identRound, LexM.bind_of_ok hs, LexM.bind_of_ok ht]
  cases c with
  | none => exact ⟨rfl, rfl, S.word_none h hs ht⟩
  | some c =>
      dsimp only
      split
      · next hc =>
        refine ⟨rfl, ⟨[c], rfl⟩, S.keep h₁ ?_⟩
        rintro rfl
        simp [isIdentChar, isIdentStart, isLetter, isDigit, newline] at hc
      · split
        · next hc =>
          subst hc
          rcases peekIs_held plain_nil (p := fun c => isUniversalMark c.toNat) (by decide)
            (S.keep h₁ (by decide)) with ⟨named, s₂, t₂, hs₂, ht₂, h₂⟩
          rw [LexM.bind_of_ok hs₂, LexM.bind_of_ok ht₂]
          cases named with
          | true =>
              refine same_bind same_escape_named (fun value => ?_) s₂ t₂ ⟨h₂.1, h₂.2 rfl⟩
              exact same_bind (same_universalBytes value) fun units =>
                same_pure fun s t h => ⟨⟨units.reverse, rfl⟩, h⟩
          | false =>
              rcases S.word_retreat h₁ hs₂ ht₂ with ⟨s₃, t₃, hs₃, ht₃, h₃⟩
              simp only [Bool.false_eq_true, if_false]
              rw [LexM.bind_of_ok hs₃, LexM.bind_of_ok ht₃]
              exact ⟨rfl, rfl, h₃⟩
        · next hc =>
          exact same_bind (S.word_unread hc) (fun _ => same_pure fun s t h => ⟨rfl, h⟩) s₁ t₁ h₁

theorem decode_ne_dots {first : UInt8} (hfirst : isIdentStart first.toNat = true)
    (rest : List UInt8) : Utf8.decode (first :: rest) ≠ ".." := by
  intro h
  have hhead := Utf8.head?_decodeChars_ne (c := '.') (by decide) (by decide) (b := first)
    (by rintro hb; rw [hb] at hfirst; exact absurd hfirst (by decide)) rest
  apply hhead
  rw [show Utf8.decodeChars (first :: rest) = ['.', '.'] from ?_]
  · rfl
  · have := congrArg String.toList h
    simpa [Utf8.decode] using this

theorem runs_ident {first : UInt8} (hfirst : isIdentStart first.toNat = true) :
    S.Runs (S.held []) S.Read (ident first) (ident first) := by
  refine same_bind (Q := fun name s t => (∃ rest, name = first :: rest) ∧ S.word s t) ?_
    fun name => ?_
  · apply Runs.pre (same_loop
      (I := fun bytes s t => (∃ more, bytes = more ++ [first]) ∧ S.held [] s t) ?_ [first])
    · exact fun s t h => ⟨⟨[], rfl⟩, h⟩
    · intro bytes
      refine runs_given ?_
      rintro ⟨more, rfl⟩
      apply (same_identRound _).post
      rintro (longer | name) s t ⟨hmore, h⟩
      · rcases hmore with ⟨units, rfl⟩
        exact ⟨⟨units ++ more, (List.append_assoc _ _ _).symm⟩, h⟩
      · exact ⟨⟨more.reverse, by rw [hmore]; simp⟩, h⟩
  · refine runs_given ?_
    rintro ⟨rest, rfl⟩
    exact (runs_finish _ _).pre fun s t h => S.after_word h (decode_ne_dots hfirst rest)

theorem runs_number (first : UInt8) :
    S.Runs (S.held []) S.Read (number first) (number first) := by
  refine same_bind (same_loop (I := fun _ => S.held []) (Q := fun _ => S.held []) ?_ (first, []))
    fun chars => runs_finish_held (by simp) (by simp) _
  intro chars
  refine same_bind (same_take ?_) fun c => runs_given fun _ => ?_
  · have : newline ≠ byte '.' := by decide
    simp [extendsNumber, isDigit, isLetter, isSign, this, show newline.toNat = 10 from rfl]
  · cases c with
    | none => exact same_pure fun s t h => h
    | some c => exact same_pure fun s t h => h

theorem same_branch {b : Branch} (h : b.Plain) :
    S.Same (S.held []) (fun _ => S.held []) b.run b.run := by
  induction b with
  | found p => exact same_pure fun s t h => h
  | next c taken other htaken hother =>
      rcases h with ⟨⟨hnewline, hbackslash⟩, hplain, hplain'⟩
      refine same_bind (same_skipIf plain_nil c) fun follows => ?_
      cases follows with
      | true => exact (htaken hplain).pre fun s t h => S.keep h hnewline
      | false => exact hother hplain'
  | pair c d taken other =>
      rcases h with ⟨⟨rfl, rfl⟩, hnewline, hbackslash⟩
      refine same_bind (same_skipIf plain_nil _) fun first => ?_
      cases first with
      | true =>
          refine same_bind (same_skipIf (plain_singleton (by decide)) d) fun second => ?_
          cases second with
          | true => exact same_pure fun s t h => S.keep h hnewline
          | false => exact same_bind_pure (same_unread plain_nil) _
      | false => exact same_pure fun s t h => h

theorem runs_operator (c : UInt8) :
    S.Runs (S.held []) S.Read (operator c) (operator c) := by
  rw [operator_eq, operator_eq]
  cases hb : Branch.of? c with
  | some b =>
      exact same_bind (same_branch (Branch.plain_of hb)) fun p =>
        runs_finish_held (by simp) (by simp) _
  | none => exact runs_finish_held (by simp) (by simp) _

theorem runs_literalOrIdent {c : UInt8} (hc : isIdentStart c.toNat = true) (encoding : Encoding) :
    S.Runs (S.held []) S.Read (literalOrIdent c encoding) (literalOrIdent c encoding) := by
  have skip : ∀ {d : UInt8} {b : Bool}, d ≠ newline →
      ∀ s t, S.held (if b then [d] else []) s t → S.held [] s t := by
    rintro d (_ | _) hd s t h
    · exact h
    · exact S.keep h hd
  refine same_bind (same_skipIf plain_nil doubleQuote) fun quoted => ?_
  cases quoted with
  | true => exact (runs_stringLiteral encoding).pre (skip (by decide))
  | false =>
      refine same_bind (same_skipIf plain_nil singleQuote) fun quoted => ?_
      cases quoted with
      | true => exact (runs_charLiteral encoding).pre (skip (by decide))
      | false =>
          simp only [Bool.false_eq_true, if_false]
          split
          · refine same_bind (same_skipIf plain_nil (byte '8')) fun eight => ?_
            cases eight with
            | true =>
                refine same_bind (same_skipIf (plain_singleton (by decide)) doubleQuote)
                  fun quoted => ?_
                cases quoted with
                | true => exact (runs_stringLiteral .utf8).pre fun s t h => S.keep h (by decide)
                | false => exact same_bind (same_unread plain_nil) fun _ => runs_ident hc
            | false => exact runs_ident hc
          · exact runs_ident hc

theorem runs_dots (c : UInt8) : S.Runs (S.held []) S.Read (dots c) (dots c) := by
  refine same_bind (same_peekIs plain_nil (by decide)) fun digit => ?_
  cases digit with
  | true => exact (runs_number c).pre fun s t h => h.1
  | false =>
      refine same_bind ((same_skipIf plain_nil (byte '.')).pre fun s t h => h.1) fun second => ?_
      cases second with
      | true =>
          apply Runs.pre (P := S.held [])
          · refine same_bind (same_skipIf plain_nil (byte '.')) fun third => ?_
            cases third with
            | true => exact (runs_finish_held (by simp) (by simp) _).pre fun s t h => S.keep h (by decide)
            | false => exact runs_finish_held (by simp) (by simp) _
          · exact fun s t h => S.keep h (by decide)
      | false => exact runs_finish_held (by simp) (by simp) _

theorem isIdentStart_of_encodingOf {c : UInt8} {encoding : Encoding}
    (h : encodingOf? c = some encoding) : isIdentStart c.toNat = true := by
  unfold encodingOf? at h
  split at h
  · next hc => rw [hc]; decide
  · split at h
    · next hc => rw [hc]; decide
    · split at h
      · next hc => rw [hc]; decide
      · cases h

theorem mark_of_encodingOf {c : UInt8} {encoding : Encoding} (h : encodingOf? c = some encoding) :
    bytes encoding.mark.toList = [c] ∧ encoding ≠ .utf8 ∧
      (encoding = .char16 ↔ c = byte 'u') := by
  unfold encodingOf? at h
  split at h
  · next hc =>
    cases h
    subst hc
    decide
  · split at h
    · next hc =>
      cases h
      subst hc
      decide
    · split at h
      · next hc =>
        cases h
        subst hc
        decide
      · cases h

theorem runs_tokenFrom (c : UInt8) :
    S.Runs (S.held [c]) S.Read (tokenFrom c) (tokenFrom c) := by
  unfold tokenFrom
  split
  · next hc =>
    subst hc
    exact (runs_finish _ _).pre fun s t h => S.after_newline h
  · next hc =>
    apply Runs.pre (P := S.held [])
    · split
      · next encoding he => exact runs_literalOrIdent (isIdentStart_of_encodingOf he) encoding
      · split
        · next hs => exact runs_ident hs
        · split
          · exact runs_number c
          · split
            · exact runs_stringLiteral _
            · split
              · exact runs_charLiteral _
              · split
                · exact runs_dots c
                · exact runs_operator c
    · exact fun s t h => S.keep h hc

end Simulation

/-- A simulation that also relates what is done before the first character of a token. -/
structure FreshSimulation (σ τ : Type) [CharStream σ] [CharStream τ] extends Simulation σ τ where
  lineStart : Bool → Bool → Prop
  setMark : toReading.Same (held []) (fun _ => held []) Lexer.setMark Lexer.setMark
  needSource : toReading.Same (held []) (fun _ => held []) Lexer.needSource Lexer.needSource
  isAtLineStart : toReading.Runs (held []) (fun b s b' t => lineStart b b' ∧ held [] s t)
    Lexer.isAtLineStart Lexer.isAtLineStart
  flag {a b : Token} (h : token a b) {x y : Bool} (hxy : lineStart x y) (spaced : Bool) :
    token { a with spaced, startsLine := x } { b with spaced, startsLine := y }

namespace FreshSimulation

variable {σ τ : Type} [CharStream σ] [CharStream τ] {S : FreshSimulation σ τ}

theorem runs_token : S.Runs (S.held []) S.Read Lexer.token Lexer.token := by
  refine same_bind S.setMark fun _ => ?_
  intro s t h
  rcases S.next h plain_nil with ⟨c, s', t', hs, ht, h'⟩
  rw [LexM.bind_of_ok hs, LexM.bind_of_ok ht]
  cases c with
  | none => exact Simulation.runs_finish .eof .plain s' t' (S.after_end h hs ht)
  | some c => exact Simulation.runs_tokenFrom c s' t' h'

theorem runs_freshToken : S.Runs (S.held []) S.Read freshToken freshToken := by
  refine same_bind S.needSource fun _ => runs_bind S.isAtLineStart fun b b' => runs_given fun hb => ?_
  refine same_bind same_skipBlanks fun spaced => runs_bind runs_token fun a a' => ?_
  exact runs_pure fun s t h => ⟨S.flag h.1 hb spaced, h.2⟩

theorem runs_rawToken (hblank : S.token { lexeme := .blank } { lexeme := .blank }) :
    S.Runs (S.held []) S.Read rawToken rawToken := by
  refine same_bind S.needSource fun _ => same_bind same_skipBlanks fun spaced => ?_
  cases spaced with
  | true => exact runs_pure fun s t h => ⟨hblank, rfl, S.after_held h (by simp) (by simp)⟩
  | false => exact runs_token

end FreshSimulation

end CLex
