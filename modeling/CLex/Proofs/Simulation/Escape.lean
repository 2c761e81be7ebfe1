import CLex.Lexer.Fresh
import CLex.Proofs.Simulation.Blank

/-!
A `Simulation` is a reading that also says how tokens and the states after them are related, from
their first character on. What a name ends with is a relation of its own: the lexer may then have
looked at a character behind a backslash, and puts both back. Escape sequences are read alike.
-/

namespace CLex

open Character Lexer Reading

structure Simulation (σ τ : Type) [CharStream σ] [CharStream τ] extends Reading σ τ where
  /-- The states agree after the characters of a name. -/
  word : Lexer σ → Lexer τ → Prop
  /-- The states agree after a token. -/
  after : Lexeme → Lexer σ → Lexer τ → Prop
  token : Token → Token → Prop
  failure_refl (f : Failure) : failure f f
  warn {cs : List UInt8} {l l' : Location} (hl : place l l') (text : String) :
    toReading.Same (held cs) (fun _ => held cs) (Lexer.warn l text) (Lexer.warn l' text)
  marked {cs : List UInt8} : toReading.Runs (held cs) (fun l s l' t => place l l' ∧ held cs s t)
    Lexer.marked Lexer.marked
  finish (lexeme : Lexeme) (encoding : Encoding) :
    toReading.Runs (after lexeme) (fun a s b t => token a b ∧ after lexeme s t)
      (Lexer.finish lexeme encoding) (Lexer.finish lexeme encoding)
  word_none {s s' : Lexer σ} {t t' : Lexer τ} (h : held [] s t) (hs : next? s = .ok none s')
    (ht : next? t = .ok none t') : word s' t'
  word_unread {c : UInt8} (hc : c ≠ backslash) :
    toReading.Same (held [c]) (fun _ => word) (Lexer.unread c) (Lexer.unread c)
  /-- The character behind a backslash is put back, and then the backslash. -/
  word_retreat {s s' : Lexer σ} {t t' : Lexer τ} (h : held [backslash] s t)
    (hs : peekIs (fun c => isUniversalMark c.toNat) s = .ok false s')
    (ht : peekIs (fun c => isUniversalMark c.toNat) t = .ok false t') :
    ∃ s'' t'', Lexer.unread backslash s' = .ok () s'' ∧ Lexer.unread backslash t' = .ok () t'' ∧
      word s'' t''
  after_word {s : Lexer σ} {t : Lexer τ} (h : word s t) {name : String} (hn : name ≠ "..") :
    after (.ident name) s t
  after_held {s : Lexer σ} {t : Lexer τ} (h : held [] s t) {lexeme : Lexeme} (hend : lexeme ≠ .eof)
    (hl : ∀ name, lexeme = .ident name → name = "..") : after lexeme s t
  after_end {s s' : Lexer σ} {t t' : Lexer τ} (h : held [] s t) (hs : next? s = .ok none s')
    (ht : next? t = .ok none t') : after .eof s' t'
  after_newline {s : Lexer σ} {t : Lexer τ} (h : held [newline] s t) : after .newline s t

namespace Simulation

variable {σ τ : Type} [CharStream σ] [CharStream τ] (S : Simulation σ τ)

/-- Related tokens of one lexeme, in states that agree after it. -/
def Read (a : Token) (s : Lexer σ) (b : Token) (t : Lexer τ) : Prop :=
  S.token a b ∧ a.lexeme = b.lexeme ∧ S.after a.lexeme s t

variable {S}

theorem runs_finish (lexeme : Lexeme) (encoding : Encoding) :
    S.Runs (S.after lexeme) S.Read (Lexer.finish lexeme encoding)
      (Lexer.finish lexeme encoding) := by
  intro s t h
  have hfinish := S.finish lexeme encoding s t h
  cases hs : Lexer.finish lexeme encoding s <;> cases ht : Lexer.finish lexeme encoding t <;>
    rw [hs, ht] at hfinish
  · refine ⟨hfinish.1, (lexeme_finish hs).trans (lexeme_finish ht).symm, ?_⟩
    rw [lexeme_finish hs]
    exact hfinish.2
  all_goals exact hfinish

theorem runs_finish_held {lexeme : Lexeme} (hend : lexeme ≠ .eof)
    (hl : ∀ name, lexeme = .ident name → name = "..") (encoding : Encoding) :
    S.Runs (S.held []) S.Read (Lexer.finish lexeme encoding) (Lexer.finish lexeme encoding) :=
  (runs_finish lexeme encoding).pre fun _ _ h => S.after_held h hend hl

theorem runs_throw_marked {α β : Type} {cs : List UInt8} {Q : α → Lexer σ → β → Lexer τ → Prop}
    (cause : Cause) :
    S.Runs (S.held cs) Q (do throw (.located cause (← Lexer.marked)))
      (do throw (.located cause (← Lexer.marked))) := by
  refine runs_bind S.marked fun l l' => runs_given fun hl => ?_
  exact runs_throw (S.located hl cause) fun s t h => out_of_held h

theorem same_universalBytes (code : Nat) :
    S.Same (S.held []) (fun _ => S.held []) (universalBytes code) (universalBytes code) := by
  unfold universalBytes
  split
  · exact same_pure fun s t h => h
  · exact runs_throw (S.failure_refl _) fun s t h => out_of_held h

theorem same_octalDigits (count value : Nat) :
    S.Same (S.held []) (fun _ => S.held []) (octalDigits count value) (octalDigits count value) := by
  induction count generalizing value with
  | zero => exact same_pure fun s t h => h
  | succ count ih =>
      refine same_bind (same_take (by decide)) fun c => runs_given fun _ => ?_
      cases c with
      | none => exact same_pure fun s t h => h
      | some c => exact ih _

theorem ne_newline_of_hexValue {c : UInt8} {value : Nat} (h : hexValue? c.toNat = some value) :
    c ≠ newline := by
  rintro rfl
  simp [hexValue?, newline] at h

theorem same_hexDigits :
    S.Same (S.held []) (fun _ => S.held []) hexDigits hexDigits := by
  refine runs_bind (runs_here 2) fun l l' => runs_given fun hl => ?_
  refine same_bind (same_next plain_nil) fun c => ?_
  cases c with
  | none => exact runs_throw (S.located hl _) fun s t h => out_of_held h
  | some c =>
      dsimp only
      split
      · exact runs_throw (S.located hl _) fun s t h => out_of_held h
      · next value hv =>
        refine Runs.pre (same_loop (I := fun _ => S.held []) (fun value => ?_) value)
          fun s t h => S.keep h (ne_newline_of_hexValue hv)
        refine same_bind (same_take (by decide)) fun d => runs_given fun _ => ?_
        cases d with
        | none => exact same_pure fun s t h => h
        | some d => exact same_pure fun s t h => h

theorem same_universalDigits {l l' : Location} (hl : S.place l l') (count value : Nat) :
    S.Same (S.held []) (fun _ => S.held []) (universalDigits l count value)
      (universalDigits l' count value) := by
  induction count generalizing value with
  | zero => exact same_pure fun s t h => h
  | succ count ih =>
      refine same_bind (same_next plain_nil) fun c => ?_
      cases c with
      | none => exact runs_throw (S.located hl _) fun s t h => out_of_held h
      | some c =>
          dsimp only
          split
          · exact runs_throw (S.located hl _) fun s t h => out_of_held h
          · next d hd =>
            exact (ih _).pre fun s t h => S.keep h (ne_newline_of_hexValue hd)

theorem same_universalName (mark : Char) (count : Nat) :
    S.Same (S.held []) (fun _ => S.held []) (universalName mark count)
      (universalName mark count) := by
  refine runs_bind (runs_here 2) fun l l' => runs_given fun hl => ?_
  refine same_bind (same_universalDigits hl count 0) fun code => ?_
  split
  · exact same_pure fun s t h => h
  · exact runs_throw (S.located hl _) fun s t h => out_of_held h

theorem isUniversalMark_iff {c : UInt8} :
    isUniversalMark c.toNat = true ↔ c = byte 'u' ∨ c = byte 'U' := by
  rw [← UInt8.toNat_inj, ← UInt8.toNat_inj, show (byte 'u').toNat = 0x75 by decide,
    show (byte 'U').toNat = 0x55 by decide]
  simp [isUniversalMark]

theorem same_escapeFrom {l l' : Location} (hl : S.place l l') (c : UInt8) :
    S.Same (S.held [c])
      (fun _ s t => S.Out s t ∧ (isUniversalMark c.toNat = true → S.held [] s t))
      (escapeFrom l c) (escapeFrom l' c) := by
  have digits : ∀ {m : LexOn σ Nat} {n : LexOn τ Nat}, c ≠ newline →
      S.Same (S.held []) (fun _ => S.held []) m n →
      S.Same (S.held [c])
        (fun _ s t => S.Out s t ∧ (isUniversalMark c.toNat = true → S.held [] s t)) m n := by
    intro m n hc h
    refine Same.post (Runs.pre h fun s t hs => S.keep hs hc) ?_
    exact fun _ s t hs => ⟨out_of_held hs, fun _ => hs⟩
  have other : ¬ isUniversalMark c.toNat = true → ∀ s t, S.held [c] s t →
      S.Out s t ∧ (isUniversalMark c.toNat = true → S.held [] s t) :=
    fun hc s t h => ⟨out_of_held h, fun hc' => absurd hc' hc⟩
  unfold escapeFrom
  split
  · next value hv =>
    refine same_pure (other ?_)
    rw [isUniversalMark_iff]
    rintro (rfl | rfl)
    · rw [show simpleEscape? (byte 'u') = none by decide] at hv
      cases hv
    · rw [show simpleEscape? (byte 'U') = none by decide] at hv
      cases hv
  · split
    · next hc => exact digits (by rw [hc]; decide) same_hexDigits
    · split
      · next hc => exact digits (by rw [hc]; decide) (same_universalName _ _)
      · split
        · next hc => exact digits (by rw [hc]; decide) (same_universalName _ _)
        · split
          · next hc =>
            refine digits ?_ (same_octalDigits _ _)
            rintro rfl
            simp [isOctalDigit, newline] at hc
          · next hu hU hc =>
            refine same_bind (S.warn hl _) fun _ => same_pure (other ?_)
            rw [isUniversalMark_iff]
            exact fun h => h.elim hu hU

theorem same_escape : S.Same (S.held []) (fun _ => S.Out) escape escape := by
  refine runs_bind (runs_here 1) fun l l' => runs_given fun hl => ?_
  refine same_bind (same_next plain_nil) fun c => ?_
  cases c with
  | none => exact (same_bind_pure (S.warn hl _) 0).post fun _ s t h => out_of_held h
  | some c => exact (same_escapeFrom hl c).post fun _ s t h => h.1

theorem same_escape_named :
    S.Same (fun s t => S.held [] s t ∧
        ∃ c s', isUniversalMark c.toNat = true ∧ next? s = .ok (some c) s')
      (fun _ => S.held []) escape escape := by
  rintro s t ⟨h, c, s', hc, hnext⟩
  rcases S.next h plain_nil with ⟨d, s₁, t₁, hs, ht, h₁⟩
  have hd : d = some c := by
    rw [hs] at hnext
    cases hnext
    rfl
  subst hd
  have hl := S.back (S.here h) 1
  have hrun := same_escapeFrom hl c s₁ t₁ h₁
  have unfolded : ∀ {κ : Type} [CharStream κ] {u u' : Lexer κ}, next? u = .ok (some c) u' →
      escape u = escapeFrom ((CharStream.location u.stream).back 1) c u' := by
    intro κ _ u u' hu
    rw [escape, LexM.bind_of_ok (show Lexer.here 1 u = .ok _ u from rfl), LexM.bind_of_ok hu]
  rw [unfolded hs, unfolded ht]
  cases hes : escapeFrom ((CharStream.location s.stream).back 1) c s₁ <;>
    cases het : escapeFrom ((CharStream.location t.stream).back 1) c t₁ <;> rw [hes, het] at hrun
  · exact ⟨hrun.1, hrun.2.2 hc⟩
  all_goals exact hrun

end Simulation

end CLex
