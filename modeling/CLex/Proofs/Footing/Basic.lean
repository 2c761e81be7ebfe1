import CLex.Lexer.Blank
import CLex.Lexer.Escape

/-!
What an operation of a lexer leads to, on success and on failure. The operations are followed from
one read to the next: a `Footing` says what is known of the lexer between them, by the characters
that may still be put back. It fixes the discipline that every operation keeps to, and whatever
satisfies its laws is kept by all of them.
-/

namespace CLex

open Character Lexer LexM

section Leads

variable {σ α β κ ρ : Type} {E : Failure → Lexer σ → Prop} {P P' : Lexer σ → Prop}
  {Q Q' : α → Lexer σ → Prop}

/-- From a state in `P` the operation ends with a result in `Q` or with a failure in `E`. -/
def Leads (E : Failure → Lexer σ → Prop) (P : Lexer σ → Prop) (m : LexOn σ α)
    (Q : α → Lexer σ → Prop) : Prop :=
  ∀ lx, P lx →
    match m lx with
    | .ok a lx' => Q a lx'
    | .error f lx' => E f lx'

theorem Leads.ok {m : LexOn σ α} (h : Leads E P m Q) {lx lx' : Lexer σ} {a : α} (hP : P lx)
    (hm : m lx = .ok a lx') : Q a lx' := by
  have hrun := h lx hP
  rw [hm] at hrun
  exact hrun

theorem Leads.error {m : LexOn σ α} (h : Leads E P m Q) {lx lx' : Lexer σ} {f : Failure}
    (hP : P lx) (hm : m lx = .error f lx') : E f lx' := by
  have hrun := h lx hP
  rw [hm] at hrun
  exact hrun

theorem leads_of_ok {m : LexOn σ α}
    (h : ∀ lx, P lx → ∃ a lx', m lx = .ok a lx' ∧ Q a lx') : Leads E P m Q := by
  intro lx hP
  rcases h lx hP with ⟨a, lx', hm, hQ⟩
  rw [hm]
  exact hQ

theorem leads_pure {a : α} (h : ∀ lx, P lx → Q a lx) : Leads E P (pure a) Q :=
  h

theorem leads_throw {f : Failure} (h : ∀ lx, P lx → E f lx) : Leads E P (throw f) Q :=
  h

theorem leads_bind {m : LexOn σ α} {f : α → LexOn σ β} {R : β → Lexer σ → Prop}
    (hm : Leads E P m Q) (hf : ∀ a, Leads E (Q a) (f a) R) : Leads E P (m >>= f) R := by
  intro lx hP
  have hrun := hm lx hP
  cases h : m lx with
  | ok a lx₁ =>
      rw [h] at hrun
      rw [bind_of_ok h]
      exact hf a lx₁ hrun
  | error e lx₁ =>
      rw [h] at hrun
      rw [bind_of_error h]
      exact hrun

theorem Leads.pre {m : LexOn σ α} (h : Leads E P m Q) (hP : ∀ lx, P' lx → P lx) :
    Leads E P' m Q :=
  fun lx hlx => h lx (hP lx hlx)

theorem Leads.post {m : LexOn σ α} (h : Leads E P m Q) (hQ : ∀ a lx, Q a lx → Q' a lx) :
    Leads E P m Q' := by
  intro lx hP
  have hrun := h lx hP
  cases hm : m lx with
  | ok a lx₁ =>
      rw [hm] at hrun
      exact hQ a lx₁ hrun
  | error e lx₁ =>
      rw [hm] at hrun
      exact hrun

theorem leads_given {p : Prop} {m : LexOn σ α} (h : p → Leads E P m Q) :
    Leads E (fun lx => p ∧ P lx) m Q :=
  fun lx hlx => h hlx.1 lx hlx.2

theorem leads_exists {ι : Type} {P : ι → Lexer σ → Prop} {m : LexOn σ α}
    (h : ∀ i, Leads E (P i) m Q) : Leads E (fun lx => ∃ i, P i lx) m Q := by
  rintro lx ⟨i, hi⟩
  exact h i lx hi

theorem leads_or {m : LexOn σ α} (h : Leads E P m Q) (h' : Leads E P' m Q) :
    Leads E (fun lx => P lx ∨ P' lx) m Q := by
  rintro lx (hP | hP)
  · exact h lx hP
  · exact h' lx hP

theorem leads_here (back : Int) [CharStream σ] : Leads E P (here back) fun _ => P :=
  fun _ hP => hP

theorem leads_marked [CharStream σ] : Leads E P marked fun _ => P :=
  fun _ hP => hP

theorem leads_setMark_of [CharStream σ] (h : ∀ lx mark, P lx → P { lx with mark }) :
    Leads E P setMark fun _ => P := by
  intro lx hP
  unfold setMark
  cases CharStream.place? lx.stream with
  | none => exact hP
  | some place => exact h lx _ hP

theorem leads_needSource_of [CharStream σ] (h : ∀ lx, P lx → E .nothingThere lx) :
    Leads E P needSource fun _ => P := by
  intro lx hP
  unfold needSource
  cases CharStream.place? lx.stream with
  | none => exact h lx hP
  | some place => exact hP

theorem leads_warn_of [CharStream σ] {location : Location} {text : String}
    (stop : ∀ lx, P lx → lx.options.enableWarnings = true → lx.options.warningsAsErrors = true →
      E (.located (.promotedWarning text none) location) lx)
    (note : ∀ lx collector shown, P lx →
      P { lx with collector, stream := CharStream.note lx.stream shown }) :
    Leads E P (warn location text) fun _ => P := by
  intro lx hP
  unfold warn
  cases henabled : lx.options.enableWarnings with
  | false => exact hP
  | true =>
      cases herrors : lx.options.warningsAsErrors with
      | false => exact note lx _ _ hP
      | true => exact stop lx hP henabled herrors

theorem leads_finish_of [CharStream σ] {lexeme : Lexeme} {encoding : Encoding}
    (draw : ∀ lx, P lx → P { lx with stream := (CharStream.draw lx.stream).2 }) :
    Leads E P (finish lexeme encoding) fun _ => P := by
  intro lx hP
  unfold finish
  cases CharStream.place? lx.stream with
  | none => exact hP
  | some place => exact draw lx hP

/-- The state after a round satisfies `I` if there is another one, and `R` at the end. -/
def RoundLeft (I : κ → Lexer σ → Prop) (R : ρ → Lexer σ → Prop) : Round κ ρ → Lexer σ → Prop
  | .again b => I b
  | .done x => R x

theorem leads_loop [CharStream σ] {step : κ → LexOn σ (Round κ ρ)} {progress : Progress step}
    {I : κ → Lexer σ → Prop} {R : ρ → Lexer σ → Prop}
    (h : ∀ a, Leads E (I a) (step a) (RoundLeft I R)) (a : κ) :
    Leads E (I a) (loop step progress a) R := by
  intro lx hI
  induction a, lx using round_induction progress with
  | error a lx f lx' hs =>
      have hrun := h a lx hI
      rw [hs] at hrun
      rw [loop_eq, hs]
      exact hrun
  | done a lx x lx' hs =>
      have hrun := h a lx hI
      rw [hs] at hrun
      rw [loop_eq, hs]
      exact hrun
  | again a lx b lx' hs ih =>
      have hrun := h a lx hI
      rw [hs] at hrun
      rw [loop_eq, hs]
      exact ih hrun

end Leads

namespace Cause

def isSyntax : Cause → Bool
  | .malformed _ _ | .headerName _ _ | .unterminatedComment | .unterminatedString
  | .unterminatedChar | .invalidEscape _ | .invalidUniversal _ | .unconsumed _ => true
  | .general _ _ | .promotedWarning _ _ | .cannotOpen _ _ => false

end Cause

def Lexer.Ahead {σ : Type} [CharStream σ] (c : UInt8) (lx : Lexer σ) : Prop :=
  ∃ lx', next? lx = .ok (some c) lx'

/-- What is known of a lexer between its reads. The lists are the latest characters that have been
read, the last one first. -/
structure Stance (σ : Type) where
  /-- Nothing that has been read is put back any more. -/
  loose : Lexer σ → Prop
  ended : Lexer σ → Prop
  /-- The character comes next and has been read before. -/
  front : UInt8 → Lexer σ → Prop
  out : List UInt8 → Lexer σ → Prop
  /-- What comes behind the characters has been looked at. -/
  looked : List UInt8 → Lexer σ → Prop
  /-- The character, behind the others, has been put back after what comes behind it. -/
  behind : UInt8 → List UInt8 → Lexer σ → Prop
  /-- A token may begin with this character after it has been put back in this way. -/
  stray : UInt8 → Prop
  token : Token → Prop
  failure : Failure → Prop

def Stance.Failed {σ : Type} (S : Stance σ) (f : Failure) (lx : Lexer σ) : Prop :=
  S.failure f ∧ S.loose lx

/-- What is known of the lexer is kept by every read. -/
structure Footing (σ : Type) [CharStream σ] extends Stance σ where
  loose_of_ended {lx : Lexer σ} (h : ended lx) : loose lx
  loose_of_front {lx : Lexer σ} (h : front newline lx) : loose lx
  loose_of_looked {cs : List UInt8} {lx : Lexer σ} (h : looked cs lx) : loose lx
  looked_of_out {c : UInt8} {cs : List UInt8} {lx : Lexer σ} (h : out (c :: cs) lx) :
    looked (c :: cs) lx
  looked_single {c : UInt8} {cs : List UInt8} {lx : Lexer σ} (h : looked (c :: cs) lx) :
    looked [c] lx
  front_of_behind {c : UInt8} {cs : List UInt8} {lx : Lexer σ} (hstray : stray c)
    (hc : c ≠ backslash) (h : behind c cs lx) : front c lx
  stray_slash : stray (byte '/')
  next_loose : Leads toStance.Failed loose next? fun d => d.elim ended fun d => out [d]
  next_front (c : UInt8) :
    Leads toStance.Failed (front c) next? fun d => d.elim ended fun d => out [d]
  next_looked (c : UInt8) (cs : List UInt8) : Leads toStance.Failed (looked (c :: cs)) next?
    fun d => d.elim (looked (c :: cs)) fun d => out (d :: c :: cs)
  next_behind (c : UInt8) (cs : List UInt8) : Leads toStance.Failed (behind c cs) next?
    fun d => d.elim ended fun d => looked [d]
  next_stray {c : UInt8} (hstray : stray c) (cs : List UInt8) :
    Leads toStance.Failed (behind c cs) next? fun d => d.elim ended fun d => out [d]
  unread_front (c : UInt8) : Leads toStance.Failed (out [c]) (unread c) fun _ => front c
  unread_out (d c : UInt8) (cs : List UInt8) :
    Leads toStance.Failed (out (d :: c :: cs)) (unread d)
      fun _ lx => looked (c :: cs) lx ∧ (d ≠ backslash → lx.Ahead d)
  unread_looked {c : UInt8} (hc : c ≠ newline) (cs : List UInt8) :
    Leads toStance.Failed (looked (c :: cs)) (unread c)
      fun _ lx => behind c cs lx ∧ (c ≠ backslash → lx.Ahead c)
  warn_loose (location : Location) (text : String) :
    Leads toStance.Failed loose (warn location text) fun _ => loose
  warn_looked (c : UInt8) (location : Location) (text : String) :
    Leads toStance.Failed (looked [c]) (warn location text) fun _ => looked [c]
  finish_ended (lexeme : Lexeme) (encoding : Encoding) :
    Leads toStance.Failed ended (finish lexeme encoding) fun t lx => token t ∧ ended lx
  finish_looked (c : UInt8) (lexeme : Lexeme) (encoding : Encoding) :
    Leads toStance.Failed (looked [c]) (finish lexeme encoding) fun t lx => token t ∧ looked [c] lx
  finish_behind (c : UInt8) (cs : List UInt8) (lexeme : Lexeme) (encoding : Encoding) :
    Leads toStance.Failed (behind c cs) (finish lexeme encoding)
      fun t lx => token t ∧ behind c cs lx
  located {cause : Cause} (h : cause.isSyntax = true) (location : Location) :
    failure (.located cause location)
  tooLarge {code : Nat} (h : Utf8.encode? code = none) : failure (.codePointTooLarge code)

namespace Footing

variable {σ α : Type} [CharStream σ] (F : Footing σ)

/-- The last character that was read stays read, and it is no newline. -/
def kept (lx : Lexer σ) : Prop :=
  ∃ c, c ≠ newline ∧ F.looked [c] lx

def ready (lx : Lexer σ) : Prop :=
  F.ended lx ∨ ∃ c, F.front c lx

def between (lx : Lexer σ) : Prop :=
  F.loose lx ∨ ∃ c cs, F.stray c ∧ F.behind c cs lx

variable {F}

theorem loose_of_out {c : UInt8} {cs : List UInt8} {lx : Lexer σ} (h : F.out (c :: cs) lx) :
    F.loose lx :=
  F.loose_of_looked (F.looked_of_out h)

theorem loose_of_kept {lx : Lexer σ} (h : F.kept lx) : F.loose lx := by
  rcases h with ⟨c, -, h⟩
  exact F.loose_of_looked h

theorem kept_of_out {c : UInt8} {cs : List UInt8} {lx : Lexer σ} (hc : c ≠ newline)
    (h : F.out (c :: cs) lx) : F.kept lx :=
  ⟨c, hc, F.looked_single (F.looked_of_out h)⟩

theorem leads_fail {P : Lexer σ → Prop} {Q : α → Lexer σ → Prop} {cause : Cause}
    {location : Location} (hcause : cause.isSyntax = true) (h : ∀ lx, P lx → F.loose lx) :
    Leads F.Failed P (throw (.located cause location)) Q :=
  leads_throw fun lx hP => ⟨F.located hcause location, h lx hP⟩

theorem leads_fail_marked {P : Lexer σ → Prop} {Q : α → Lexer σ → Prop} {cause : Cause}
    (hcause : cause.isSyntax = true) (h : ∀ lx, P lx → F.loose lx) :
    Leads F.Failed P (do throw (.located cause (← marked))) Q :=
  leads_bind leads_marked fun _ => leads_fail hcause h

theorem leads_takeIf (c : UInt8) (cs : List UInt8) (p : UInt8 → Bool) :
    Leads F.Failed (F.looked (c :: cs)) (takeIf p)
      fun d lx => d.elim (F.looked (c :: cs) lx) fun d => p d = true ∧ F.out (d :: c :: cs) lx := by
  refine leads_bind (F.next_looked c cs) fun d => ?_
  cases d with
  | none => exact leads_pure fun lx h => h
  | some d =>
      dsimp only
      split
      · next hp => exact leads_pure fun lx h => ⟨hp, h⟩
      · exact leads_bind (F.unread_out d c cs) fun _ => leads_pure fun lx h => h.1

theorem leads_takeIf_kept {p : UInt8 → Bool} (hp : p newline = false) :
    Leads F.Failed F.kept (takeIf p) fun _ => F.kept := by
  rintro lx ⟨c, hc, h⟩
  refine ((leads_takeIf c [] p).post ?_) lx h
  rintro (_ | d) lx h
  · exact ⟨c, hc, h⟩
  · rcases h with ⟨hd, h⟩
    refine kept_of_out ?_ h
    rintro rfl
    rw [hp] at hd
    exact absurd hd (by simp)

theorem leads_skipIf (c : UInt8) (cs : List UInt8) (d : UInt8) :
    Leads F.Failed (F.looked (c :: cs)) (skipIf d)
      fun b => if b then F.out (d :: c :: cs) else F.looked (c :: cs) := by
  refine leads_bind (leads_takeIf c cs _) fun e => ?_
  cases e with
  | none => exact leads_pure fun lx h => h
  | some e =>
      refine leads_given fun he => leads_pure fun lx h => ?_
      rw [← show e = d by simpa using he]
      exact h

theorem leads_peekIs (c : UInt8) (cs : List UInt8) {p : UInt8 → Bool} (hp : p backslash = false) :
    Leads F.Failed (F.looked (c :: cs)) (peekIs p)
      fun b lx => F.looked (c :: cs) lx ∧ (b = true → ∃ d, p d = true ∧ lx.Ahead d) := by
  refine leads_bind (F.next_looked c cs) fun d => ?_
  cases d with
  | none => exact leads_pure fun lx h => ⟨h, by simp⟩
  | some d =>
      refine leads_bind (F.unread_out d c cs) fun _ => leads_pure fun lx h => ⟨h.1, fun hd => ?_⟩
      refine ⟨d, hd, h.2 ?_⟩
      rintro rfl
      rw [hp] at hd
      exact absurd hd (by simp)

theorem leads_skipLine : Leads F.Failed F.loose skipLine fun _ => F.loose := by
  refine leads_loop (I := fun _ => F.loose) (fun _ => leads_bind F.next_loose fun d => ?_) ()
  cases d with
  | none => exact leads_pure fun lx h => F.loose_of_ended h
  | some d =>
      dsimp only
      split
      · next hd =>
        subst hd
        exact leads_bind (F.unread_front newline) fun _ => leads_pure fun lx h => F.loose_of_front h
      · exact leads_pure fun lx h => loose_of_out h

theorem leads_skipComment : Leads F.Failed F.loose skipComment fun _ => F.loose := by
  refine leads_bind (leads_here 2) fun start => leads_loop (I := fun _ => F.loose) (fun star => ?_) _
  refine leads_bind F.next_loose fun d => ?_
  cases d with
  | none => exact leads_fail rfl fun lx h => F.loose_of_ended h
  | some d =>
      dsimp only
      split
      · exact leads_pure fun lx h => loose_of_out h
      · exact leads_pure fun lx h => loose_of_out h

/-- A slash that begins no comment is put back after the character behind it. -/
theorem leads_skipSlash :
    Leads F.Failed (F.out [byte '/'])
      (do
        if ← skipIf (byte '*') then do
          skipComment
          pure true
        else if ← skipIf (byte '/') then do
          skipLine
          pure true
        else do
          unread (byte '/')
          pure false)
      fun b => if b then F.loose else F.ready := by
  refine leads_bind ((leads_skipIf (byte '/') [] (byte '*')).pre fun lx h => F.looked_of_out h)
    fun star => ?_
  cases star with
  | true =>
      refine leads_bind (leads_skipComment.pre fun lx h => loose_of_out h) fun _ => ?_
      exact leads_pure fun lx h => h
  | false =>
      refine leads_bind (leads_skipIf (byte '/') [] (byte '/')) fun slash => ?_
      cases slash with
      | true =>
          refine leads_bind (leads_skipLine.pre fun lx h => loose_of_out h) fun _ => ?_
          exact leads_pure fun lx h => h
      | false =>
          refine leads_bind (F.unread_looked (by decide) []) fun _ => leads_pure fun lx h => ?_
          exact Or.inr ⟨_, F.front_of_behind F.stray_slash (by decide) h.1⟩

theorem leads_next_between :
    Leads F.Failed F.between next? fun d => d.elim F.ended fun d => F.out [d] := by
  rintro lx (h | ⟨c, cs, hstray, h⟩)
  · exact F.next_loose lx h
  · exact F.next_stray hstray cs lx h

theorem leads_skipBlank :
    Leads F.Failed F.between skipBlank fun b => if b then F.loose else F.ready := by
  refine leads_bind leads_next_between fun d => ?_
  cases d with
  | none => exact leads_pure fun lx h => Or.inl h
  | some d =>
      dsimp only
      split
      · exact leads_pure fun lx h => loose_of_out h
      · split
        · next hd =>
          subst hd
          exact leads_skipSlash
        · refine leads_bind (F.unread_front d) fun _ => leads_pure fun lx h => ?_
          exact Or.inr ⟨d, h⟩

theorem leads_skipBlanks : Leads F.Failed F.between skipBlanks fun _ => F.ready := by
  refine leads_loop (I := fun _ => F.between) (fun skipped => leads_bind leads_skipBlank fun b => ?_) _
  cases b with
  | true => exact leads_pure fun lx h => Or.inl h
  | false => exact leads_pure fun lx h => h

end Footing

end CLex
