import CLex.Lexer.Basic

namespace CLex.Lexer

variable {σ : Type} [CharStream σ]

open LexM Character

def lineRound (_ : Unit) : LexOn σ (Round Unit Unit) := do
  match ← next? with
  | none => pure (.done ())
  | some c => if c = newline then do unread c; pure (.done ()) else pure (.again ())

theorem progress_lineRound : Progress (σ := σ) lineRound := by
  intro a lx b lx' h
  obtain ⟨d, lx₁, h₁, h₂⟩ := bind_eq_ok.1 h
  cases d with
  | none => simp [pure_eq_ok] at h₂
  | some d =>
    by_cases hd : d = newline
    · simp [hd, map_eq_ok] at h₂
    · simp [hd, pure_eq_ok] at h₂
      obtain rfl := h₂
      exact weight_next?_some h₁

/-- Passes over the rest of the line, up to the newline. -/
def skipLine : LexOn σ Unit :=
  loop lineRound progress_lineRound ()

theorem keeps_skipLine : Keeps (σ := σ) skipLine := by
  refine keeps_loop (fun _ => ?_) ()
  intro lx a lx' h
  obtain ⟨d, lx₁, h₁, h₂⟩ := bind_eq_ok.1 h
  cases d with
  | none => exact Nat.le_trans (keeps_pure _ _ _ _ h₂) (weight_next?_none h₁)
  | some d =>
    by_cases hd : d = newline
    · simp [hd, map_eq_ok] at h₂
      obtain ⟨⟨_, h₂⟩, -⟩ := h₂
      rw [weight_unread h₂]
      exact weight_next?_some h₁
    · simp [hd, pure_eq_ok] at h₂
      obtain ⟨-, rfl⟩ := h₂
      exact Nat.le_of_lt (weight_next?_some h₁)

/-- The state is whether the character before was a star. -/
def commentRound (start : Location) (afterStar : Bool) : LexOn σ (Round Bool Unit) := do
  match ← next? with
  | none => throw (.located .unterminatedComment start)
  | some c =>
    if c = byte '/' ∧ afterStar then pure (.done ()) else pure (.again (c == byte '*'))

theorem progress_commentRound (start : Location) : Progress (σ := σ) (commentRound start) := by
  intro a lx b lx' h
  obtain ⟨d, lx₁, h₁, h₂⟩ := bind_eq_ok.1 h
  cases d with
  | none => exact absurd h₂ throw_ne_ok
  | some d =>
    simp only at h₂
    split at h₂
    · simp [pure_eq_ok] at h₂
    · simp [pure_eq_ok] at h₂
      obtain ⟨-, rfl⟩ := h₂
      exact weight_next?_some h₁

/-- Passes over a comment whose `/*` has been read. -/
def skipComment : LexOn σ Unit := do
  let start ← here 2
  loop (commentRound start) (progress_commentRound start) false

theorem keeps_skipComment : Keeps (σ := σ) skipComment := by
  refine (keeps_here 2).bind fun start => keeps_loop (fun a => ?_) false
  refine keeps_next?.bind fun d => ?_
  cases d with
  | none => exact keeps_throw _
  | some d =>
    simp only
    split <;> exact keeps_pure _

/-- Passes over one blank or one comment, if that comes next. -/
def skipBlank : LexOn σ Bool := do
  match ← next? with
  | none => pure false
  | some c =>
    if isBlank c.toNat then pure true
    else if c = byte '/' then do
      if ← skipIf (byte '*') then do
        skipComment
        pure true
      else if ← skipIf (byte '/') then do
        skipLine
        pure true
      else do
        unread c
        pure false
    else do
      unread c
      pure false

theorem weight_skipBlank {lx lx' : Lexer σ} {skipped : Bool} (h : skipBlank lx = .ok skipped lx') :
    if skipped then lx'.weight < lx.weight else lx'.weight ≤ lx.weight := by
  obtain ⟨d, lx₁, h₁, h₂⟩ := bind_eq_ok.1 h
  cases d with
  | none =>
    obtain ⟨rfl, rfl⟩ := pure_eq_ok.1 h₂
    simpa using weight_next?_none h₁
  | some d =>
    have hlt := weight_next?_some h₁
    have put : ∀ {lx₂ : Lexer σ}, lx₂.weight ≤ lx₁.weight →
        (do unread d; pure false : LexOn σ Bool) lx₂ = .ok skipped lx' →
        if skipped then lx'.weight < lx.weight else lx'.weight ≤ lx.weight := by
      intro lx₂ hle h
      obtain ⟨u, lx₃, h₃, h₄⟩ := bind_eq_ok.1 h
      obtain ⟨rfl, rfl⟩ := pure_eq_ok.1 h₄
      have := weight_unread h₃
      simp
      omega
    have past : ∀ {m : LexOn σ Unit} {lx₂ : Lexer σ}, Keeps m → lx₂.weight ≤ lx₁.weight →
        (do m; pure true : LexOn σ Bool) lx₂ = .ok skipped lx' →
        if skipped then lx'.weight < lx.weight else lx'.weight ≤ lx.weight := by
      intro m lx₂ hm hle h
      obtain ⟨u, lx₃, h₃, h₄⟩ := bind_eq_ok.1 h
      obtain ⟨rfl, rfl⟩ := pure_eq_ok.1 h₄
      have := hm _ _ _ h₃
      simp
      omega
    simp only at h₂
    split at h₂
    · obtain ⟨rfl, rfl⟩ := pure_eq_ok.1 h₂
      simpa using hlt
    · split at h₂
      · obtain ⟨star, lx₂, h₃, h₄⟩ := bind_eq_ok.1 h₂
        have hle := keeps_skipIf _ _ _ _ h₃
        split at h₄
        · exact past keeps_skipComment hle h₄
        · obtain ⟨slash, lx₃, h₅, h₆⟩ := bind_eq_ok.1 h₄
          have hle' := Nat.le_trans (keeps_skipIf _ _ _ _ h₅) hle
          split at h₆
          · exact past keeps_skipLine hle' h₆
          · exact put hle' h₆
      · exact put (Nat.le_refl _) h₂

def blankRound (skipped : Bool) : LexOn σ (Round Bool Bool) := do
  if ← skipBlank then pure (.again true) else pure (.done skipped)

theorem progress_blankRound : Progress (σ := σ) blankRound := by
  intro a lx b lx' h
  obtain ⟨s, lx₁, h₁, h₂⟩ := bind_eq_ok.1 h
  have := weight_skipBlank h₁
  cases s with
  | false => simp [pure_eq_ok] at h₂
  | true =>
    simp [pure_eq_ok] at h₂
    obtain ⟨-, rfl⟩ := h₂
    simpa using this

/-- Passes over all blanks and comments and says whether there were any. -/
def skipBlanks : LexOn σ Bool :=
  loop blankRound progress_blankRound false

theorem weight_skipBlanks {lx lx' : Lexer σ} {skipped : Bool} (h : skipBlanks lx = .ok skipped lx') :
    if skipped then lx'.weight < lx.weight else lx'.weight ≤ lx.weight := by
  have key : lx'.weight ≤ lx.weight ∧ (skipped = true → false = true ∨ lx'.weight < lx.weight) := by
    refine loop_induction
      (fun before lx skipped lx' => lx'.weight ≤ lx.weight ∧
        (skipped = true → before = true ∨ lx'.weight < lx.weight)) ?_ ?_ h
    · intro a lx r lx' h
      obtain ⟨s, lx₁, h₁, h₂⟩ := bind_eq_ok.1 h
      have := weight_skipBlank h₁
      cases s with
      | false =>
        simp [pure_eq_ok] at h₂
        obtain ⟨rfl, rfl⟩ := h₂
        exact ⟨by simpa using this, Or.inl⟩
      | true => simp [pure_eq_ok] at h₂
    · intro a lx b lx' r lx'' h ih
      have := progress_blankRound _ _ _ _ h
      exact ⟨by omega, fun _ => Or.inr (by omega)⟩
  split
  · next hs => simpa using key.2 hs
  · exact key.1

theorem keeps_skipBlanks : Keeps (σ := σ) skipBlanks := by
  intro lx skipped lx' h
  have := weight_skipBlanks h
  split at this <;> omega

end CLex.Lexer
