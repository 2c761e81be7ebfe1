import CLex.Lexer.Escape

namespace CLex.Lexer

variable {σ : Type} [CharStream σ]

open LexM Character

/-- The state is the bytes of the name so far, the last one first. -/
def identRound (bytes : List UInt8) : LexOn σ (Round (List UInt8) (List UInt8)) := do
  match ← next? with
  | none => pure (.done bytes.reverse)
  | some c =>
    if isIdentChar c.toNat then pure (.again (c :: bytes))
    else if c = backslash then do
      if ← peekIs fun c => isUniversalMark c.toNat then do
        let code ← escape
        let units ← universalBytes code
        pure (.again (units.reverse ++ bytes))
      else do
        unread c
        pure (.done bytes.reverse)
    else do
      unread c
      pure (.done bytes.reverse)

theorem weight_identRound {bytes : List UInt8} {lx lx' : Lexer σ}
    {r : Round (List UInt8) (List UInt8)} (h : identRound bytes lx = .ok r lx') :
    lx'.weight ≤ lx.weight ∧ ∀ b, r = .again b → lx'.weight < lx.weight := by
  obtain ⟨d, lx₁, h₁, h₂⟩ := bind_eq_ok.1 h
  cases d with
  | none =>
    obtain ⟨rfl, rfl⟩ := pure_eq_ok.1 h₂
    exact ⟨weight_next?_none h₁, by simp⟩
  | some d =>
    have hlt := weight_next?_some h₁
    have put : ∀ {lx₂ : Lexer σ}, lx₂.weight ≤ lx₁.weight →
        (do unread d; pure (.done bytes.reverse) : LexOn σ (Round (List UInt8) (List UInt8))) lx₂ =
          .ok r lx' →
        lx'.weight ≤ lx.weight ∧ ∀ b, r = .again b → lx'.weight < lx.weight := by
      intro lx₂ hle h
      obtain ⟨u, lx₃, h₃, h₄⟩ := bind_eq_ok.1 h
      obtain ⟨rfl, rfl⟩ := pure_eq_ok.1 h₄
      have := weight_unread h₃
      exact ⟨by omega, by simp⟩
    simp only at h₂
    split at h₂
    · obtain ⟨rfl, rfl⟩ := pure_eq_ok.1 h₂
      exact ⟨Nat.le_of_lt hlt, fun _ _ => hlt⟩
    · split at h₂
      · obtain ⟨named, lx₂, h₃, h₄⟩ := bind_eq_ok.1 h₂
        have hle := keeps_peekIs _ _ _ _ h₃
        split at h₄
        · have keeps : Keeps (do
              let code ← escape
              let units ← universalBytes code
              pure (.again (units.reverse ++ bytes)) : LexOn σ (Round (List UInt8) (List UInt8))) :=
            keeps_escape.bind fun _ => (keeps_universalBytes _).bind fun _ => keeps_pure _
          have := keeps _ _ _ h₄
          exact ⟨by omega, fun _ _ => by omega⟩
        · exact put hle h₄
      · exact put (Nat.le_refl _) h₂

theorem progress_identRound : Progress (σ := σ) identRound :=
  fun _ _ b _ h => (weight_identRound h).2 b rfl

/-- The identifier that begins with `first`. A universal character name in it is kept as UTF-8. -/
def ident (first : UInt8) : LexOn σ Token := do
  let bytes ← loop identRound progress_identRound [first]
  finish (.ident (Utf8.decode bytes))

theorem keeps_ident (first : UInt8) : Keeps (σ := σ) (ident first) :=
  (keeps_loop (fun _ _ _ _ h => (weight_identRound h).1) [first]).bind
    fun _ => keeps_finish _ _

/-- Whether `c` goes on a number whose last character is `last`: a digit, a letter, a dot, or a sign
after an exponent letter. -/
def extendsNumber (last c : UInt8) : Bool :=
  isDigit c.toNat || isLetter c.toNat || c == byte '.' ||
    (isExponentMark last.toNat && isSign c.toNat)

/-- The state is the last character of the number, and those before it in reverse. -/
def numberRound (chars : UInt8 × List UInt8) : LexOn σ (Round (UInt8 × List UInt8) (List UInt8)) := do
  match ← takeIf (extendsNumber chars.1) with
  | none => pure (.done (chars.1 :: chars.2).reverse)
  | some c => pure (.again (c, chars.1 :: chars.2))

theorem progress_numberRound : Progress (σ := σ) numberRound := by
  intro a lx b lx' h
  obtain ⟨d, lx₁, h₁, h₂⟩ := bind_eq_ok.1 h
  cases d with
  | none => simp [pure_eq_ok] at h₂
  | some d =>
    simp [pure_eq_ok] at h₂
    obtain ⟨-, rfl⟩ := h₂
    exact weight_takeIf_some h₁

def number (first : UInt8) : LexOn σ Token := do
  let chars ← loop numberRound progress_numberRound (first, [])
  finish (.number (textOf chars))

theorem keeps_number (first : UInt8) : Keeps (σ := σ) (number first) := by
  refine (keeps_loop (fun chars => ?_) (first, [])).bind fun _ => keeps_finish _ _
  refine (keeps_takeIf _).bind fun d => ?_
  cases d <;> exact keeps_pure _

end CLex.Lexer
