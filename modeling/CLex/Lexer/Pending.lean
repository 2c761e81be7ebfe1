import CLex.Lexer.Fresh

namespace CLex.Lexer

variable {σ : Type} [CharStream σ]

open LexM

/-- The next token: a pending one if there is one. A list that stands in for the stream is followed
by end tokens, and the stream is not read. -/
def nextToken : LexOn σ Token := fun lx =>
  match lx.pending with
  | [] => .error .nothingThere lx
  | (t :: rest) :: outer => .ok t { lx with pending := rest :: outer }
  | [] :: _ :: _ => endToken lx
  | [[]] => freshToken lx

theorem nextToken_fresh {lx : Lexer σ} (h : lx.pending = [[]]) : nextToken lx = freshToken lx := by
  rw [nextToken, h]

/-- Makes `t` the next token. End tokens are dropped. -/
def pushBack (t : Token) : LexOn σ Unit := fun lx =>
  if t.isEnd then .ok () lx
  else
    match lx.pending with
    | [] => .error .nothingThere lx
    | buffer :: outer => .ok () { lx with pending := (t :: buffer) :: outer }

/-- Lets `tokens` stand in for the stream. -/
def stashTokens (tokens : List Token) (lx : Lexer σ) : Lexer σ :=
  { lx with pending := tokens :: lx.pending }

/-- Ends the latest stand-in, with what is left of it. -/
def unstashTokens : LexOn σ Unit := fun lx =>
  match lx.pending with
  | [] => .error .nothingThere lx
  | _ :: outer => .ok () { lx with pending := outer }

theorem weight_nextToken {lx lx' : Lexer σ} {t : Token} (h : nextToken lx = .ok t lx') :
    lx'.weight ≤ lx.weight ∧ (t.isEnd = false → lx'.weight < lx.weight) := by
  unfold nextToken at h
  split at h
  · simp at h
  · next first rest outer hp =>
    simp at h
    obtain ⟨-, rfl⟩ := h
    simp [weight, hp]
  · exact ⟨keeps_endToken _ _ _ h, fun hend => by simp [Token.isEnd, lexeme_endToken h] at hend⟩
  · exact weight_freshToken h

theorem keeps_nextToken : Keeps (σ := σ) nextToken :=
  fun _ _ _ h => (weight_nextToken h).1

end CLex.Lexer
