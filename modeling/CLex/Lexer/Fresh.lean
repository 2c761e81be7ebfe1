import CLex.Lexer.Blank
import CLex.Lexer.Literal
import CLex.Lexer.Operator
import CLex.Lexer.Word

namespace CLex.Lexer

variable {σ : Type} [CharStream σ]

open LexM Character

/-- The encoding that the letter `c` marks when a quote follows it. -/
def encodingOf? (c : UInt8) : Option Encoding :=
  if c = byte 'L' then some .wide
  else if c = byte 'u' then some .char16
  else if c = byte 'U' then some .char32
  else none

/-- A token that begins with the letter `c`, which would mark a literal as `encoding`. -/
def literalOrIdent (c : UInt8) (encoding : Encoding) : LexOn σ Token := do
  if ← skipIf doubleQuote then stringLiteral encoding
  else if ← skipIf singleQuote then charLiteral encoding
  else if encoding = .char16 then do
    if ← skipIf (byte '8') then do
      if ← skipIf doubleQuote then stringLiteral .utf8
      else do
        unread (byte '8')
        ident c
    else ident c
  else ident c

/-- A token that begins with a dot. Two dots that no third follows are an identifier. -/
def dots (c : UInt8) : LexOn σ Token := do
  if ← peekIs fun c => isDigit c.toNat then number c
  else if ← skipIf (byte '.') then do
    if ← skipIf (byte '.') then finish (.punctuator .ellipsis)
    else finish (.ident "..")
  else finish (.punctuator .dot)

/-- The token that begins with the character `c`. -/
def tokenFrom (c : UInt8) : LexOn σ Token :=
  if c = newline then finish .newline
  else
    match encodingOf? c with
    | some encoding => literalOrIdent c encoding
    | none =>
      if isIdentStart c.toNat then ident c
      else if isDigit c.toNat then number c
      else if c = doubleQuote then stringLiteral .plain
      else if c = singleQuote then charLiteral .plain
      else if c = byte '.' then dots c
      else operator c

/-- The token that begins with the next character, which is no blank. -/
def token : LexOn σ Token := do
  setMark
  match ← next? with
  | none => finish .eof
  | some c => tokenFrom c

/-- Blanks and comments, or the token that comes next if there are none. -/
def rawToken : LexOn σ Token := do
  needSource
  if ← skipBlanks then pure { lexeme := .blank }
  else token

def endToken : LexOn σ Token := do
  setMark
  finish .eof

/-- The token after any blanks and comments, with what is known of the place before it. -/
def freshToken : LexOn σ Token := do
  needSource
  let startsLine ← isAtLineStart
  let spaced ← skipBlanks
  let t ← token
  pure { t with spaced, startsLine }

theorem keeps_literalOrIdent (c : UInt8) (encoding : Encoding) :
    Keeps (σ := σ) (literalOrIdent c encoding) := by
  refine (keeps_skipIf _).bind fun b => ?_
  split
  · exact keeps_stringLiteral _
  · refine (keeps_skipIf _).bind fun b => ?_
    split
    · exact keeps_charLiteral _
    · split
      · intro lx t lx' h
        obtain ⟨eight, lx₁, h₁, h₂⟩ := bind_eq_ok.1 h
        cases eight with
        | false => exact Nat.le_trans (keeps_ident _ _ _ _ h₂) (keeps_skipIf _ _ _ _ h₁)
        | true =>
          have hlt := weight_skipIf_true h₁
          obtain ⟨quote, lx₂, h₃, h₄⟩ := bind_eq_ok.1 h₂
          have hle := keeps_skipIf _ _ _ _ h₃
          split at h₄
          · have := keeps_stringLiteral _ _ _ _ h₄
            omega
          · obtain ⟨u, lx₃, h₅, h₆⟩ := bind_eq_ok.1 h₄
            have := weight_unread h₅
            have := keeps_ident _ _ _ _ h₆
            omega
      · exact keeps_ident _

theorem keeps_dots (c : UInt8) : Keeps (σ := σ) (dots c) := by
  refine (keeps_peekIs _).bind fun b => ?_
  split
  · exact keeps_number _
  · refine (keeps_skipIf _).bind fun b => ?_
    split
    · refine (keeps_skipIf _).bind fun b => ?_
      split <;> exact keeps_finish _ _
    · exact keeps_finish _ _

theorem keeps_tokenFrom (c : UInt8) : Keeps (σ := σ) (tokenFrom c) := by
  unfold tokenFrom
  split
  · exact keeps_finish _ _
  · split
    · exact keeps_literalOrIdent _ _
    · split
      · exact keeps_ident _
      · split
        · exact keeps_number _
        · split
          · exact keeps_stringLiteral _
          · split
            · exact keeps_charLiteral _
            · split
              · exact keeps_dots _
              · exact keeps_operator _

theorem weight_token {lx lx' : Lexer σ} {t : Token} (h : token lx = .ok t lx') :
    lx'.weight ≤ lx.weight ∧ (t.isEnd = false → lx'.weight < lx.weight) := by
  obtain ⟨u, lx₁, h₁, h₂⟩ := bind_eq_ok.1 h
  obtain ⟨c, lx₂, h₃, h₄⟩ := bind_eq_ok.1 h₂
  have hmark := keeps_setMark _ _ _ h₁
  cases c with
  | none =>
    have hnext := weight_next?_none h₃
    have hle := keeps_finish _ _ _ _ _ h₄
    have hlex := lexeme_finish h₄
    exact ⟨by omega, fun hend => by simp [Token.isEnd, hlex] at hend⟩
  | some c =>
    have hnext := weight_next?_some h₃
    have hle := keeps_tokenFrom _ _ _ _ h₄
    exact ⟨by omega, fun _ => by omega⟩

theorem keeps_endToken : Keeps (σ := σ) endToken :=
  keeps_setMark.bind fun _ => keeps_finish _ _

theorem lexeme_endToken {lx lx' : Lexer σ} {t : Token} (h : endToken lx = .ok t lx') :
    t.lexeme = .eof := by
  obtain ⟨u, lx₁, -, h₂⟩ := bind_eq_ok.1 h
  exact lexeme_finish h₂

theorem weight_rawToken {lx lx' : Lexer σ} {t : Token} (h : rawToken lx = .ok t lx') :
    lx'.weight ≤ lx.weight ∧ (t.isEnd = false → lx'.weight < lx.weight) := by
  obtain ⟨u, lx₁, h₁, h₂⟩ := bind_eq_ok.1 h
  obtain ⟨spaced, lx₂, h₃, h₄⟩ := bind_eq_ok.1 h₂
  have hsource := keeps_needSource _ _ _ h₁
  have hblank := weight_skipBlanks h₃
  cases spaced with
  | true =>
    obtain ⟨-, rfl⟩ := pure_eq_ok.1 h₄
    simp at hblank
    exact ⟨by omega, fun _ => by omega⟩
  | false =>
    obtain ⟨hle, hlt⟩ := weight_token h₄
    simp at hblank
    exact ⟨by omega, fun hend => by have := hlt hend; omega⟩

theorem weight_freshToken {lx lx' : Lexer σ} {t : Token} (h : freshToken lx = .ok t lx') :
    lx'.weight ≤ lx.weight ∧ (t.isEnd = false → lx'.weight < lx.weight) := by
  obtain ⟨u, lx₁, h₁, h₂⟩ := bind_eq_ok.1 h
  obtain ⟨startsLine, lx₂, h₃, h₄⟩ := bind_eq_ok.1 h₂
  obtain ⟨spaced, lx₃, h₅, h₆⟩ := bind_eq_ok.1 h₄
  obtain ⟨t', lx₄, h₇, h₈⟩ := bind_eq_ok.1 h₆
  obtain ⟨rfl, rfl⟩ := pure_eq_ok.1 h₈
  have hsource := keeps_needSource _ _ _ h₁
  have hstart := keeps_isAtLineStart _ _ _ h₃
  have hblank := keeps_skipBlanks _ _ _ h₅
  obtain ⟨hle, hlt⟩ := weight_token h₇
  exact ⟨by omega, fun hend => by have := hlt hend; omega⟩

end CLex.Lexer
