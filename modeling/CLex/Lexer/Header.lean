import CLex.Lexer.Pending
import CLex.Text.Utf8

namespace CLex

structure HeaderName where
  name : String
  system : Bool
  deriving DecidableEq, Repr

namespace Lexer

variable {σ : Type} [CharStream σ]

open LexM Character

/-- The state is the bytes of the name so far, the last one first. -/
def headerRound (start : Location) (close : UInt8) (bytes : List UInt8) :
    LexOn σ (Round (List UInt8) (List UInt8)) := do
  if ← skipIf close then pure (.done bytes.reverse)
  else
    match ← next? with
    | none => throw (.located .unterminatedHeader start)
    | some c =>
      if c = newline then throw (.located .unterminatedHeader start)
      else pure (.again (c :: bytes))

theorem progress_headerRound (start : Location) (close : UInt8) :
    Progress (σ := σ) (headerRound start close) := by
  intro bytes lx b lx' h
  obtain ⟨closed, lx₁, h₁, h₂⟩ := bind_eq_ok.1 h
  have hle := keeps_skipIf _ _ _ _ h₁
  split at h₂
  · simp [pure_eq_ok] at h₂
  · obtain ⟨d, lx₂, h₃, h₄⟩ := bind_eq_ok.1 h₂
    cases d with
    | none => exact absurd h₄ throw_ne_ok
    | some d =>
      have hlt := weight_next?_some h₃
      simp only at h₄
      split at h₄
      · exact absurd h₄ throw_ne_ok
      · obtain ⟨-, rfl⟩ := pure_eq_ok.1 h₄
        omega

/-- The name up to the delimiter `close`. -/
def headerUpTo (start : Location) (close : UInt8) (system : Bool) : LexOn σ (Option HeaderName) := do
  let bytes ← loop (headerRound start close) (progress_headerRound start close) []
  if bytes = [] then throw (.located .emptyHeader start)
  else pure (some ⟨Utf8.decode bytes, system⟩)

/-- The header name that comes next. There is none while tokens are pending, or if the input goes on
with something else; blanks and comments are passed over all the same. -/
def headerName? : LexOn σ (Option HeaderName) := do
  if (← get).pending = [[]] then do
    needSource
    let _ ← skipBlanks
    let start ← here
    if ← skipIf doubleQuote then headerUpTo start doubleQuote false
    else if ← skipIf (byte '<') then headerUpTo start (byte '>') true
    else pure none
  else pure none

end Lexer

end CLex
