import CLex.Lexer.Escape

namespace CLex.Lexer

variable {σ : Type} [CharStream σ]

open LexM Character

/-- The state is the bytes of the literal so far, the last one first. -/
def stringRound (bytes : List UInt8) : LexOn σ (Round (List UInt8) (List UInt8)) := do
  match ← next? with
  | none => throw (.located .unterminatedString (← marked))
  | some c =>
    if c = doubleQuote then pure (.done bytes.reverse)
    else if c = backslash then do
      let named ← peekIs fun c => isUniversalMark c.toNat
      let value ← escape
      if named then do
        let units ← universalBytes value
        pure (.again (units.reverse ++ bytes))
      else pure (.again (UInt8.ofNat value :: bytes))
    else pure (.again (c :: bytes))

theorem weight_stringRound {bytes : List UInt8} {lx lx' : Lexer σ}
    {r : Round (List UInt8) (List UInt8)} (h : stringRound bytes lx = .ok r lx') :
    lx'.weight < lx.weight := by
  obtain ⟨d, lx₁, h₁, h₂⟩ := bind_eq_ok.1 h
  cases d with
  | none =>
    obtain ⟨l, lx₂, -, h₃⟩ := bind_eq_ok.1 h₂
    exact absurd h₃ throw_ne_ok
  | some d =>
    refine Nat.lt_of_le_of_lt ?_ (weight_next?_some h₁)
    refine (?_ : Keeps _) _ _ _ h₂
    simp only
    split
    · exact keeps_pure _
    · split
      · refine (keeps_peekIs _).bind fun named => keeps_escape.bind fun value => ?_
        split
        · exact (keeps_universalBytes _).bind fun _ => keeps_pure _
        · exact keeps_pure _
      · exact keeps_pure _

theorem progress_stringRound : Progress (σ := σ) stringRound :=
  fun _ _ _ _ h => weight_stringRound h

/-- The string literal whose opening quote has been read. A universal character name is kept as
UTF-8, and any other character or escape as one byte. -/
def stringLiteral (encoding : Encoding) : LexOn σ Token := do
  let bytes ← loop stringRound progress_stringRound []
  finish (.string bytes) encoding

/-- The value of a character literal without a mark: that of a signed byte. -/
def plainValue (value : Nat) : Int :=
  Int.bmod value 0x100

/-- The value of the character `c` of a literal, or of the escape sequence that it begins. -/
def literalValue (c : UInt8) : LexOn σ Nat :=
  if c = backslash then escape else pure c.toNat

/-- The character literal whose opening quote has been read. -/
def charLiteral (encoding : Encoding) : LexOn σ Token := do
  match ← next? with
  | none => throw (.located .unterminatedChar (← marked))
  | some c => do
    let value ← literalValue c
    if (← next?) = some singleQuote then
      finish (.char (if encoding = .plain then plainValue value else value)) encoding
    else throw (.located .unterminatedChar (← marked))

theorem keeps_stringLiteral (encoding : Encoding) : Keeps (σ := σ) (stringLiteral encoding) :=
  (keeps_loop (fun _ _ _ _ h => Nat.le_of_lt (weight_stringRound h)) []).bind
    fun _ => keeps_finish _ _

theorem keeps_charLiteral (encoding : Encoding) : Keeps (σ := σ) (charLiteral encoding) := by
  refine keeps_next?.bind fun d => ?_
  cases d with
  | none => exact keeps_marked.bind fun _ => keeps_throw _
  | some d =>
    refine Keeps.bind ?_ fun value => keeps_next?.bind fun e => ?_
    · unfold literalValue
      split
      · exact keeps_escape
      · exact keeps_pure _
    · split
      · exact keeps_finish _ _
      · exact keeps_marked.bind fun _ => keeps_throw _

end CLex.Lexer
