import CLex.Lexer.Pending

/-!
Passing over a group of lines that a conditional directive excludes. The lines are not made into
tokens; only directives at the start of a line count, and conditionals inside the group are
balanced. The group ends before the `#else`, `#elif` or `#endif` that belongs to it.
-/

namespace CLex.Lexer

variable {σ : Type} [CharStream σ]

open LexM Character

def closeRound (close : UInt8) (_ : Unit) : LexOn σ (Round Unit Unit) := do
  match ← next? with
  | none => pure (.done ())
  | some c => if c = close then pure (.done ()) else pure (.again ())

theorem progress_closeRound (close : UInt8) : Progress (σ := σ) (closeRound close) := by
  intro a lx b lx' h
  obtain ⟨d, lx₁, h₁, h₂⟩ := bind_eq_ok.1 h
  cases d with
  | none => simp [pure_eq_ok] at h₂
  | some d =>
    simp only at h₂
    split at h₂
    · simp [pure_eq_ok] at h₂
    · obtain ⟨-, rfl⟩ := pure_eq_ok.1 h₂
      exact weight_next?_some h₁

/-- Passes over a character literal whose opening quote has been read. -/
def skipCharLiteral : LexOn σ Unit := do
  let first ← next?
  if first = some backslash then do
    let _ ← next?
    loop (closeRound singleQuote) (progress_closeRound singleQuote) ()
  else loop (closeRound singleQuote) (progress_closeRound singleQuote) ()

def quoteRound (_ : Unit) : LexOn σ (Round Unit Unit) := do
  match ← next? with
  | none => pure (.done ())
  | some c =>
    if c = doubleQuote then pure (.done ())
    else if c = backslash then do
      let _ ← next?
      pure (.again ())
    else pure (.again ())

theorem weight_quoteRound {lx lx' : Lexer σ} {a : Unit} {r : Round Unit Unit}
    (h : quoteRound a lx = .ok r lx') :
    lx'.weight ≤ lx.weight ∧ ∀ b, r = .again b → lx'.weight < lx.weight := by
  obtain ⟨d, lx₁, h₁, h₂⟩ := bind_eq_ok.1 h
  cases d with
  | none =>
    obtain ⟨rfl, rfl⟩ := pure_eq_ok.1 h₂
    exact ⟨weight_next?_none h₁, by simp⟩
  | some d =>
    have hlt := weight_next?_some h₁
    have keeps : lx'.weight ≤ lx₁.weight := by
      refine (?_ : Keeps _) _ _ _ h₂
      simp only
      split
      · exact keeps_pure _
      · split
        · exact keeps_next?.bind fun _ => keeps_pure _
        · exact keeps_pure _
    exact ⟨by omega, fun _ _ => by omega⟩

theorem progress_quoteRound : Progress (σ := σ) quoteRound :=
  fun _ _ b _ h => (weight_quoteRound h).2 b rfl

/-- Passes over a string literal whose opening quote has been read. -/
def skipStringLiteral : LexOn σ Unit :=
  loop quoteRound progress_quoteRound ()

theorem keeps_close (close : UInt8) :
    Keeps (σ := σ) (loop (closeRound close) (progress_closeRound close) ()) := by
  refine keeps_loop (fun _ => keeps_next?.bind fun d => ?_) ()
  cases d with
  | none => exact keeps_pure _
  | some d =>
    simp only
    split <;> exact keeps_pure _

theorem keeps_skipCharLiteral : Keeps (σ := σ) skipCharLiteral := by
  refine keeps_next?.bind fun first => ?_
  split
  · exact keeps_next?.bind fun _ => keeps_close _
  · exact keeps_close _

theorem keeps_skipStringLiteral : Keeps (σ := σ) skipStringLiteral :=
  keeps_loop (fun _ _ _ _ h => (weight_quoteRound h).1) ()

def opens (name : String) : Bool :=
  name == "if" || name == "ifdef" || name == "ifndef"

def divides (name : String) : Bool :=
  name == "else" || name == "elif" || name == "endif"

/-- The depth after a directive that does not end the group. -/
def depthAfter (name : String) (depth : Nat) : Nat :=
  if opens name then depth + 1 else if name = "endif" then depth - 1 else depth

/-- What is known of a `#` that has been read: its place, and the number that its source would give
the next token while it was the active one of `depth` sources. -/
structure HashMark where
  place : Location
  number : Nat
  depth : Nat

/-- The `#` before the next character. -/
def hashMark? (s : σ) : Option HashMark :=
  (CharStream.place? s).map fun place =>
    ⟨place.back 1, (CharStream.draw s).1, CharStream.depth s⟩

/-- Makes the token of a `#`. Its number is the next one of its source, also if the source has been
dropped since. -/
def hashToken (hash : HashMark) : LexOn σ Token := fun lx =>
  let token (index : Nat) : Token :=
    { lexeme := .punctuator .hash, file := some hash.place.file, line := hash.place.line,
      column := hash.place.column, index, startsLine := true }
  if CharStream.depth lx.stream = hash.depth then
    let r := CharStream.draw lx.stream
    .ok (token r.1) { lx with stream := r.2 }
  else .ok (token hash.number) lx

/-- Looks at the directive whose `#` has been read. The one that ends the group is put back. -/
def directive (hash : HashMark) (depth : Nat) : LexOn σ (Round Nat Unit) := do
  let t ← nextToken
  match t.lexeme with
  | .ident name =>
    if depth = 0 ∧ divides name then do
      pushBack t
      pushBack (← hashToken hash)
      pure (.done ())
    else do
      skipLine
      pure (.again (depthAfter name depth))
  | _ => pure (.again depth)

/-- Passes over what begins with the character `c`: a literal, a directive at the start of a line, or
the character alone. -/
def groupFrom (startsLine : Bool) (depth : Nat) (c : UInt8) : LexOn σ (Round Nat Unit) :=
  if c = singleQuote then do
    skipCharLiteral
    pure (.again depth)
  else if c = doubleQuote then do
    skipStringLiteral
    pure (.again depth)
  else if c = byte '#' ∧ startsLine then do
    match hashMark? (← get).stream with
    | none => pure (.done ())
    | some hash => directive hash depth
  else pure (.again depth)

/-- The state is the number of conditionals that are open inside the group. -/
def groupRound (depth : Nat) : LexOn σ (Round Nat Unit) := do
  let startsLine ← isAtLineStart
  let _ ← skipBlanks
  match ← next? with
  | none => pure (.done ())
  | some c => groupFrom startsLine depth c

theorem weight_directive {hash : HashMark} {depth : Nat} {lx lx' : Lexer σ} {b : Nat}
    (h : directive hash depth lx = .ok (.again b) lx') : lx'.weight ≤ lx.weight := by
  obtain ⟨t, lx₁, h₁, h₂⟩ := bind_eq_ok.1 h
  have hle := keeps_nextToken _ _ _ h₁
  cases hlex : t.lexeme with
  | ident name =>
    simp only [hlex] at h₂
    split at h₂
    · obtain ⟨_, lx₂, -, h₃⟩ := bind_eq_ok.1 h₂
      obtain ⟨_, lx₃, -, h₄⟩ := bind_eq_ok.1 h₃
      obtain ⟨_, lx₄, -, h₅⟩ := bind_eq_ok.1 h₄
      simp [pure_eq_ok] at h₅
    · have := (keeps_skipLine.bind fun _ => keeps_pure _) _ _ _ h₂
      omega
  | _ =>
    simp only [hlex] at h₂
    obtain ⟨-, rfl⟩ := pure_eq_ok.1 h₂
    exact hle

omit [CharStream σ] in
theorem get_eq_ok {lx lx' lx₁ : Lexer σ} :
    (get : LexOn σ (Lexer σ)) lx = .ok lx₁ lx' ↔ lx = lx₁ ∧ lx = lx' := by
  change EStateM.Result.ok lx lx = _ ↔ _
  rw [EStateM.Result.ok.injEq]

theorem weight_groupFrom {startsLine : Bool} {depth : Nat} {c : UInt8} {lx lx' : Lexer σ} {b : Nat}
    (h : groupFrom startsLine depth c lx = .ok (.again b) lx') : lx'.weight ≤ lx.weight := by
  unfold groupFrom at h
  split at h
  · exact (keeps_skipCharLiteral.bind fun _ => keeps_pure _) _ _ _ h
  · split at h
    · exact (keeps_skipStringLiteral.bind fun _ => keeps_pure _) _ _ _ h
    · split at h
      · obtain ⟨lx₁, lx₂, h₁, h₂⟩ := bind_eq_ok.1 h
        obtain ⟨rfl, rfl⟩ := get_eq_ok.1 h₁
        cases hf : hashMark? lx.stream with
        | none => simp [hf, pure_eq_ok] at h₂
        | some hash =>
          simp only [hf] at h₂
          exact weight_directive h₂
      · obtain ⟨-, rfl⟩ := pure_eq_ok.1 h
        exact Nat.le_refl _

theorem progress_groupRound : Progress (σ := σ) groupRound := by
  intro depth lx b lx' h
  obtain ⟨startsLine, lx₁, h₁, h₂⟩ := bind_eq_ok.1 h
  obtain ⟨spaced, lx₂, h₃, h₄⟩ := bind_eq_ok.1 h₂
  obtain ⟨c, lx₃, h₅, h₆⟩ := bind_eq_ok.1 h₄
  have hstart := keeps_isAtLineStart _ _ _ h₁
  have hblank := keeps_skipBlanks _ _ _ h₃
  cases c with
  | none => simp [pure_eq_ok] at h₆
  | some c =>
    have hlt := weight_next?_some h₅
    have hle := weight_groupFrom h₆
    omega

def skipGroup : LexOn σ Unit := do
  needSource
  loop groupRound progress_groupRound 0

end CLex.Lexer
