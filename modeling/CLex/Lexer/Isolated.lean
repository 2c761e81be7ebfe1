import CLex.Lexer.Fresh

namespace CLex.Lexer

open LexM Character

/-- The raw token that a text consists of. A newline may follow it and nothing else. -/
def wholeToken (shown : String) : LexM Token := do
  let t ← rawToken
  let _ ← skipIf newline
  let rest ← here
  if ← peekIs fun _ => true then throw (.located (.unconsumed shown) rest)
  else pure t

/-- The stack that was set aside comes back, whatever was left of the text. -/
def restore (lx : Lexer) : Lexer :=
  match lx.stream.unstash? with
  | some stream => { lx with stream }
  | none => lx

/-- The one token of the text with the given bytes. The sources are set aside while it is read and
come back on success and on failure. -/
def tokenOfText (bytes : List UInt8) (shown : String) : LexM Token := fun lx =>
  let apart := { lx with stream := lx.stream.stash (.ofBytes "(string)" bytes) }
  match wholeToken shown apart with
  | .ok t lx' => .ok t (restore lx')
  | .error f lx' => .error f (restore lx')

end CLex.Lexer
