import CLex.Lexer.Conditional
import CLex.Proofs.Footing.Basic

namespace CLex

open Character Lexer LexM

/-- Something that was begun was not ended. -/
def Cause.isUnterminated : Cause → Bool
  | .unterminatedComment | .unterminatedString | .unterminatedChar => true
  | _ => false

def Failure.isUnterminated : Failure → Bool
  | .diagnostic d => d.cause.isUnterminated
  | _ => false

variable {σ τ : Type} [CharStream σ] [CharStream τ]

/-- The rules for a relation between operations that do no more than read and put back. -/
structure Reads (R : (α : Type) → LexOn σ α → LexOn τ α → Prop) : Prop where
  rel_pure {α : Type} (a : α) : R α (pure a) (pure a)
  rel_bind {α β : Type} {m : LexOn σ α} {n : LexOn τ α} {f : α → LexOn σ β} {g : α → LexOn τ β}
    (hm : R α m n) (hf : ∀ a, R β (f a) (g a)) : R β (m >>= f) (n >>= g)
  rel_loop {κ ρ : Type} {step : κ → LexOn σ (Round κ ρ)} {step' : κ → LexOn τ (Round κ ρ)}
    {progress : Progress step} {progress' : Progress step'}
    (h : ∀ a, R (Round κ ρ) (step a) (step' a)) (a : κ) :
    R ρ (loop step progress a) (loop step' progress' a)
  rel_next : R (Option UInt8) next? next?
  rel_unread (c : UInt8) : R Unit (unread c) (unread c)

/-- The rules for everything that cannot be left open. -/
structure Rules (R : (α : Type) → LexOn σ α → LexOn τ α → Prop) : Prop extends Reads R where
  rel_throw {α : Type} {f : Failure} (hf : f.isUnterminated = false) : R α (throw f) (throw f)
  rel_here (back : Int) : R Location (here back) (here back)
  rel_warn (location : Location) (text : String) : R Unit (warn location text) (warn location text)
  rel_finish (lexeme : Lexeme) (encoding : Encoding) :
    R Token (finish lexeme encoding) (finish lexeme encoding)

/-- The relation holds of a failure at the mark. -/
def Marks (R : (α : Type) → LexOn σ α → LexOn τ α → Prop) (cause : Cause) : Prop :=
  ∀ α : Type, R α (do throw (.located cause (← marked))) (do throw (.located cause (← marked)))

structure LiteralRules (R : (α : Type) → LexOn σ α → LexOn τ α → Prop) : Prop extends Rules R where
  rel_throw_marked (cause : Cause) : Marks R cause

structure BlankRules (R : (α : Type) → LexOn σ α → LexOn τ α → Prop) : Prop extends Rules R where
  rel_throw_comment {α : Type} (start : Location) :
    R α (throw (.located .unterminatedComment start)) (throw (.located .unterminatedComment start))

/-- The rules with whatever looks at the place of the stream. -/
structure TokenRules (R : (α : Type) → LexOn σ α → LexOn τ α → Prop) : Prop
    extends LiteralRules R, BlankRules R where
  rel_setMark : R Unit setMark setMark
  rel_needSource : R Unit needSource needSource
  rel_isAtLineStart : R Bool isAtLineStart isAtLineStart

variable {R : (α : Type) → LexOn σ α → LexOn τ α → Prop}

namespace Reads

theorem rel_takeIf (h : Reads R) (p : UInt8 → Bool) : R _ (takeIf p) (takeIf p) := by
  refine h.rel_bind h.rel_next fun c => ?_
  cases c with
  | none => exact h.rel_pure _
  | some c =>
      dsimp only
      split
      · exact h.rel_pure _
      · exact h.rel_bind (h.rel_unread c) fun _ => h.rel_pure _

theorem rel_skipIf (h : Reads R) (c : UInt8) : R _ (skipIf c) (skipIf c) := by
  refine h.rel_bind (h.rel_takeIf _) fun d => ?_
  cases d with
  | none => exact h.rel_pure _
  | some d => exact h.rel_pure _

theorem rel_peekIs (h : Reads R) (p : UInt8 → Bool) : R _ (peekIs p) (peekIs p) := by
  refine h.rel_bind h.rel_next fun c => ?_
  cases c with
  | none => exact h.rel_pure _
  | some c => exact h.rel_bind (h.rel_unread c) fun _ => h.rel_pure _

theorem rel_skipLine (h : Reads R) : R _ skipLine skipLine := by
  refine h.rel_loop (fun _ => h.rel_bind h.rel_next fun c => ?_) ()
  cases c with
  | none => exact h.rel_pure _
  | some c =>
      dsimp only
      split
      · exact h.rel_bind (h.rel_unread c) fun _ => h.rel_pure _
      · exact h.rel_pure _

theorem rel_close (h : Reads R) (close : UInt8) :
    R _ (loop (closeRound close) (progress_closeRound close) ())
      (loop (closeRound close) (progress_closeRound close) ()) := by
  refine h.rel_loop (fun _ => h.rel_bind h.rel_next fun c => ?_) ()
  cases c with
  | none => exact h.rel_pure _
  | some c =>
      dsimp only
      split
      · exact h.rel_pure _
      · exact h.rel_pure _

theorem rel_skipCharLiteral (h : Reads R) : R _ skipCharLiteral skipCharLiteral := by
  refine h.rel_bind h.rel_next fun first => ?_
  split
  · exact h.rel_bind h.rel_next fun _ => h.rel_close _
  · exact h.rel_close _

theorem rel_skipStringLiteral (h : Reads R) : R _ skipStringLiteral skipStringLiteral := by
  refine h.rel_loop (fun _ => h.rel_bind h.rel_next fun c => ?_) ()
  cases c with
  | none => exact h.rel_pure _
  | some c =>
      dsimp only
      split
      · exact h.rel_pure _
      · split
        · exact h.rel_bind h.rel_next fun _ => h.rel_pure _
        · exact h.rel_pure _

end Reads

namespace BlankRules

theorem rel_skipComment (h : BlankRules R) : R _ skipComment skipComment := by
  refine h.rel_bind (h.rel_here 2) fun start => h.rel_loop (fun star => ?_) false
  refine h.rel_bind h.rel_next fun c => ?_
  cases c with
  | none => exact h.rel_throw_comment _
  | some c =>
      dsimp only
      split
      · exact h.rel_pure _
      · exact h.rel_pure _

theorem rel_skipBlank (h : BlankRules R) : R _ skipBlank skipBlank := by
  refine h.rel_bind h.rel_next fun c => ?_
  cases c with
  | none => exact h.rel_pure _
  | some c =>
      have hput : R _ (do Lexer.unread c; pure false) (do Lexer.unread c; pure false) :=
        h.rel_bind (h.rel_unread c) fun _ => h.rel_pure _
      dsimp only
      split
      · exact h.rel_pure _
      · split
        · refine h.rel_bind (h.rel_skipIf _) fun star => ?_
          split
          · exact h.rel_bind h.rel_skipComment fun _ => h.rel_pure _
          · refine h.rel_bind (h.rel_skipIf _) fun slash => ?_
            split
            · exact h.rel_bind h.rel_skipLine fun _ => h.rel_pure _
            · exact hput
        · exact hput

theorem rel_skipBlanks (h : BlankRules R) : R _ skipBlanks skipBlanks := by
  refine h.rel_loop (fun _ => h.rel_bind h.rel_skipBlank fun skipped => ?_) false
  split
  · exact h.rel_pure _
  · exact h.rel_pure _

end BlankRules

namespace Rules

theorem rel_universalBytes (h : Rules R) (code : Nat) :
    R _ (universalBytes code) (universalBytes code) := by
  unfold universalBytes utf8Bytes
  rw [if_neg (by omega)]
  cases Utf8.encode? (code : Int).toNat with
  | none => exact h.rel_throw rfl
  | some bytes => exact h.rel_pure _

theorem rel_octalDigits (h : Rules R) (count value : Nat) :
    R _ (octalDigits count value) (octalDigits count value) := by
  induction count generalizing value with
  | zero => exact h.rel_pure _
  | succ count ih =>
      refine h.rel_bind (h.rel_takeIf _) fun d => ?_
      cases d with
      | none => exact h.rel_pure _
      | some d => exact ih _

theorem rel_hexDigits (h : Rules R) : R _ hexDigits hexDigits := by
  refine h.rel_bind (h.rel_here 2) fun start => h.rel_bind h.rel_next fun d => ?_
  cases d with
  | none => exact h.rel_throw rfl
  | some d =>
      dsimp only
      split
      · exact h.rel_throw rfl
      · refine h.rel_loop (fun value => h.rel_bind (h.rel_takeIf _) fun e => ?_) _
        cases e with
        | none => exact h.rel_pure _
        | some e => exact h.rel_pure _

theorem rel_universalDigits (h : Rules R) (start : Location) (count value : Nat) :
    R _ (universalDigits start count value) (universalDigits start count value) := by
  induction count generalizing value with
  | zero => exact h.rel_pure _
  | succ count ih =>
      refine h.rel_bind h.rel_next fun d => ?_
      cases d with
      | none => exact h.rel_throw rfl
      | some d =>
          dsimp only
          split
          · exact h.rel_throw rfl
          · exact ih _

theorem rel_universalName (h : Rules R) (mark : Char) (count : Nat) :
    R _ (universalName mark count) (universalName mark count) := by
  refine h.rel_bind (h.rel_here 2) fun start => ?_
  refine h.rel_bind (h.rel_universalDigits start count 0) fun code => ?_
  split
  · exact h.rel_pure _
  · exact h.rel_throw rfl

theorem rel_escapeFrom (h : Rules R) (start : Location) (c : UInt8) :
    R _ (escapeFrom start c) (escapeFrom start c) := by
  unfold escapeFrom
  split
  · exact h.rel_pure _
  · split
    · exact h.rel_hexDigits
    · split
      · exact h.rel_universalName _ _
      · split
        · exact h.rel_universalName _ _
        · split
          · exact h.rel_octalDigits _ _
          · exact h.rel_bind (h.rel_warn _ _) fun _ => h.rel_pure _

theorem rel_escape (h : Rules R) : R _ escape escape := by
  refine h.rel_bind (h.rel_here 1) fun start => h.rel_bind h.rel_next fun c => ?_
  cases c with
  | none => exact h.rel_bind (h.rel_warn _ _) fun _ => h.rel_pure _
  | some c => exact h.rel_escapeFrom start c

theorem rel_identRound (h : Rules R) (bytes : List UInt8) :
    R _ (identRound bytes) (identRound bytes) := by
  refine h.rel_bind h.rel_next fun c => ?_
  cases c with
  | none => exact h.rel_pure _
  | some c =>
      dsimp only
      split
      · exact h.rel_pure _
      · split
        · refine h.rel_bind (h.rel_peekIs _) fun named => ?_
          split
          · refine h.rel_bind h.rel_escape fun code => ?_
            exact h.rel_bind (h.rel_universalBytes code) fun _ => h.rel_pure _
          · exact h.rel_bind (h.rel_unread c) fun _ => h.rel_pure _
        · exact h.rel_bind (h.rel_unread c) fun _ => h.rel_pure _

theorem rel_ident (h : Rules R) (first : UInt8) : R _ (ident first) (ident first) :=
  h.rel_bind (h.rel_loop h.rel_identRound [first]) fun _ => h.rel_finish _ _

theorem rel_numberRound (h : Rules R) (chars : UInt8 × List UInt8) :
    R _ (numberRound chars) (numberRound chars) := by
  refine h.rel_bind (h.rel_takeIf _) fun c => ?_
  cases c with
  | none => exact h.rel_pure _
  | some c => exact h.rel_pure _

theorem rel_number (h : Rules R) (first : UInt8) : R _ (number first) (number first) :=
  h.rel_bind (h.rel_loop h.rel_numberRound (first, [])) fun _ => h.rel_finish _ _

theorem rel_branch (h : Rules R) (b : Branch) : R _ b.run b.run := by
  induction b with
  | found p => exact h.rel_pure p
  | next c taken other htaken hother =>
      refine h.rel_bind (h.rel_skipIf c) fun follows => ?_
      split
      · exact htaken
      · exact hother
  | pair c d taken other =>
      refine h.rel_bind (h.rel_skipIf c) fun first => ?_
      split
      · refine h.rel_bind (h.rel_skipIf d) fun second => ?_
        split
        · exact h.rel_pure _
        · exact h.rel_bind (h.rel_unread c) fun _ => h.rel_pure _
      · exact h.rel_pure _

theorem rel_operator (h : Rules R) (c : UInt8) : R _ (operator c) (operator c) := by
  rw [operator_eq, operator_eq]
  cases Branch.of? c with
  | some b => exact h.rel_bind (h.rel_branch b) fun _ => h.rel_finish _ _
  | none => exact h.rel_finish _ _

theorem rel_dots (h : Rules R) (c : UInt8) : R _ (dots c) (dots c) := by
  refine h.rel_bind (h.rel_peekIs _) fun digit => ?_
  split
  · exact h.rel_number c
  · refine h.rel_bind (h.rel_skipIf _) fun second => ?_
    split
    · refine h.rel_bind (h.rel_skipIf _) fun third => ?_
      split
      · exact h.rel_finish _ _
      · exact h.rel_finish _ _
    · exact h.rel_finish _ _

end Rules

theorem leads_loop_invariant {κ ρ : Type} {step : κ → LexOn σ (Round κ ρ)}
    {progress : Progress step} {E : Failure → Lexer σ → Prop} {I : Lexer σ → Prop}
    (h : ∀ a, Leads E I (step a) fun _ => I) (a : κ) : Leads E I (loop step progress a) fun _ => I :=
  leads_loop (fun b => (h b).post fun r _ hr => by cases r <;> exact hr) a

theorem Reads.ofInvariant {E : Failure → Lexer σ → Prop} {I : Lexer σ → Prop}
    (next : Leads E I next? fun _ => I) (unread : ∀ c, Leads E I (unread c) fun _ => I) :
    Reads fun _ (m _ : LexOn σ _) => Leads E I m fun _ => I where
  rel_pure := fun _ => leads_pure fun _ h => h
  rel_bind := leads_bind
  rel_loop := leads_loop_invariant
  rel_next := next
  rel_unread := unread

/-- An invariant of the elementary operations is an invariant of all others. -/
theorem Rules.ofInvariant {E : Failure → Lexer σ → Prop} {I : Lexer σ → Prop}
    (throws : ∀ f lx, f.isUnterminated = false → I lx → E f lx)
    (next : Leads E I next? fun _ => I) (unread : ∀ c, Leads E I (unread c) fun _ => I)
    (warn : ∀ location text, Leads E I (warn location text) fun _ => I)
    (finish : ∀ lexeme encoding, Leads E I (finish lexeme encoding) fun _ => I) :
    Rules fun _ (m _ : LexOn σ _) => Leads E I m fun _ => I where
  toReads := .ofInvariant next unread
  rel_throw := fun hf => leads_throw fun lx h => throws _ lx hf h
  rel_here := fun back => leads_here back
  rel_warn := warn
  rel_finish := finish

namespace Rules

theorem rel_stringRound (h : Rules R) (hopen : Marks R .unterminatedString) (bytes : List UInt8) :
    R _ (stringRound bytes) (stringRound bytes) := by
  refine h.rel_bind h.rel_next fun c => ?_
  cases c with
  | none => exact hopen _
  | some c =>
      dsimp only
      split
      · exact h.rel_pure _
      · split
        · refine h.rel_bind (h.rel_peekIs _) fun named => ?_
          refine h.rel_bind h.rel_escape fun value => ?_
          split
          · exact h.rel_bind (h.rel_universalBytes value) fun _ => h.rel_pure _
          · exact h.rel_pure _
        · exact h.rel_pure _

theorem rel_stringLiteral (h : Rules R) (hopen : Marks R .unterminatedString)
    (encoding : Encoding) : R _ (stringLiteral encoding) (stringLiteral encoding) :=
  h.rel_bind (h.rel_loop (h.rel_stringRound hopen) []) fun _ => h.rel_finish _ _

theorem rel_literalValue (h : Rules R) (c : UInt8) : R _ (literalValue c) (literalValue c) := by
  unfold literalValue
  split
  · exact h.rel_escape
  · exact h.rel_pure _

theorem rel_charLiteral (h : Rules R) (hopen : Marks R .unterminatedChar) (encoding : Encoding) :
    R _ (charLiteral encoding) (charLiteral encoding) := by
  refine h.rel_bind h.rel_next fun c => ?_
  cases c with
  | none => exact hopen _
  | some c =>
      refine h.rel_bind (h.rel_literalValue c) fun value => h.rel_bind h.rel_next fun d => ?_
      split
      · exact h.rel_finish _ _
      · exact hopen _

end Rules

namespace LiteralRules

theorem rel_literalOrIdent (h : LiteralRules R) (c : UInt8) (encoding : Encoding) :
    R _ (literalOrIdent c encoding) (literalOrIdent c encoding) := by
  refine h.rel_bind (h.rel_skipIf _) fun quote => ?_
  split
  · exact h.rel_stringLiteral (h.rel_throw_marked _) _
  · refine h.rel_bind (h.rel_skipIf _) fun quote => ?_
    split
    · exact h.rel_charLiteral (h.rel_throw_marked _) _
    · split
      · refine h.rel_bind (h.rel_skipIf _) fun eight => ?_
        split
        · refine h.rel_bind (h.rel_skipIf _) fun quote => ?_
          split
          · exact h.rel_stringLiteral (h.rel_throw_marked _) _
          · exact h.rel_bind (h.rel_unread _) fun _ => h.rel_ident c
        · exact h.rel_ident c
      · exact h.rel_ident c

theorem rel_tokenFrom (h : LiteralRules R) (c : UInt8) : R _ (tokenFrom c) (tokenFrom c) := by
  unfold tokenFrom
  split
  · exact h.rel_finish _ _
  · split
    · exact h.rel_literalOrIdent c _
    · split
      · exact h.rel_ident c
      · split
        · exact h.rel_number c
        · split
          · exact h.rel_stringLiteral (h.rel_throw_marked _) _
          · split
            · exact h.rel_charLiteral (h.rel_throw_marked _) _
            · split
              · exact h.rel_dots c
              · exact h.rel_operator c

end LiteralRules

namespace TokenRules

theorem rel_token (h : TokenRules R) : R _ token token := by
  refine h.rel_bind h.rel_setMark fun _ => h.rel_bind h.rel_next fun c => ?_
  cases c with
  | none => exact h.rel_finish _ _
  | some c => exact h.rel_tokenFrom c

theorem rel_rawToken (h : TokenRules R) : R _ rawToken rawToken := by
  refine h.rel_bind h.rel_needSource fun _ => h.rel_bind h.rel_skipBlanks fun spaced => ?_
  split
  · exact h.rel_pure _
  · exact h.rel_token

theorem rel_endToken (h : TokenRules R) : R _ endToken endToken :=
  h.rel_bind h.rel_setMark fun _ => h.rel_finish _ _

theorem rel_freshToken (h : TokenRules R) : R _ freshToken freshToken := by
  refine h.rel_bind h.rel_needSource fun _ => ?_
  refine h.rel_bind h.rel_isAtLineStart fun startsLine => ?_
  refine h.rel_bind h.rel_skipBlanks fun spaced => h.rel_bind h.rel_token fun t => ?_
  exact h.rel_pure _

end TokenRules

end CLex
