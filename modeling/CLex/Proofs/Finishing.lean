import CLex.Proofs.Composition

namespace CLex

open Character Lexer LexM

/-- What is kept up to the last step of a token, and what that step makes of it. -/
structure Ending {σ : Type} [CharStream σ] (I : Lexer σ → Prop) (Q : Token → Lexer σ → Prop) :
    Prop where
  next : Leads (fun _ => I) I next? fun _ => I
  unread (c : UInt8) : Leads (fun _ => I) I (unread c) fun _ => I
  warn (location : Location) (text : String) : Leads (fun _ => I) I (warn location text) fun _ => I
  finish (lexeme : Lexeme) (encoding : Encoding) : Leads (fun _ => I) I (finish lexeme encoding) Q
  keeps {t : Token} {lx : Lexer σ} (h : Q t lx) : I lx

namespace Ending

variable {σ : Type} [CharStream σ] {I : Lexer σ → Prop} {Q : Token → Lexer σ → Prop}

theorem rules (h : Ending I Q) :
    Rules fun _ (m _ : LexOn σ _) => Leads (fun _ => I) I m fun _ => I :=
  .ofInvariant (fun _ _ _ hI => hI) h.next h.unread h.warn
    fun lexeme encoding => (h.finish lexeme encoding).post fun _ _ => h.keeps

theorem blankRules (h : Ending I Q) :
    BlankRules fun _ (m _ : LexOn σ _) => Leads (fun _ => I) I m fun _ => I where
  toRules := h.rules
  rel_throw_comment := fun _ => leads_throw fun _ hI => hI

theorem leads_throw_marked {α : Type} {R : α → Lexer σ → Prop} (cause : Cause) :
    Leads (fun _ => I) I (do throw (.located cause (← marked))) R :=
  leads_bind leads_marked fun _ => leads_throw fun _ hI => hI

theorem marks (cause : Cause) :
    Marks (fun _ (m _ : LexOn σ _) => Leads (fun _ => I) I m fun _ => I) cause :=
  fun _ => leads_throw_marked cause

theorem leads_ident (h : Ending I Q) (first : UInt8) : Leads (fun _ => I) I (ident first) Q :=
  leads_bind (leads_loop_invariant h.rules.rel_identRound [first]) fun _ => h.finish _ _

theorem leads_number (h : Ending I Q) (first : UInt8) : Leads (fun _ => I) I (number first) Q :=
  leads_bind (leads_loop_invariant h.rules.rel_numberRound (first, [])) fun _ => h.finish _ _

theorem leads_stringLiteral (h : Ending I Q) (encoding : Encoding) :
    Leads (fun _ => I) I (stringLiteral encoding) Q :=
  leads_bind (leads_loop_invariant (h.rules.rel_stringRound (marks _)) []) fun _ => h.finish _ _

theorem leads_charLiteral (h : Ending I Q) (encoding : Encoding) :
    Leads (fun _ => I) I (charLiteral encoding) Q := by
  refine leads_bind h.next fun c => ?_
  cases c with
  | none => exact leads_throw_marked _
  | some c =>
      refine leads_bind (h.rules.rel_literalValue c) fun value => leads_bind h.next fun d => ?_
      split
      · exact h.finish _ _
      · exact leads_throw_marked _

theorem leads_operator (h : Ending I Q) (c : UInt8) : Leads (fun _ => I) I (operator c) Q := by
  rw [operator_eq]
  cases Branch.of? c with
  | some b => exact leads_bind (h.rules.rel_branch b) fun _ => h.finish _ _
  | none => exact h.finish _ _

theorem leads_dots (h : Ending I Q) (c : UInt8) : Leads (fun _ => I) I (dots c) Q := by
  refine leads_bind (h.rules.rel_peekIs _) fun digit => ?_
  split
  · exact h.leads_number c
  · refine leads_bind (h.rules.rel_skipIf _) fun second => ?_
    split
    · refine leads_bind (h.rules.rel_skipIf _) fun third => ?_
      split
      · exact h.finish _ _
      · exact h.finish _ _
    · exact h.finish _ _

theorem leads_literalOrIdent (h : Ending I Q) (c : UInt8) (encoding : Encoding) :
    Leads (fun _ => I) I (literalOrIdent c encoding) Q := by
  refine leads_bind (h.rules.rel_skipIf _) fun quote => ?_
  split
  · exact h.leads_stringLiteral _
  · refine leads_bind (h.rules.rel_skipIf _) fun quote => ?_
    split
    · exact h.leads_charLiteral _
    · split
      · refine leads_bind (h.rules.rel_skipIf _) fun eight => ?_
        split
        · refine leads_bind (h.rules.rel_skipIf _) fun quote => ?_
          split
          · exact h.leads_stringLiteral _
          · exact leads_bind (h.unread _) fun _ => h.leads_ident c
        · exact h.leads_ident c
      · exact h.leads_ident c

theorem leads_tokenFrom (h : Ending I Q) (c : UInt8) : Leads (fun _ => I) I (tokenFrom c) Q := by
  unfold tokenFrom
  split
  · exact h.finish _ _
  · split
    · exact h.leads_literalOrIdent c _
    · split
      · exact h.leads_ident c
      · split
        · exact h.leads_number c
        · split
          · exact h.leads_stringLiteral _
          · split
            · exact h.leads_charLiteral _
            · split
              · exact h.leads_dots c
              · exact h.leads_operator c

theorem leads_marked_token (h : Ending I Q) :
    Leads (fun _ => I) I
      (do
        match ← next? with
        | none => Lexer.finish .eof
        | some c => tokenFrom c) Q := by
  refine leads_bind h.next fun c => ?_
  cases c with
  | none => exact h.finish _ _
  | some c => exact h.leads_tokenFrom c

end Ending

end CLex
