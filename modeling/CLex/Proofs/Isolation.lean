import CLex.Lexer.Isolated
import CLex.Proofs.Composition
import CLex.Proofs.Interchange

namespace CLex

open Character Lexer LexM

namespace Isolation

/-- A single source in memory is read, and the rest of the input is set aside as it is in `main`. -/
structure Apart (main lx : Lexer) : Prop where
  single : ∃ source, lx.stream.files = [source] ∧ source.input.origin = none
  stashed : lx.stream.stashed = main.stream.files :: main.stream.stashed
  console : lx.stream.console = main.stream.console
  pending : lx.pending = main.pending

variable {main lx : Lexer} {α : Type}

theorem settle_memory {source : Source} (h : source.input.origin = none) (bytes : List UInt8) :
    source.settle bytes = (source, bytes) := by
  rcases source with ⟨name, input, last, line, column, pushback, tokens⟩
  cases input with
  | memory behind ahead => rfl
  | handle shared held ahead => cases h

theorem Apart.next (h : Apart main lx) :
    Apart main { lx with stream := (CharStream.read lx.stream).2 } := by
  rcases h.single with ⟨source, hfiles, horigin⟩
  have hread : CharStream.read lx.stream = lx.stream.readChar := Stream.readAcross_single hfiles
  have hread' : ((source.lend lx.stream.console).readChar.2).input.origin = none := by
    rw [Source.origin_readChar, Source.origin_lend, horigin]
  rw [hread, Stream.readChar, hfiles]
  dsimp only
  rw [settle_memory hread']
  exact ⟨⟨_, rfl, hread'⟩, h.stashed, h.console, h.pending⟩

theorem Apart.unread (h : Apart main lx) {c : UInt8} {stream : Stream}
    (hstream : lx.stream.unread c = .ok stream) : Apart main { lx with stream } := by
  rcases h.single with ⟨source, hfiles, horigin⟩
  unfold Stream.unread Source.unread? at hstream
  rw [hfiles] at hstream
  by_cases hroom : source.pushback.length < Source.capacity
  · simp only [hroom, if_true, Except.ok.injEq] at hstream
    subst hstream
    exact ⟨⟨_, rfl, by rw [Source.input_putBack, horigin]⟩, h.stashed, h.console, h.pending⟩
  · simp only [hroom, if_false] at hstream
    cases hstream

theorem Apart.draw (h : Apart main lx) : Apart main { lx with stream := lx.stream.draw.2 } := by
  rcases h.single with ⟨source, hfiles, horigin⟩
  unfold Stream.draw
  rw [hfiles]
  exact ⟨⟨_, rfl, horigin⟩, h.stashed, h.console, h.pending⟩

theorem leads_unread (c : UInt8) :
    Leads (fun _ => Apart main) (Apart main) (unread c) fun _ => Apart main := by
  intro lx h
  rw [Lexer.unread, show CharStream.unread lx.stream c = lx.stream.unread c from rfl]
  cases hstream : lx.stream.unread c with
  | ok stream => exact h.unread hstream
  | error f => exact h

theorem rules (main : Lexer) :
    TokenRules fun _ (m _ : LexM _) =>
      Leads (fun _ => Apart main) (Apart main) m fun _ => Apart main where
  toRules := by
    refine .ofInvariant (fun _ _ _ h => h) (fun _ h => h.next) leads_unread (fun _ _ => ?_)
      fun _ _ => leads_finish_of fun _ h => h.draw
    exact leads_warn_of (fun _ h _ _ => h) fun _ _ _ h => ⟨h.single, h.stashed, h.console, h.pending⟩
  rel_throw_marked := fun _ _ => leads_bind leads_marked fun _ => leads_throw fun _ h => h
  rel_throw_comment := fun _ => leads_throw fun _ h => h
  rel_setMark := leads_setMark_of fun _ _ h => ⟨h.single, h.stashed, h.console, h.pending⟩
  rel_needSource := leads_needSource_of fun _ h => h
  rel_isAtLineStart := fun _ h => h

theorem leads_wholeToken (main : Lexer) (shown : String) :
    Leads (fun _ => Apart main) (Apart main) (wholeToken shown) fun _ => Apart main := by
  refine leads_bind (rules main).rel_rawToken fun t => ?_
  refine leads_bind ((rules main).rel_skipIf newline) fun _ => ?_
  refine leads_bind (leads_here 0) fun rest => ?_
  refine leads_bind ((rules main).rel_peekIs fun _ => true) fun more => ?_
  split
  · exact leads_throw fun _ h => h
  · exact leads_pure fun _ h => h

end Isolation

/-- The lexer after an operation, also after one that fails. -/
def Lexer.after {σ α : Type} (lx : Lexer σ) (m : LexOn σ α) : Lexer σ :=
  match m lx with
  | .ok _ lx' => lx'
  | .error _ lx' => lx'

theorem Leads.after {σ α : Type} {P Q : Lexer σ → Prop} {m : LexOn σ α}
    (h : Leads (fun _ => Q) P m fun _ => Q) {lx : Lexer σ} (hP : P lx) : Q (lx.after m) := by
  have hrun := h lx hP
  unfold Lexer.after
  cases hm : m lx with
  | ok a lx' =>
      rw [hm] at hrun
      exact hrun
  | error f lx' =>
      rw [hm] at hrun
      exact hrun

/-- The streams differ in their journals alone. -/
structure Stream.Same (s t : Stream) : Prop where
  files : t.files = s.files
  stashed : t.stashed = s.stashed
  console : t.console = s.console

/-- The input and the tokens that wait before it are the same. -/
structure Lexer.SameInput (lx lx' : Lexer) : Prop extends lx.stream.Same lx'.stream where
  pending : lx'.pending = lx.pending

theorem Isolation.Apart.restore {main lx : Lexer} (h : Apart main lx) :
    main.SameInput (restore lx) := by
  unfold Lexer.restore Stream.unstash?
  rw [h.stashed]
  exact ⟨⟨rfl, rfl, h.console⟩, h.pending⟩

theorem sameInput_tokenOfText (lx : Lexer) (bytes : List UInt8) (shown : String) :
    lx.SameInput (lx.after (tokenOfText bytes shown)) := by
  let apart := { lx with stream := lx.stream.stash (.ofBytes "(string)" bytes) }
  have hstart : Isolation.Apart lx apart := ⟨⟨_, rfl, rfl⟩, rfl, rfl, rfl⟩
  have hapart : Isolation.Apart lx (apart.after (wholeToken shown)) :=
    (Isolation.leads_wholeToken lx shown).after hstart
  suffices lx.after (tokenOfText bytes shown) = restore (apart.after (wholeToken shown)) from
    this ▸ hapart.restore
  unfold Lexer.after tokenOfText
  dsimp only
  cases wholeToken shown apart with
  | ok t lx' => rfl
  | error f lx' => rfl

/-- Whatever is read and whatever waits before it, and whether or not the text holds one token:
afterwards every source, the sources set aside, the bytes of standard input and the pending tokens
are what they were. -/
theorem tokenOfText_input (lx : Lexer) (bytes : List UInt8) (shown : String) :
    let lx' := lx.after (tokenOfText bytes shown)
    lx'.stream.files = lx.stream.files ∧ lx'.stream.stashed = lx.stream.stashed ∧
      lx'.stream.console = lx.stream.console ∧ lx'.pending = lx.pending := by
  intro lx'
  have hsame := sameInput_tokenOfText lx bytes shown
  exact ⟨hsame.files, hsame.stashed, hsame.console, hsame.pending⟩

end CLex
