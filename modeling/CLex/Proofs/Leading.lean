import CLex.Proofs.Composition
import CLex.Proofs.Scanning

namespace CLex

open Character Lexer LexM

variable {σ α β κ ρ : Type}

/-- The outcome with other pending tokens. -/
def setPending (pending : List (List Token)) :
    EStateM.Result Failure (Lexer σ) α → EStateM.Result Failure (Lexer σ) α
  | .ok a lx => .ok a { lx with pending }
  | .error f lx => .error f { lx with pending }

/-- The operation neither looks at the pending tokens nor changes them. -/
def IgnoresPending (m : LexOn σ α) : Prop :=
  ∀ lx pending, m { lx with pending } = setPending pending (m lx)

theorem ignoresPending_bind {m : LexOn σ α} {f : α → LexOn σ β} (hm : IgnoresPending m)
    (hf : ∀ a, IgnoresPending (f a)) : IgnoresPending (m >>= f) := by
  intro lx pending
  have hrun := hm lx pending
  cases h : m lx with
  | ok a lx' =>
      rw [h] at hrun
      rw [bind_of_ok h, bind_of_ok hrun]
      exact hf a lx' pending
  | error e lx' =>
      rw [h] at hrun
      rw [bind_of_error h, bind_of_error hrun]
      rfl

theorem IgnoresPending.pending_eq {m : LexOn σ α} (h : IgnoresPending m) (lx : Lexer σ) :
    match m lx with
    | .ok _ lx' | .error _ lx' => lx'.pending = lx.pending := by
  have hrun : m lx = setPending lx.pending (m lx) := h lx lx.pending
  cases hm : m lx with
  | ok a lx' =>
      rw [hm, setPending, EStateM.Result.ok.injEq] at hrun
      dsimp only
      rw [hrun.2]
  | error f lx' =>
      rw [hm, setPending, EStateM.Result.error.injEq] at hrun
      dsimp only
      rw [hrun.2]

variable [CharStream σ]

theorem ignoresPending_loop {step : κ → LexOn σ (Round κ ρ)} {progress : Progress step}
    (h : ∀ a, IgnoresPending (step a)) (a : κ) : IgnoresPending (loop step progress a) := by
  intro lx pending
  induction a, lx using round_induction progress with
  | error a lx f lx' hs => rw [loop_eq, loop_eq step progress a lx, h a lx pending, hs]; rfl
  | done a lx x lx' hs => rw [loop_eq, loop_eq step progress a lx, h a lx pending, hs]; rfl
  | again a lx b lx' hs ih =>
      rw [loop_eq, loop_eq step progress a lx, h a lx pending, hs]
      exact ih

theorem ignoresPending_rules : TokenRules fun _ (m _ : LexOn σ _) => IgnoresPending m where
  rel_pure := fun _ _ _ => rfl
  rel_bind := ignoresPending_bind
  rel_loop := ignoresPending_loop
  rel_next := fun _ _ => rfl
  rel_unread := by
    intro c lx pending
    show Lexer.unread c _ = _
    unfold Lexer.unread
    dsimp only
    cases CharStream.unread lx.stream c with
    | ok stream => rfl
    | error f => rfl
  rel_throw := fun _ _ _ => rfl
  rel_here := fun _ _ _ => rfl
  rel_warn := by
    intro location text lx pending
    unfold warn
    dsimp only
    split
    · split <;> rfl
    · rfl
  rel_finish := by
    intro lexeme encoding lx pending
    unfold finish
    dsimp only
    cases CharStream.place? lx.stream with
    | none => rfl
    | some place => rfl
  rel_throw_marked := fun _ _ _ _ => rfl
  rel_throw_comment := fun _ _ _ => rfl
  rel_setMark := by
    intro lx pending
    unfold setMark
    dsimp only
    cases CharStream.place? lx.stream with
    | none => rfl
    | some place => rfl
  rel_needSource := by
    intro lx pending
    unfold needSource
    dsimp only
    cases CharStream.place? lx.stream with
    | none => rfl
    | some place => rfl
  rel_isAtLineStart := fun _ _ => rfl

namespace Stream

/-- A single source is read, and no more has been put back than there is room for. -/
def IsLone (s : Stream) : Prop :=
  ∃ source, s.files = [source] ∧ source.pushback.length ≤ Source.capacity

theorem IsLone.hasRoom {s : Stream} (h : s.IsLone) : s.HasRoom 0 := by
  rcases h with ⟨source, hfiles, hback⟩
  exact ⟨source, [], hfiles, hback, fun _ h => absurd h List.not_mem_nil⟩

theorem isLone_of_page {s : Stream} {p : Page} (hroom : s.HasRoom 0) (hpages : s.book.pages = [p]) :
    s.IsLone := by
  rcases hroom with ⟨top, below, hfiles, hback, -⟩
  have hlen : s.book.pages.length = s.files.length := length_pagesOf s.console s.files
  rw [hpages, hfiles, List.length_singleton, List.length_cons] at hlen
  rw [List.eq_nil_of_length_eq_zero (Nat.succ.inj hlen).symm] at hfiles
  exact ⟨top, hfiles, hback⟩

theorem IsLone.page {s : Stream} (h : s.IsLone) :
    ∃ p, s.book.pages = [p] ∧ s.readToEnd.1 = Lines.join p.rest := by
  rcases h with ⟨source, hfiles, -⟩
  have hpages : s.book.pages = [(source.lend s.console).page] := by
    show pagesOf s.console s.files = _
    rw [hfiles]
    rfl
  exact ⟨_, hpages, by rw [textOf_readToEnd, hpages, Book.textOf]; simp⟩

theorem isLone_ofBytes (name : String) (bytes : List UInt8) :
    (ofSources [.ofBytes name bytes]).IsLone :=
  ⟨_, rfl, Nat.zero_le _⟩

theorem readToEnd_ofBytes (name : String) (bytes : List UInt8) :
    (ofSources [.ofBytes name bytes]).readToEnd.1 = Lines.join (Lines.canon bytes) := by
  rw [textOf_readToEnd, pages_single rfl (Source.isFresh_ofBytes name bytes), Book.textOf,
    List.flatMap_singleton]
  rfl

end Stream

theorem agrees_rawToken : Stack.Agrees rawToken rawToken :=
  Stack.agrees_token (FreshSimulation.runs_rawToken rfl)

variable {lx lx' : Lexer}

/-- The lexer of the stream alone, without the tokens that are pending. -/
def Lexer.unheld (lx : Lexer) : Lexer :=
  { lx with pending := [[]] }

/-- The lexer of the text that is left of a stream. -/
def Lexer.ofRest (lx : Lexer) : Lexer Book :=
  ofText lx.stream.readToEnd.1 lx.options

theorem joining_ofRest (h : lx.stream.IsLone) : Joining.Held [] lx.unheld.book lx.ofRest := by
  rcases h.page with ⟨p, hpages, htext⟩
  exact ⟨p, _, hpages, rfl, rfl, rfl, rfl, ⟨rfl, rfl⟩, htext, by simp⟩

theorem rawToken_of_ofRest (h : lx.stream.IsLone) {t : Token} {rest : Lexer Book}
    (hread : rawToken lx.ofRest = .ok t rest) :
    ∃ t' lx', rawToken lx = .ok t' lx' ∧ t'.gist = t.gist ∧
      (t.lexeme.isName = false → ∃ q, rest.stream.pages = [q] ∧ lx'.stream.readToEnd.1 = q.rest) := by
  have hrun := FreshSimulation.runs_rawToken (S := Joining.simulation) rfl _ _ (joining_ofRest h)
  rw [hread] at hrun
  have hroom : lx.unheld.stream.HasRoom 0 := h.hasRoom
  cases hbook : rawToken lx.unheld.book with
  | error f s =>
      rw [hbook] at hrun
      exact hrun.elim
  | ok t' s =>
      rw [hbook] at hrun
      rcases hrun with ⟨hgist, hlexeme, hafter⟩
      rcases agrees_rawToken.of_book hroom hbook with ⟨lx', hstream, rfl, -⟩
      have hpending := ignoresPending_rules.rel_rawToken lx.unheld lx.pending
      rw [hstream] at hpending
      refine ⟨t', { lx' with pending := lx.pending }, hpending, hgist, fun hname => ?_⟩
      rw [← hlexeme] at hname
      rw [show Joining.simulation.after = Joining.After from rfl, Joining.After,
        if_neg (by simp [hname])] at hafter
      rcases hafter with ⟨p, q, hbeside⟩
      have hpages : lx'.stream.book.pages = [p] := hbeside.left
      refine ⟨q, hbeside.right, ?_⟩
      rw [Stream.textOf_readToEnd, hpages, hbeside.texts.1, Book.textOf]
      simp

theorem Joining.After.page {lexeme : Lexeme} {s t : Lexer Book} (h : After lexeme s t) :
    ∃ p, s.stream.pages = [p] := by
  unfold After at h
  split at h
  · rcases h with ⟨p, q, hbeside⟩
    exact ⟨p, hbeside.left⟩
  · rcases h with ⟨p, q, hbeside⟩
    exact ⟨p, hbeside.left⟩

theorem rawToken_ofRest (h : lx.stream.IsLone) {t : Token} (hread : rawToken lx = .ok t lx') :
    ∃ t' rest, rawToken lx.ofRest = .ok t' rest ∧ t'.gist = t.gist ∧ lx'.stream.IsLone := by
  have hpending := ignoresPending_rules.rel_rawToken lx [[]]
  rw [hread] at hpending
  have hroom : lx.unheld.stream.HasRoom 0 := h.hasRoom
  rcases agrees_rawToken.ok hroom hpending with ⟨hbook, hroom'⟩
  have hrun := FreshSimulation.runs_rawToken (S := Joining.simulation) rfl _ _ (joining_ofRest h)
  rw [hbook] at hrun
  rcases hrun.exists_ok with ⟨t', rest, htext, hgist, -, hafter⟩
  rcases Joining.After.page hafter with ⟨p, hpages⟩
  exact ⟨t', rest, htext, hgist.symm, Stream.isLone_of_page hroom' hpages⟩

theorem isLone_rawToken (h : lx.stream.IsLone) {t : Token} (hread : rawToken lx = .ok t lx') :
    lx'.stream.IsLone := by
  rcases rawToken_ofRest h hread with ⟨-, -, -, -, hlone⟩
  exact hlone

namespace Outlook

variable {O : Outlook σ} {text rest : List UInt8}

theorem reads_rawToken {P : Token → Prop} (hblank : Unblank text)
    (h : O.Reads text token P rest) : O.Reads text rawToken P rest :=
  reads_needSource.bind fun _ _ => (reads_skipBlanks_none hblank).bind_eq h

/-- The outlook of a lexer of one page whose lines are not joined any more. -/
def spliced : Outlook Book where
  faces text lx := ∃ p, lx.stream.pages = [p] ∧ lx.stream.joins = false ∧ lx.pending = [[]] ∧
    p.rest = text
  sound _ := True
  sound_of_faces _ := trivial
  pending h := h.elim fun _ h => h.2.2.1
  next_ok := by
    rintro c rest lx ⟨p, hpages, hjoins, hpending, hp⟩
    exact ⟨_, next?_cons hpages hp (by simp [hjoins]), _, rfl, hjoins, hpending,
      Page.rest_advance _ _⟩
  next_end := by
    rintro lx ⟨p, hpages, hjoins, hpending, hp⟩
    exact ⟨_, next?_end hpages hp, p, hpages, hjoins, hpending, hp⟩
  unread_ok := by
    rintro c rest lx - ⟨p, hpages, hjoins, hpending, rfl⟩
    exact ⟨_, unread_pages hpages c, _, rfl, hjoins, hpending, Page.rest_putBack p c⟩
  setMark_ok := by
    rintro text lx ⟨p, hpages, hjoins, hpending, hp⟩
    exact ⟨_, setMark_pages hpages, p, hpages, hjoins, hpending, hp⟩
  needSource_ok := by
    rintro text lx ⟨p, hpages, -⟩
    exact needSource_pages hpages
  finish_ok := by
    rintro text lx ⟨p, hpages, hjoins, hpending, hp⟩ lexeme encoding
    exact ⟨_, _, finish_pages hpages lexeme encoding, rfl, _, rfl, hjoins, hpending, hp⟩

theorem spliced_ofRest (lx : Lexer) : spliced.faces lx.stream.readToEnd.1 lx.ofRest :=
  ⟨_, rfl, rfl, rfl, rfl⟩

end Outlook

theorem rawToken_of_reads (h : lx.stream.IsLone) {g : Gist} {rest : List UInt8}
    (hread : Outlook.spliced.Reads lx.stream.readToEnd.1 rawToken (fun t => t.gist = g) rest)
    (hname : g.1.isName = false) :
    ∃ t lx', rawToken lx = .ok t lx' ∧ t.gist = g ∧ lx'.stream.readToEnd.1 = rest := by
  have hrun := hread lx.ofRest (Outlook.spliced_ofRest lx)
  cases htext : rawToken lx.ofRest with
  | error f lx' =>
      rw [htext] at hrun
      exact hrun.elim
  | ok t lx' =>
      rw [htext] at hrun
      rcases hrun with ⟨hgist, p, hpages, -, -, hrest⟩
      rcases rawToken_of_ofRest h htext with ⟨t', lx'', hstream, hgist', hleft⟩
      rcases hleft (by rw [← hname, ← hgist]; rfl) with ⟨q, hq, hend⟩
      cases hpages.symm.trans hq
      exact ⟨t', lx'', hstream, hgist'.trans hgist, hend.trans hrest⟩

section Transfer

variable {m : LexM α} {n : LexOn Book α} (hstack : Stack.Agrees m n)
  (hjoining : Joining.simulation.Same (Joining.Held []) (fun _ => Joining.Held []) n n)
  (hlone : lx.stream.IsLone) (hpending : lx.pending = [[]])

include hlone hpending

theorem held_ofRest : Joining.Held [] lx.book lx.ofRest := by
  have hheld := joining_ofRest hlone
  rwa [Lexer.unheld, ← hpending] at hheld

include hstack hjoining

theorem ok_of_reads {P : α → Prop} {rest : List UInt8}
    (h : Outlook.spliced.Reads lx.stream.readToEnd.1 n P rest) :
    ∃ a lx', m lx = .ok a lx' ∧ P a ∧ lx'.stream.readToEnd.1 = rest := by
  rcases h.exists_ok (Outlook.spliced_ofRest lx) with ⟨a, left, hread, ha, p, hpages, -, -, hrest⟩
  have hrun := hjoining _ _ (held_ofRest hlone hpending)
  rw [hread] at hrun
  cases hbook : n lx.book with
  | error f s =>
      rw [hbook] at hrun
      exact hrun.elim
  | ok b s =>
      rw [hbook] at hrun
      rcases hrun with ⟨rfl, q, q', hbeside⟩
      rcases hstack.of_book hlone.hasRoom hbook with ⟨lx', hstream, rfl, -⟩
      cases hpages.symm.trans hbeside.right
      have hpage : lx'.stream.book.pages = [q] := hbeside.left
      refine ⟨b, lx', hstream, ha, ?_⟩
      rw [Stream.textOf_readToEnd, hpage, ← hrest, hbeside.texts.1, Book.textOf]
      simp

theorem error_of_fails {cause : Cause}
    (h : Outlook.spliced.Fails lx.stream.readToEnd.1 n cause) :
    ∃ d lx', m lx = .error (.diagnostic d) lx' ∧ d.cause = cause := by
  rcases h.exists_error (Outlook.spliced_ofRest lx) with ⟨location, left, hread⟩
  have hrun := hjoining _ _ (held_ofRest hlone hpending)
  rw [hread] at hrun
  cases hbook : n lx.book with
  | ok b s =>
      rw [hbook] at hrun
      exact hrun.elim
  | error f s =>
      rw [hbook] at hrun
      rcases hrun.resolve_left id with ⟨hsame, -⟩
      rcases hstack.error_of_book hlone.hasRoom hbook with ⟨lx', hstream⟩
      cases f with
      | diagnostic d =>
          refine ⟨d, lx', hstream, ?_⟩
          exact congrArg Diagnostic.cause (Failure.diagnostic.inj hsame)
      | _ => cases hsame

end Transfer

end CLex
