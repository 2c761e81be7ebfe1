import CLex.Lexer.Isolated
import CLex.Proofs.Leading

namespace CLex

open Character Lexer LexM Reading

variable {σ τ α : Type}

/-- What an operation ends with, whatever becomes of the lexer. -/
def verdict : EStateM.Result Failure (Lexer σ) α → Except Failure α
  | .ok a _ => .ok a
  | .error f _ => .error f

theorem verdict_eq_ok {r : EStateM.Result Failure (Lexer σ) α} {a : α} :
    verdict r = .ok a ↔ ∃ lx, r = .ok a lx := by
  cases r <;> simp [verdict]

theorem verdict_eq_error {r : EStateM.Result Failure (Lexer σ) α} {f : Failure} :
    verdict r = .error f ↔ ∃ lx, r = .error f lx := by
  cases r <;> simp [verdict]

variable [CharStream σ] [CharStream τ]

theorem Reading.Same.verdict_eq {R : Reading σ τ} {P : Lexer σ → Lexer τ → Prop}
    {Q : α → Lexer σ → Lexer τ → Prop} {m : LexOn σ α} {n : LexOn τ α} {s : Lexer σ} {t : Lexer τ}
    (h : R.Same P Q m n) (hlax : ¬ R.lax) (hfailure : ∀ f g, R.failure f g → f = g) (hP : P s t) :
    verdict (m s) = verdict (n t) := by
  have hrun := h s t hP
  cases hm : m s with
  | ok a s' =>
      rw [hm] at hrun
      rcases hrun.exists_ok with ⟨b, t', hn, rfl, -⟩
      rw [hn]
      rfl
  | error f s' =>
      rw [hm] at hrun
      cases hn : n t with
      | ok b t' =>
          rw [hn] at hrun
          exact absurd hrun hlax
      | error g t' =>
          rw [hn] at hrun
          exact congrArg Except.error (hfailure f g (hrun.resolve_left hlax).1)

namespace Lexer

/-- The token, if nothing is left behind it. -/
def ifEnded (shown : String) (t : Token) : LexOn σ Token := do
  let rest ← here
  if ← peekIs fun _ => true then throw (.located (.unconsumed shown) rest)
  else pure t

/-- The token, if nothing but a newline is left behind it. -/
def ifLineEnded (shown : String) (t : Token) : LexOn σ Token := do
  let _ ← skipIf newline
  ifEnded shown t

/-- The raw token that a text consists of, over any stream. -/
def soleToken (shown : String) : LexOn σ Token := do
  let t ← rawToken
  ifLineEnded shown t

theorem wholeToken_eq (shown : String) : wholeToken shown = soleToken shown :=
  rfl

end Lexer

namespace Reading

variable {R : Reading σ τ}

theorem same_ifEnded (shown : String) (t : Token) :
    R.Same (R.held []) (fun _ => R.held []) (ifEnded shown t) (ifEnded shown t) := by
  refine runs_bind (runs_here 0) fun l l' => runs_given fun hl => ?_
  refine same_bind (same_peek plain_nil _) fun more => ?_
  cases more with
  | true => exact runs_throw (R.located hl _) fun s t h => out_of_held h
  | false => exact same_pure fun s t h => h

theorem same_ifLineEnded (hnewline : ∀ s t, R.held [newline] s t → R.held [] s t)
    (shown : String) (t : Token) :
    R.Same (R.held []) (fun _ => R.held []) (ifLineEnded shown t) (ifLineEnded shown t) := by
  refine same_bind (same_skipIf plain_nil newline) fun skipped => ?_
  apply (same_ifEnded shown t).pre
  cases skipped with
  | true => exact hnewline
  | false => exact fun s t h => h

theorem same_soleToken (hraw : R.Same (R.held []) (fun _ => R.held []) rawToken rawToken)
    (hnewline : ∀ s t, R.held [newline] s t → R.held [] s t) (shown : String) :
    R.Same (R.held []) (fun _ => R.held []) (soleToken shown) (soleToken shown) :=
  same_bind hraw fun t => same_ifLineEnded hnewline shown t

end Reading

namespace Outlook

variable {O : Outlook σ} {text : List UInt8}

theorem reads_ifEnded (shown : String) (t : Token) : O.Reads [] (ifEnded shown t) (· = t) [] :=
  (reads_here 0).bind fun _ _ => (reads_peekIs _).bind_eq (reads_pure rfl)

theorem fails_ifEnded (shown : String) (t : Token) (hne : text ≠ []) :
    O.Fails text (ifEnded shown t) (.unconsumed shown) := by
  rcases List.exists_cons_of_ne_nil hne with ⟨c, rest, rfl⟩
  exact (reads_here 0).bind_fails fun l _ => (reads_peekIs _).bind_fails_eq (fails_throw l)

theorem reads_ifLineEnded (shown : String) (t : Token) (htext : text = [] ∨ text = [newline]) :
    O.Reads text (ifLineEnded shown t) (· = t) [] := by
  rcases htext with rfl | rfl
  · exact (reads_skipIf_other (by simp)).bind_eq (reads_ifEnded shown t)
  · exact reads_skipIf.bind_eq (reads_ifEnded shown t)

theorem fails_ifLineEnded (shown : String) (t : Token) (htext : ¬ (text = [] ∨ text = [newline])) :
    O.Fails text (ifLineEnded shown t) (.unconsumed shown) := by
  rw [not_or] at htext
  rcases List.exists_cons_of_ne_nil htext.1 with ⟨c, rest, rfl⟩
  by_cases hc : c = newline
  · subst hc
    exact reads_skipIf.bind_fails_eq (fails_ifEnded shown t (by simpa using htext.2))
  · exact (reads_skipIf_other (by simpa using hc)).bind_fails_eq
      (fails_ifEnded shown t (List.cons_ne_nil c rest))

end Outlook

namespace Lexer

variable {lx lx' : Lexer Book} {p : Page} {c : UInt8} {rest : List UInt8} {t : Token}

theorem fits_token (h : lx.stream.pages = [p]) (hs : lx.Settled p) (hp : p.rest = c :: rest)
    (hread : token lx = .ok t lx') : Fits c t.lexeme := by
  let marked : Lexer Book := { lx with mark := (p.line, p.column) }
  have hnext : next? marked = .ok (some c) (marked.withPages [{ p with rest }.advance c]) :=
    next?_settled (show marked.stream.pages = [p] from h) hs hp
  rw [token, bind_of_ok (setMark_pages h), bind_of_ok hnext] at hread
  exact begins_tokenFrom c _ _ _ hread

theorem fits_rawToken (h : lx.stream.pages = [p]) (hs : lx.Settled p) (hp : p.rest = c :: rest)
    (hread : rawToken lx = .ok t lx') : t.lexeme = .blank ∨ Fits c t.lexeme := by
  rw [rawToken, bind_of_ok (needSource_pages h)] at hread
  rcases bind_eq_ok.mp hread with ⟨skipped, lx₁, hblanks, htoken⟩
  cases skipped with
  | true =>
      rcases pure_eq_ok.mp htoken with ⟨rfl, -⟩
      exact Or.inl rfl
  | false =>
      rcases skipBlank_false h hs (skipBlanks_false hblanks) with ⟨p', rfl, hp'⟩
      have hs' : (lx.withPages [p']).Settled p' := fun hj => hp' ▸ hs hj
      exact Or.inr (fits_token rfl hs' (hp'.trans hp) htoken)

end Lexer

section Rest

variable {lx lx' : Lexer} {t : Token} (hlone : lx.stream.IsLone)

include hlone

theorem rawToken_lexeme {text rest : List UInt8} {lexeme : Lexeme}
    (hrest : lx.stream.readToEnd.1 = text) (hunblank : Outlook.Unblank text)
    (hname : lexeme.isName = false)
    (hread : Outlook.spliced.Reads text token (fun t => t.gist = (lexeme, .plain, false)) rest) :
    ∃ t lx', rawToken lx = .ok t lx' ∧ t.lexeme = lexeme ∧ lx'.stream.readToEnd.1 = rest := by
  subst hrest
  rcases rawToken_of_reads hlone (Outlook.reads_rawToken hunblank hread) hname with
    ⟨t, lx', hraw, hgist, hleft⟩
  exact ⟨t, lx', hraw, congrArg Prod.fst hgist, hleft⟩

theorem rawToken_end (hrest : lx.stream.readToEnd.1 = []) :
    ∃ t lx', rawToken lx = .ok t lx' ∧ t.lexeme = .eof ∧ lx'.stream.readToEnd.1 = [] :=
  rawToken_lexeme hlone hrest trivial rfl Outlook.reads_token_end

theorem rawToken_newline {rest : List UInt8} (hrest : lx.stream.readToEnd.1 = newline :: rest) :
    ∃ t lx', rawToken lx = .ok t lx' ∧ t.lexeme = .newline ∧ lx'.stream.readToEnd.1 = rest :=
  rawToken_lexeme hlone hrest ⟨by decide, fun h => absurd h (by decide)⟩ rfl
    Outlook.reads_token_newline

theorem rawToken_other {c : UInt8} {rest : List UInt8} (hrest : lx.stream.readToEnd.1 = c :: rest)
    (hc : c ≠ newline) (hread : rawToken lx = .ok t lx') :
    t.lexeme ≠ .newline ∧ t.lexeme ≠ .eof := by
  rcases rawToken_ofRest hlone hread with ⟨t', after, htext, hgist, -⟩
  have hlexeme : t'.lexeme = t.lexeme := congrArg Prod.fst hgist
  have hs : lx.ofRest.Settled { name := "", rest := lx.stream.readToEnd.1 } := fun hj => by cases hj
  have hfits := fits_rawToken rfl hs hrest htext
  rw [hlexeme] at hfits
  constructor
  · intro hnewline
    rw [hnewline] at hfits
    exact hc (hfits.resolve_left nofun)
  · intro hend
    rw [hend] at hfits
    exact hfits.resolve_left nofun

theorem rest_of_rawToken (hread : rawToken lx = .ok t lx') :
    (t.lexeme = .eof ↔ lx.stream.readToEnd.1 = []) ∧
      (t.lexeme = .newline → lx.stream.readToEnd.1 = newline :: lx'.stream.readToEnd.1) := by
  cases hrest : lx.stream.readToEnd.1 with
  | nil =>
      rcases rawToken_end hlone hrest with ⟨t', lx'', hread', hlexeme, -⟩
      cases hread.symm.trans hread'
      exact ⟨iff_of_true hlexeme rfl, fun hnewline => nomatch hlexeme.symm.trans hnewline⟩
  | cons c rest =>
      by_cases hc : c = newline
      · subst hc
        rcases rawToken_newline hlone hrest with ⟨t', lx'', hread', hlexeme, hleft⟩
        cases hread.symm.trans hread'
        exact ⟨iff_of_false (hlexeme ▸ nofun) nofun, fun _ => by rw [hleft]⟩
      · rcases rawToken_other hlone hrest hc hread with ⟨hnewline, hend⟩
        exact ⟨iff_of_false hend nofun, fun h => absurd h hnewline⟩

theorem isEnd_rawToken (hread : rawToken lx = .ok t lx') :
    t.isEnd = true ↔ lx.stream.readToEnd.1 = [] := by
  rw [Token.isEnd, beq_iff_eq]
  exact (rest_of_rawToken hlone hread).1

end Rest

/-- The end, alone or behind a newline. -/
inductive Closes : List Token → Prop
  | ended {e : Token} (he : e.isEnd = true) : Closes [e]
  | line {n e : Token} (hn : n.lexeme = .newline) (he : e.isEnd = true) : Closes [n, e]

/-- The token `t` and no other one, up to the end: a newline may come in between, and the end may be
the token itself. -/
inductive Whole (t : Token) : List Token → Prop
  | alone (ht : t.isEnd = true) : Whole t [t]
  | ended {e : Token} (he : e.isEnd = true) : Whole t [t, e]
  | line {n e : Token} (hn : n.lexeme = .newline) (he : e.isEnd = true) : Whole t [t, n, e]

theorem Whole.head? {t : Token} {ts : List Token} (h : Whole t ts) : ts.head? = some t := by
  cases h with
  | alone _ => rfl
  | ended _ => rfl
  | line _ _ => rfl

theorem Whole.length_le {t : Token} {ts : List Token} (h : Whole t ts) : ts.length ≤ 3 := by
  cases h with
  | alone _ => simp
  | ended _ => simp
  | line _ _ => simp

theorem whole_cons_iff {t first : Token} {rest : List Token} :
    Whole t (first :: rest) ↔ first = t ∧ (first.isEnd = true ∧ rest = [] ∨ Closes rest) := by
  constructor
  · rintro (ht | he | ⟨hn, he⟩)
    · exact ⟨rfl, Or.inl ⟨ht, rfl⟩⟩
    · exact ⟨rfl, Or.inr (.ended he)⟩
    · exact ⟨rfl, Or.inr (.line hn he)⟩
  · rintro ⟨rfl, ⟨ht, rfl⟩ | he | ⟨hn, he⟩⟩
    · exact .alone ht
    · exact .ended he
    · exact .line hn he

namespace Lexer

variable {lx lx' : Lexer} {t : Token}

theorem rawListing_error {f : Failure} (hread : rawToken lx = .error f lx') :
    lx.rawListing = ⟨[], some f, lx'⟩ := by
  rw [rawListing_eq, hread]

theorem tokens_rawListing (hread : rawToken lx = .ok t lx') :
    lx.rawListing.tokens = t :: if t.isEnd then [] else lx'.rawListing.tokens := by
  rw [rawListing_eq, hread]
  dsimp only
  split
  · rfl
  · rfl

end Lexer

section Closes

variable {lx : Lexer} (hlone : lx.stream.IsLone)

include hlone

theorem rawListing_end :
    (∃ e : Token, e.isEnd = true ∧ lx.rawListing.tokens = [e]) ↔ lx.stream.readToEnd.1 = [] := by
  constructor
  · rintro ⟨e, he, htokens⟩
    cases hread : rawToken lx with
    | error f lx' =>
        rw [rawListing_error hread] at htokens
        cases htokens
    | ok t lx' =>
        rw [tokens_rawListing hread, List.cons.injEq] at htokens
        exact (isEnd_rawToken hlone hread).mp (htokens.1 ▸ he)
  · intro hrest
    rcases rawToken_end hlone hrest with ⟨e, lx', hread, -⟩
    have he := (isEnd_rawToken hlone hread).mpr hrest
    exact ⟨e, he, by rw [tokens_rawListing hread, if_pos he]⟩

theorem closes_rawListing :
    Closes lx.rawListing.tokens ↔
      lx.stream.readToEnd.1 = [] ∨ lx.stream.readToEnd.1 = [newline] := by
  constructor
  · intro h
    generalize htokens : lx.rawListing.tokens = tokens at h
    cases h with
    | ended he => exact Or.inl ((rawListing_end hlone).mp ⟨_, he, htokens⟩)
    | @line n e hn he =>
        cases hread : rawToken lx with
        | error f lx' =>
            rw [rawListing_error hread] at htokens
            cases htokens
        | ok t lx' =>
            rw [tokens_rawListing hread, List.cons.injEq] at htokens
            rcases htokens with ⟨rfl, htokens⟩
            rw [if_neg (by simp [Token.isEnd, hn])] at htokens
            have hlone' := isLone_rawToken hlone hread
            rw [(rest_of_rawToken hlone hread).2 hn, (rawListing_end hlone').mp ⟨e, he, htokens⟩]
            exact Or.inr rfl
  · rintro (hrest | hrest)
    · rcases (rawListing_end hlone).mpr hrest with ⟨e, he, htokens⟩
      exact htokens ▸ .ended he
    · rcases rawToken_newline hlone hrest with ⟨n, lx', hread, hn, hrest'⟩
      have hlone' := isLone_rawToken hlone hread
      rcases (rawListing_end hlone').mpr hrest' with ⟨e, he, htokens⟩
      rw [tokens_rawListing hread, if_neg (by simp [Token.isEnd, hn]), htokens]
      exact .line hn he

end Closes

namespace Singling

/-- Two lexers read the same page under the same options. Where their tokens begin is the same too,
if that is `marked`. -/
structure Twin (marked : Prop) (s t : Lexer Book) (p : Page) : Prop where
  left : s.stream.pages = [p]
  right : t.stream.pages = [p]
  joins : s.stream.joins = t.stream.joins
  options : s.options = t.options
  mark : marked → s.mark = t.mark

def Held (marked : Prop) (s t : Lexer Book) : Prop :=
  ∃ p, Twin marked s t p

variable {marked : Prop} {s t : Lexer Book} {p : Page}

theorem Twin.turn (h : Twin marked s t p) (p' : Page) :
    Held marked (s.withPages [p']) (t.withPages [p']) :=
  ⟨p', rfl, rfl, h.joins, h.options, h.mark⟩

theorem Twin.unmarked (h : Twin marked s t p) : Held False s t :=
  ⟨p, h.left, h.right, h.joins, h.options, False.elim⟩

theorem Held.next (h : Held marked s t) :
    ∃ c s' t', next? s = .ok c s' ∧ next? t = .ok c t' ∧ Held marked s' t' := by
  rcases h with ⟨p, h⟩
  have hs := next?_single h.left
  have ht := next?_single h.right
  rw [← h.joins] at ht
  exact ⟨_, _, _, hs, ht, h.turn _⟩

theorem Held.unread (h : Held marked s t) (c : UInt8) :
    ∃ s' t', Lexer.unread c s = .ok () s' ∧ Lexer.unread c t = .ok () t' ∧ Held marked s' t' ∧
      (c ≠ backslash → ∃ s'', next? s' = .ok (some c) s'') := by
  rcases h with ⟨p, h⟩
  refine ⟨_, _, unread_pages h.left c, unread_pages h.right c, h.turn _, fun hc => ?_⟩
  exact ⟨_, next?_cons rfl (Page.rest_putBack p c) fun _ hpair => hc hpair.1⟩

def reading (marked : Prop) : Reading Book Book where
  held := fun _ => Held marked
  place := Eq
  failure := Eq
  lax := False
  next := by
    intro cs s t h _
    rcases h.next with ⟨c, s', t', hs, ht, h'⟩
    exact ⟨c, s', t', hs, ht, by cases c <;> exact h'⟩
  nextLine := by
    intro cs s t h
    rcases h.next with ⟨c, s', t', hs, ht, h'⟩
    exact Or.inr ⟨c, s', t', hs, ht, by cases c <;> exact h'⟩
  keep := fun h _ => h
  unread := fun h _ => h.unread _
  here := by
    rintro cs s t ⟨p, h⟩
    rw [location_pages h.left, location_pages h.right]
  back := Stack.back_eq
  located := Stack.located_eq

theorem same_needSource :
    (reading marked).Same (Held marked) (fun _ => Held marked) Lexer.needSource
      Lexer.needSource := by
  rintro s t ⟨p, h⟩
  rw [needSource_pages h.left, needSource_pages h.right]
  exact ⟨rfl, p, h⟩

def simulation : FreshSimulation Book Book where
  toReading := reading True
  word := Held True
  after := fun _ => Held True
  token := Eq
  lineStart := Eq
  failure_refl := fun _ => rfl
  warn := by
    intro cs l l' hl text
    refine same_warn_of_options ?_ ?_ (fun s t h => ⟨cs, h⟩) hl text
    · rintro s t ⟨p, h⟩
      exact h.options
    · rintro s t notes notes' collector collector' ⟨p, h⟩
      exact ⟨p, h.left, h.right, h.joins, h.options, h.mark⟩
  marked := by
    rintro cs s t ⟨p, h⟩
    rw [marked_pages h.left, marked_pages h.right, h.mark trivial]
    exact ⟨rfl, p, h⟩
  setMark := by
    rintro s t ⟨p, h⟩
    rw [setMark_pages h.left, setMark_pages h.right]
    exact ⟨rfl, p, h.left, h.right, h.joins, h.options, fun _ => rfl⟩
  needSource := same_needSource
  isAtLineStart := by
    rintro s t ⟨p, h⟩
    rw [isAtLineStart_pages h.left, isAtLineStart_pages h.right]
    exact ⟨rfl, p, h⟩
  finish := by
    rintro lexeme encoding s t ⟨p, h⟩
    rw [finish_pages h.left, finish_pages h.right, h.mark trivial]
    exact ⟨rfl, h.turn _⟩
  flag := Stack.flag_eq
  word_none := next_none (R := reading True)
  word_unread := fun _ => same_unread (R := reading True) plain_nil
  word_retreat := by
    intro s s' t t' h hs ht
    have hpeek := same_peek (R := reading True) plain_nil (fun c => isUniversalMark c.toNat) s t h
    rw [hs, ht] at hpeek
    rcases hpeek.2.unread backslash with ⟨s'', t'', hs', ht', h', -⟩
    exact ⟨s'', t'', hs', ht', h'⟩
  after_word := fun h _ _ => h
  after_held := fun h _ _ _ => h
  after_end := next_none (R := reading True)
  after_newline := fun h => h

theorem same_token : (reading False).Same (Held False) (fun _ => Held False) token token := by
  rintro s t ⟨p, h⟩
  let marked : Lexer Book := { s with mark := t.mark }
  have hmarked : Twin True marked t p := ⟨h.left, h.right, h.joins, h.options, fun _ => rfl⟩
  have hsame : setMark marked = setMark s :=
    (setMark_pages hmarked.left).trans (setMark_pages h.left).symm
  have htoken : token marked = token s := bind_of_eq hsame _
  have hrun := FreshSimulation.runs_token (S := simulation) marked t ⟨p, hmarked⟩
  rw [htoken] at hrun
  refine hrun.mono ?_ ?_
  · rintro a s' b t' ⟨hab, -, q, h'⟩
    exact ⟨hab, h'.unmarked⟩
  · rintro f s' g t' ⟨hfg, cs, q, h'⟩
    exact ⟨hfg, cs, h'.unmarked⟩

theorem same_rawToken :
    (reading False).Same (Held False) (fun _ => Held False) rawToken rawToken := by
  refine same_bind same_needSource fun _ => ?_
  refine same_bind (same_skipBlanks (R := reading False)) fun skipped => ?_
  cases skipped with
  | true => exact same_pure fun s t h => h
  | false => exact same_token

theorem verdict_soleToken (h : Held False s t) (shown : String) :
    verdict (soleToken shown s) = verdict (soleToken shown t) :=
  (same_soleToken (R := reading False) same_rawToken (fun _ _ h => h) shown).verdict_eq id
    (fun _ _ hfg => hfg) h

end Singling

theorem verdict_book {lx : Lexer} (hroom : lx.stream.HasRoom 0) (shown : String) :
    verdict (soleToken shown lx) = verdict (soleToken shown lx.book) :=
  (same_soleToken (R := Stack.reading) agrees_rawToken (fun _ _ h => h.mono (Nat.zero_le 1))
    shown).verdict_eq id (fun _ _ hfg => hfg) ⟨rfl, hroom⟩

/-- It does not matter what is set aside, nor what waits or has been warned of before: a text is one
token as it is for a lexer that has read nothing. -/
theorem verdict_tokenOfText (lx : Lexer) (bytes : List UInt8) (shown : String) :
    verdict (tokenOfText bytes shown lx) =
      verdict (soleToken shown
        (Lexer.ofStream (Stream.ofSources [.ofBytes "(string)" bytes]) lx.options)) := by
  let apart : Lexer := { lx with stream := lx.stream.stash (.ofBytes "(string)" bytes) }
  let alone := Lexer.ofStream (Stream.ofSources [.ofBytes "(string)" bytes]) lx.options
  have hfresh := Source.isFresh_ofBytes "(string)" bytes
  have hroom : apart.stream.HasRoom 0 := (Stream.hasRoom_single rfl hfresh).mono (Nat.zero_le 3)
  have hroom' : alone.stream.HasRoom 0 := (Stream.hasRoom_single rfl hfresh).mono (Nat.zero_le 3)
  have htwin : Singling.Held False apart.book alone.book :=
    ⟨_, Stream.pages_single rfl hfresh, Stream.pages_single rfl hfresh, rfl, rfl, False.elim⟩
  calc verdict (tokenOfText bytes shown lx)
      _ = verdict (soleToken shown apart) := by
        rw [← wholeToken_eq]
        unfold tokenOfText
        dsimp only
        cases wholeToken shown apart with
        | ok t lx' => rfl
        | error f lx' => rfl
      _ = verdict (soleToken shown apart.book) := verdict_book hroom shown
      _ = verdict (soleToken shown alone.book) := Singling.verdict_soleToken htwin shown
      _ = verdict (soleToken shown alone) := (verdict_book hroom' shown).symm

/-- What reading a text as one token may end with, if these are its raw tokens. -/
inductive Sole (shown : String) (raw : Listing) : Except Failure Token → Prop
  | token {t : Token} (h : Whole t raw.tokens) : Sole shown raw (.ok t)
  | failed {f : Failure} (hnone : raw.tokens = []) (h : raw.failure = some f) :
      Sole shown raw (.error f)
  | more {d : Diagnostic} (hsome : raw.tokens ≠ []) (hmore : ∀ t, ¬ Whole t raw.tokens)
      (h : d.cause = .unconsumed shown) : Sole shown raw (.error (.diagnostic d))

namespace Sole

variable {shown : String} {raw : Listing} {v : Except Failure Token}

theorem eq_ok_iff (h : Sole shown raw v) {t : Token} : v = .ok t ↔ Whole t raw.tokens := by
  cases h with
  | token hwhole =>
      rw [Except.ok.injEq]
      refine ⟨fun ht => ht ▸ hwhole, fun ht => ?_⟩
      exact Option.some.inj (hwhole.head?.symm.trans ht.head?)
  | failed hnone _ => exact iff_of_false nofun fun ht => by simpa [hnone] using ht.head?
  | more _ hmore _ => exact iff_of_false nofun (hmore t)

theorem error_of_nil (h : Sole shown raw v) (hnil : raw.tokens = []) :
    ∃ f, raw.failure = some f ∧ v = .error f := by
  cases h with
  | token hwhole => exact absurd hwhole.head? (by simp [hnil])
  | failed _ hf => exact ⟨_, hf, rfl⟩
  | more hsome _ _ => exact absurd hnil hsome

theorem error_of_more (h : Sole shown raw v) (hsome : raw.tokens ≠ [])
    (hmore : ∀ t, ¬ Whole t raw.tokens) :
    ∃ d : Diagnostic, v = .error (.diagnostic d) ∧ d.cause = .unconsumed shown := by
  cases h with
  | token hwhole => exact absurd hwhole (hmore _)
  | failed hnone _ => exact absurd hnone hsome
  | more _ _ hcause => exact ⟨_, rfl, hcause⟩

end Sole

/-- The first raw token is the only one just if what it leaves is nothing or a newline. -/
theorem whole_rawListing {lx lx' : Lexer} (hlone : lx.stream.IsLone) {t t' : Token}
    (hread : rawToken lx = .ok t lx') :
    Whole t' lx.rawListing.tokens ↔
      t = t' ∧ (lx'.stream.readToEnd.1 = [] ∨ lx'.stream.readToEnd.1 = [newline]) := by
  rw [tokens_rawListing hread, whole_cons_iff]
  refine and_congr_right fun _ => ?_
  by_cases hend : t.isEnd = true
  · rw [if_pos hend]
    rcases rawToken_end hlone ((isEnd_rawToken hlone hread).mp hend) with
      ⟨t'', lx'', hread', -, hleft⟩
    cases hread.symm.trans hread'
    exact iff_of_true (Or.inl ⟨hend, rfl⟩) (Or.inl hleft)
  · have hlone' := isLone_rawToken hlone hread
    rw [if_neg hend, closes_rawListing hlone']
    exact or_iff_right fun h => hend h.1

theorem agrees_ifLineEnded (shown : String) (t : Token) :
    Stack.Agrees (ifLineEnded shown t) (ifLineEnded shown t) :=
  same_ifLineEnded (R := Stack.reading) (fun _ _ h => h.mono (Nat.zero_le 1)) shown t

theorem joined_ifLineEnded (shown : String) (t : Token) :
    Joining.simulation.Same (Joining.Held []) (fun _ => Joining.Held []) (ifLineEnded shown t)
      (ifLineEnded shown t) :=
  same_ifLineEnded (R := Joining.reading) (fun _ _ h => Joining.Held.mono h (by simp)) shown t

theorem sole_soleToken {lx : Lexer} (hlone : lx.stream.IsLone) (hpending : lx.pending = [[]])
    (shown : String) : Sole shown lx.rawListing (verdict (soleToken shown lx)) := by
  cases hread : rawToken lx with
  | error f lx' =>
      rw [soleToken, bind_of_error hread, rawListing_error hread]
      exact .failed rfl rfl
  | ok t lx' =>
      have hpending' : lx'.pending = [[]] := by
        have hkeeps := ignoresPending_rules.rel_rawToken.pending_eq lx
        rw [hread] at hkeeps
        exact hkeeps.trans hpending
      have hlone' := isLone_rawToken hlone hread
      rw [soleToken, bind_of_ok hread]
      -- Behind a name a pair may have been put back, so what counts is the text as it is now left,
      -- and not what was behind the name in the joined text.
      by_cases hrest : lx'.stream.readToEnd.1 = [] ∨ lx'.stream.readToEnd.1 = [newline]
      · rcases ok_of_reads (agrees_ifLineEnded shown t) (joined_ifLineEnded shown t) hlone'
          hpending' (Outlook.reads_ifLineEnded shown t hrest) with ⟨_, lx'', hended, rfl, -⟩
        rw [hended]
        exact .token ((whole_rawListing hlone hread).mpr ⟨rfl, hrest⟩)
      · rcases error_of_fails (agrees_ifLineEnded shown t) (joined_ifLineEnded shown t) hlone'
          hpending' (Outlook.fails_ifLineEnded shown t hrest) with ⟨d, lx'', hended, hcause⟩
        rw [hended]
        exact .more (by rw [tokens_rawListing hread]; simp)
          (fun t' h => hrest ((whole_rawListing hlone hread).mp h).2) hcause

/-- A text is read as the token `t` just if its raw tokens are `t` and the end, with at most a
newline between them, or the end alone. If not even the first raw token can be read, that failure is
the answer; if one can be read and it is not the only one, the answer is that something is left. -/
theorem tokenOfText_rawListing (lx : Lexer) (bytes : List UInt8) (shown : String) :
    let raw := (Lexer.ofStream (Stream.ofSources [.ofBytes "(string)" bytes]) lx.options).rawListing
    (∀ t, (∃ lx', tokenOfText bytes shown lx = .ok t lx') ↔ Whole t raw.tokens) ∧
      (raw.tokens = [] →
        ∃ f lx', raw.failure = some f ∧ tokenOfText bytes shown lx = .error f lx') ∧
      (raw.tokens ≠ [] → (∀ t, ¬ Whole t raw.tokens) →
        ∃ d lx', tokenOfText bytes shown lx = .error (.diagnostic d) lx' ∧
          d.cause = .unconsumed shown) := by
  intro raw
  have hsole : Sole shown raw (verdict (tokenOfText bytes shown lx)) := by
    rw [verdict_tokenOfText]
    exact sole_soleToken (Stream.isLone_ofBytes "(string)" bytes) rfl shown
  refine ⟨fun t => ?_, fun hnil => ?_, fun hsome hmore => ?_⟩
  · rw [← verdict_eq_ok]
    exact hsole.eq_ok_iff
  · rcases hsole.error_of_nil hnil with ⟨f, hf, hv⟩
    rcases verdict_eq_error.mp hv with ⟨lx', hrun⟩
    exact ⟨f, lx', hf, hrun⟩
  · rcases hsole.error_of_more hsome hmore with ⟨d, hv, hcause⟩
    rcases verdict_eq_error.mp hv with ⟨lx', hrun⟩
    exact ⟨d, lx', hrun, hcause⟩

/-- A comment that does not end is no token, and two names are more than one. -/
theorem tokenOfText_rawListing_refused :
    let lx := Lexer.ofStream (Stream.ofSources [])
    (∃ f lx', (Lexer.ofStream (Stream.ofSources [.ofBytes "(string)" (bytes ['/', '*'])])
        ).rawListing.failure = some f ∧ tokenOfText (bytes ['/', '*']) "/*" lx = .error f lx') ∧
      ∃ d lx', tokenOfText (bytes ['x', ' ', 'y']) "x y" lx = .error (.diagnostic d) lx' ∧
        d.cause = .unconsumed "x y" := by
  intro lx
  constructor
  · exact (tokenOfText_rawListing lx (bytes ['/', '*']) "/*").2.1 (by decide +kernel)
  · refine (tokenOfText_rawListing lx (bytes ['x', ' ', 'y']) "x y").2.2 (by decide +kernel) ?_
    intro t h
    have hlength := h.length_le
    revert hlength
    decide +kernel

end CLex
