import CLex.Lexer.Conditional
import CLex.Proofs.Taking

namespace CLex

open Character Lexer Lines Reading Placing

namespace Skipping

/-- The lexer stands before this rest of the text. -/
def At (sheet : Sheet) (rest : List UInt8) (s : Lexer Book) : Prop :=
  ∃ read p, Stands sheet read [] s p ∧ p.rest = rest

/-- The rounds that pass over a group, with `depth` conditionals open inside it. -/
abbrev group (depth : Nat) : LexOn Book Unit :=
  LexM.loop groupRound progress_groupRound depth

variable {sheet : Sheet} {read rest text : List UInt8} {s t t₁ : Lexer Book} {p : Page} {c : UInt8}
  {depth : Nat} {spaced : Bool}

theorem at_of_stands {cs : List UInt8} (h : Stands sheet read cs s p) : At sheet p.rest s :=
  ⟨read, p, h.mono List.nil_prefix, rfl⟩

theorem At.next (h : At sheet (c :: rest) s) :
    ∃ s', next? s = .ok (some c) s' ∧ At sheet rest s' := by
  rcases h with ⟨read, p, h, hp⟩
  rcases h.next hp with ⟨hs, h'⟩
  exact ⟨_, hs, by simpa using at_of_stands h'⟩

theorem At.next_none (h : At sheet [] s) : next? s = .ok none s := by
  rcases h with ⟨read, p, h, hp⟩
  exact next?_end h.pages hp

theorem stands_look (h : Stands sheet read [] s p) :
    Stands sheet read [] (s.withPages [p.look]) p.look := by
  refine h.turn ⟨?_, h.placed.latest, ?_, ?_⟩
  · rw [Page.rest_look]
    exact h.placed.text_eq
  · unfold Page.look
    split <;> exact h.placed.line
  · rw [Page.rest_look]
    unfold Page.look
    split
    · next hhead =>
      cases hp : p.rest with
      | nil => simp [hp] at hhead
      | cons c rest =>
          rw [hp, List.head?_cons, Option.some.injEq] at hhead
          exact Or.inr ⟨[], rest, by rw [hhead]; rfl, by simp⟩
    · exact h.placed.column

theorem At.skipBlanks (h : At sheet (c :: rest) s) (hblank : isBlank c.toNat = false)
    (hslash : c ≠ byte '/') :
    ∃ s', Lexer.skipBlanks s = .ok false s' ∧ At sheet (c :: rest) s' := by
  rcases h with ⟨read, p, h, hp⟩
  refine ⟨_, skipBlanks_cons h.pages h.settled hp hblank hslash, ?_⟩
  rw [← hp, ← Page.rest_look p]
  exact at_of_stands (stands_look h)

theorem skipStringLiteral_body (body : StringBody text rest) (h : At sheet text t) :
    ∃ t', skipStringLiteral t = .ok () t' ∧ At sheet rest t' := by
  induction body generalizing t with
  | close rest =>
      rcases h.next with ⟨t₁, ht, h₁⟩
      refine ⟨t₁, ?_, h₁⟩
      rw [skipStringLiteral, LexM.loop_eq, quoteRound, LexM.bind_of_ok ht]
      rfl
  | plain hquote hc body ih =>
      rcases h.next with ⟨t₁, ht, h₁⟩
      rcases ih h₁ with ⟨t', hskip, h'⟩
      refine ⟨t', ?_, h'⟩
      rw [skipStringLiteral, LexM.loop_eq, quoteRound, LexM.bind_of_ok ht]
      dsimp only
      rw [if_neg hquote, if_neg hc]
      exact hskip
  | escape body ih =>
      rcases h.next with ⟨t₁, ht, h₁⟩
      rcases h₁.next with ⟨t₂, ht₂, h₂⟩
      rcases ih h₂ with ⟨t', hskip, h'⟩
      refine ⟨t', ?_, h'⟩
      rw [skipStringLiteral, LexM.loop_eq, quoteRound, LexM.bind_of_ok ht]
      dsimp only
      rw [if_neg (by decide), if_pos rfl, LexM.bind_of_ok ht₂]
      exact hskip

theorem loop_close {close : UInt8} (hrun : Run (· ≠ close) text (close :: rest))
    (h : At sheet text t) :
    ∃ t', LexM.loop (closeRound close) (progress_closeRound close) () t = .ok () t' ∧
      At sheet rest t' := by
  rcases hrun with ⟨w, rfl, hw⟩
  induction w generalizing t with
  | nil =>
      rcases h.next with ⟨t₁, ht, h₁⟩
      refine ⟨t₁, ?_, h₁⟩
      rw [LexM.loop_eq, closeRound, LexM.bind_of_ok ht]
      dsimp only
      rw [if_pos rfl]
      rfl
  | cons d w ih =>
      rcases h.next with ⟨t₁, ht, h₁⟩
      rcases ih (fun e he => hw e (List.mem_cons_of_mem d he)) h₁ with ⟨t', hskip, h'⟩
      refine ⟨t', ?_, h'⟩
      rw [LexM.loop_eq, closeRound, LexM.bind_of_ok ht]
      dsimp only
      rw [if_neg (hw d List.mem_cons_self)]
      exact hskip

theorem skipCharLiteral_quoted (quoted : Quoted (singleQuote :: text) rest) (h : At sheet text t) :
    ∃ t', skipCharLiteral t = .ok () t' ∧ At sheet rest t' := by
  generalize htext : singleQuote :: text = whole at quoted
  cases quoted with
  | string body => exact absurd (List.cons.inj htext).1 (by decide)
  | char hc rest =>
      rcases List.cons.inj htext with ⟨-, rfl⟩
      rcases h.next with ⟨t₁, ht, h₁⟩
      rcases loop_close ⟨[], rfl, by simp⟩ h₁ with ⟨t', hskip, h'⟩
      refine ⟨t', ?_, h'⟩
      rw [skipCharLiteral, LexM.bind_of_ok ht, if_neg (by simpa using hc)]
      exact hskip
  | escape body =>
      rcases List.cons.inj htext with ⟨-, rfl⟩
      rcases h.next with ⟨t₁, ht, h₁⟩
      rcases h₁.next with ⟨t₂, ht₂, h₂⟩
      rcases loop_close body h₂ with ⟨t', hskip, h'⟩
      refine ⟨t', ?_, h'⟩
      rw [skipCharLiteral, LexM.bind_of_ok ht, if_pos rfl, LexM.bind_of_ok ht₂]
      exact hskip

theorem skipLine_line {w : List UInt8} (hw : newline ∉ w)
    (h : At sheet (w ++ newline :: rest) t) :
    ∃ t', skipLine t = .ok () t' ∧ At sheet (newline :: rest) t' := by
  induction w generalizing t with
  | nil =>
      rcases h with ⟨read, p, h, hp⟩
      rcases h.next hp with ⟨ht, h₁⟩
      rcases h₁.unread (by decide) with ⟨before, -, hput, h₂⟩
      refine ⟨_, ?_, by simpa using at_of_stands h₂⟩
      rw [skipLine, LexM.loop_eq, lineRound, LexM.bind_of_ok ht]
      dsimp only
      rw [if_pos rfl, LexM.bind_of_ok hput]
      rfl
  | cons c w ih =>
      rcases h.next with ⟨t₁, ht, h₁⟩
      rw [List.mem_cons, not_or] at hw
      rcases ih hw.2 h₁ with ⟨t', hskip, h'⟩
      refine ⟨t', ?_, h'⟩
      rw [skipLine, LexM.loop_eq, lineRound, LexM.bind_of_ok ht]
      dsimp only
      rw [if_neg (Ne.symm hw.1)]
      exact hskip

theorem group_again {deeper : Nat} (h : groupRound depth t = .ok (.again deeper) t₁) :
    group depth t = group deeper t₁ := by
  rw [group, LexM.loop_eq, h]

theorem groupRound_eq {t₂ : Lexer Book} (hblanks : skipBlanks t = .ok spaced t₁)
    (hnext : next? t₁ = .ok (some c) t₂) (depth : Nat) :
    groupRound depth t = groupFrom ((CharStream.location t.stream).column == 1) depth c t₂ := by
  rw [groupRound, LexM.bind_of_ok (show isAtLineStart t = .ok _ t from rfl),
    LexM.bind_of_ok hblanks, LexM.bind_of_ok hnext]

theorem pass_char (hblanks : skipBlanks t = .ok spaced t₁) (h : At sheet (c :: rest) t₁)
    (hc : c ≠ doubleQuote ∧ c ≠ singleQuote)
    (hhash : c = byte '#' → (CharStream.location t.stream).column ≠ 1) (depth : Nat) :
    ∃ t', At sheet rest t' ∧ group depth t = group depth t' := by
  rcases h.next with ⟨t₂, hnext, h₂⟩
  refine ⟨t₂, h₂, group_again ?_⟩
  rw [groupRound_eq hblanks hnext, groupFrom, if_neg hc.2, if_neg hc.1, if_neg]
  · rfl
  · exact fun hdirective => hhash hdirective.1 (by simpa using hdirective.2)

theorem pass_literal (hblanks : skipBlanks t = .ok spaced t₁) (h : At sheet text t₁)
    (quoted : Quoted text rest) (depth : Nat) :
    ∃ t', At sheet rest t' ∧ group depth t = group depth t' := by
  have char : ∀ {text' : List UInt8}, text = singleQuote :: text' →
      ∃ t', At sheet rest t' ∧ group depth t = group depth t' := by
    rintro text' rfl
    rcases h.next with ⟨t₂, hnext, h₂⟩
    rcases skipCharLiteral_quoted quoted h₂ with ⟨t', hskip, h'⟩
    refine ⟨t', h', group_again ?_⟩
    rw [groupRound_eq hblanks hnext, groupFrom, if_pos rfl, LexM.bind_of_ok hskip]
    rfl
  cases quoted with
  | string body =>
      rcases h.next with ⟨t₂, hnext, h₂⟩
      rcases skipStringLiteral_body body h₂ with ⟨t', hskip, h'⟩
      refine ⟨t', h', group_again ?_⟩
      rw [groupRound_eq hblanks hnext, groupFrom, if_neg (by decide), if_pos rfl,
        LexM.bind_of_ok hskip]
      rfl
  | char => exact char rfl
  | escape => exact char rfl

theorem pass_run (hrun : Run Inert text rest) (h : At sheet text t) (depth : Nat) :
    ∃ t', At sheet rest t' ∧ group depth t = group depth t' := by
  rcases hrun with ⟨w, rfl, hw⟩
  induction w generalizing t with
  | nil => exact ⟨t, h, rfl⟩
  | cons c w ih =>
      have hc : Inert c := hw c List.mem_cons_self
      rcases h.skipBlanks hc.not_isBlank (hc.ne (by decide)) with ⟨t₁, hblanks, h₁⟩
      rcases pass_char hblanks h₁ ⟨hc.ne (by decide), hc.ne (by decide)⟩
        (fun heq => absurd heq (hc.ne (by decide))) depth with ⟨t₂, h₂, hgroup⟩
      rcases ih (fun d hd => hw d (List.mem_cons_of_mem c hd)) h₂ with ⟨t', h', hgroup'⟩
      exact ⟨t', h', hgroup.trans hgroup'⟩

theorem inert_of_mem_table {w : List UInt8} {p : Punctuator}
    (hp : (c :: w, p) ∈ Punctuator.table) (hc : c ≠ byte '#') :
    (c ≠ doubleQuote ∧ c ≠ singleQuote) ∧ ∀ d ∈ w, Inert d := by
  have htable : ∀ e ∈ Punctuator.table, e.1.head? ≠ some (byte '#') →
      (e.1.head? ≠ some doubleQuote ∧ e.1.head? ≠ some singleQuote) ∧
        ∀ d ∈ e.1.tail, Inert d := by
    decide +kernel
  simpa using htable _ hp (by simpa using hc)

/-- Any token but one that begins with a `#` is passed over as it was read. -/
theorem pass_token {lexeme : Lexeme} (hblanks : skipBlanks t = .ok spaced t₁)
    (h : At sheet (c :: text) t₁) (hhash : c ≠ byte '#') (written : Written c text lexeme rest)
    (depth : Nat) : ∃ t', At sheet rest t' ∧ group depth t = group depth t' := by
  have word : c ≠ doubleQuote ∧ c ≠ singleQuote → ∀ {rest : List UInt8}, Run Inert text rest →
      ∃ t', At sheet rest t' ∧ group depth t = group depth t' := by
    intro hquote rest hrun
    rcases pass_char hblanks h hquote (fun heq => absurd heq hhash) depth with ⟨t₂, h₂, hgroup⟩
    rcases pass_run hrun h₂ depth with ⟨t', h', hgroup'⟩
    exact ⟨t', h', hgroup.trans hgroup'⟩
  cases written with
  | newline hc =>
      exact pass_char hblanks h (by rw [hc]; decide) (fun heq => absurd heq hhash) depth
  | word hfree _ hrun =>
      simp only [Free, List.mem_cons, not_or] at hfree
      exact word ⟨hfree.2.2.1, hfree.2.2.2.1⟩ hrun
  | spelled htext hp =>
      rcases inert_of_mem_table hp hhash with ⟨hquote, hinert⟩
      exact word hquote ⟨_, htext, hinert⟩
  | @literal _ start _ _ run quoted =>
      rcases run with ⟨w, htext, hw⟩
      cases w with
      | nil => exact pass_literal hblanks (by rw [htext] at h; exact h) quoted depth
      | cons d w =>
          rcases List.cons.inj htext with ⟨rfl, htail⟩
          have hd : Inert c := hw c List.mem_cons_self
          rcases word ⟨hd.ne (by decide), hd.ne (by decide)⟩
            ⟨w, htail, fun e he => hw e (List.mem_cons_of_mem c he)⟩ with ⟨t₂, h₂, hgroup⟩
          have hstart : ∃ q tail, start = q :: tail ∧ isBlank q.toNat = false ∧ q ≠ byte '/' := by
            cases quoted with
            | string => exact ⟨_, _, rfl, by decide, by decide⟩
            | char => exact ⟨_, _, rfl, by decide, by decide⟩
            | escape => exact ⟨_, _, rfl, by decide, by decide⟩
          rcases hstart with ⟨q, tail, rfl, hblank, hslash⟩
          rcases h₂.skipBlanks hblank hslash with ⟨t₃, hblanks₃, h₃⟩
          rcases pass_literal hblanks₃ h₃ quoted depth with ⟨t', h', hgroup'⟩
          exact ⟨t', h', hgroup.trans hgroup'⟩

theorem pass_newline (h : At sheet (newline :: rest) t) (depth : Nat) :
    ∃ t', At sheet rest t' ∧ group depth t = group depth t' := by
  rcases h.skipBlanks (by decide) (by decide) with ⟨t₁, hblanks, h₁⟩
  exact pass_char hblanks h₁ (by decide) (fun h => absurd h (by decide)) depth

theorem groupRound_hash {q : Page} (hblanks : skipBlanks t = .ok spaced t₁)
    (h : Stands sheet read [] t₁ q) (hq : q.rest = byte '#' :: rest)
    (hstart : (CharStream.location t.stream).column = 1) (depth : Nat) :
    ∃ hash t' q', groupRound depth t = directive hash depth t' ∧
      Stands sheet (read ++ [byte '#']) [] t' q' ∧ hash.place.line = q.line ∧
      hash.place.column = q.column := by
  rcases h.next hq with ⟨hnext, h'⟩
  generalize hadvance : { q with rest }.advance (byte '#') = q' at hnext h'
  let stream := (t₁.withPages [q']).stream
  refine ⟨⟨q'.location.back 1, (CharStream.draw stream).1, CharStream.depth stream⟩, _, q', ?_,
    h'.mono List.nil_prefix, ?_⟩
  · rw [groupRound_eq hblanks hnext, groupFrom, if_neg (by decide), if_neg (by decide),
      if_pos ⟨rfl, by simpa using hstart⟩, LexM.bind_of_ok (get_eq_ok.mpr ⟨rfl, rfl⟩),
      hashMark?, place?_pages h'.pages]
    rfl
  · have hhash : ¬ byte '#' = newline := by decide
    rw [← hadvance, Page.advance, if_neg hhash]
    exact ⟨rfl, Int.add_sub_cancel q.column 1⟩

theorem finish_ok (lexeme : Lexeme) (encoding : Encoding) (t : Lexer Book) :
    ∃ b t', finish lexeme encoding t = .ok b t' := by
  unfold finish
  split
  · exact ⟨_, _, rfl⟩
  · exact ⟨_, _, rfl⟩

theorem skipIf_ok {q : Page} (hpages : t.stream.pages = [q]) (hsettled : t.Settled q) (c : UInt8) :
    ∃ follows t', skipIf c t = .ok follows t' := by
  unfold skipIf
  cases hq : q.rest with
  | nil =>
      rw [LexM.bind_of_ok (takeIf_end hpages hq _)]
      exact ⟨_, _, rfl⟩
  | cons d rest =>
      have htake := takeIf_cons hpages hsettled hq (· == c)
      split at htake
      · rw [LexM.bind_of_ok htake]
        exact ⟨_, _, rfl⟩
      · rw [LexM.bind_of_ok htake]
        exact ⟨_, _, rfl⟩

theorem rep_hash_ok {q : Page} (hpages : t.stream.pages = [q]) (hsettled : t.Settled q) :
    ∃ punctuator t', rep '#' .hashHash .hash t = .ok punctuator t' := by
  rcases skipIf_ok hpages hsettled (byte '#') with ⟨follows, t', hskip⟩
  rw [rep, LexM.bind_of_ok hskip]
  cases follows with
  | true => exact ⟨_, _, rfl⟩
  | false => exact ⟨_, _, rfl⟩

theorem tokenFrom_hash {σ : Type} [CharStream σ] :
    tokenFrom (σ := σ) (byte '#') = (do
      let p ← rep '#' .hashHash .hash
      finish (.punctuator p)) := by
  rw [tokenFrom, if_neg (by decide), show encodingOf? (byte '#') = none by decide]
  dsimp only
  rw [if_neg (by decide), if_neg (by decide), if_neg (by decide), if_neg (by decide),
    if_neg (by decide)]
  rfl

theorem nextToken_hash_ok {q : Page} (h : Stands sheet read [] t q)
    (hq : q.rest = byte '#' :: rest) : ∃ b t', nextToken t = .ok b t' := by
  have hunjoined : Unjoined rest := by
    rcases h.opens with ⟨_, _, _, hunjoined⟩
    rw [hq] at hunjoined
    exact hunjoined.tail
  rcases rep_hash_ok
    (t := { t with mark := (q.look.line, q.look.column) }.withPages
      [{ q.look with rest }.advance (byte '#')]) rfl
    (fun _ => by rw [Page.rest_advance]; exact hunjoined) with ⟨punctuator, t₁, hrep⟩
  rcases finish_ok (.punctuator punctuator) .plain t₁ with ⟨b, t', hfinish⟩
  refine ⟨{ b with spaced := false, startsLine := q.column == 1 }, t', ?_⟩
  rw [nextToken, h.pending]
  dsimp only
  rw [freshToken_cons h.pages h.settled hq (by decide) (by decide), tokenFrom_hash, bind_assoc,
    LexM.bind_of_ok hrep, LexM.bind_of_ok hfinish]
  rfl

theorem At.skipBlanks_end (h : At sheet [] t) : Lexer.skipBlanks t = .ok false t :=
  Lexer.skipBlanks_end h.next_none

theorem group_end (hblanks : skipBlanks t = .ok spaced t₁) (h : At sheet [] t₁) (depth : Nat) :
    group depth t = .ok () t₁ := by
  rw [group, LexM.loop_eq, groupRound, LexM.bind_of_ok (show isAtLineStart t = .ok _ t from rfl),
    LexM.bind_of_ok hblanks, LexM.bind_of_ok h.next_none]
  rfl

end Skipping

end CLex
