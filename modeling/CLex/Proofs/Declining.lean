import CLex.Proofs.Finishing
import CLex.Proofs.Headers
import CLex.Proofs.Isolation
import CLex.Proofs.Rereading
import CLex.Proofs.Termination

namespace CLex

open Character Lexer LexM

namespace Stream

theorem files_readAcross {s : Stream} (h : s.files ≠ []) : s.readAcross.2.files ≠ [] := by
  have keeps : ∀ {t t' : Stream} {c : Option UInt8}, t.files ≠ [] → t.readChar = (c, t') →
      t'.files ≠ [] := by
    intro t t' c ht hread hnil
    have hlen := length_files_readChar t
    rw [hread, hnil] at hlen
    exact ht (List.length_eq_zero_iff.mp hlen.symm)
  fun_induction readAcross s with
  | case1 s c s₁ hread => exact keeps h hread
  | case2 s s₁ hread hlast => exact keeps h hread
  | case3 s s₁ hread hdeep ih =>
      apply ih
      rw [files_drop]
      intro hnil
      have hlen := congrArg List.length hnil
      rw [List.length_tail, List.length_nil] at hlen
      omega

end Stream

namespace Lexer

/-- Looking at the next character leaves the lexer as it is. -/
inductive Rests (lx : Lexer) : Prop
  | ended (next : next? lx = .ok none lx)
  | ahead {c : UInt8} {lx₁ : Lexer} (next : next? lx = .ok (some c) lx₁)
      (back : unread c lx₁ = .ok () lx)

variable {lx lx₁ lx' : Lexer} {c : UInt8} {p : UInt8 → Bool}

theorem next?_eq_ok {d : Option UInt8} (h : next? lx = .ok d lx') :
    lx.stream.readAcross = (d, lx'.stream) ∧ lx' = { lx with stream := lx'.stream } := by
  rw [show next? lx = .ok lx.stream.readAcross.1 { lx with stream := lx.stream.readAcross.2 } from
    rfl] at h
  cases h
  exact ⟨rfl, rfl⟩

theorem next?_of_read {d : Option UInt8} {stream : Stream}
    (h : lx.stream.readAcross = (d, stream)) : next? lx = .ok d { lx with stream } := by
  rw [show next? lx = .ok lx.stream.readAcross.1 { lx with stream := lx.stream.readAcross.2 } from
    rfl, h]

theorem unread_eq_ok (h : unread c lx = .ok () lx') :
    lx.stream.unread c = .ok lx'.stream ∧ lx' = { lx with stream := lx'.stream } := by
  unfold unread at h
  split at h
  · next stream hstream =>
    cases h
    exact ⟨hstream, rfl⟩
  · cases h

theorem settled_next? {d : Option UInt8} (h : next? lx = .ok d lx') : lx'.stream.Settled := by
  have hsettled := Stream.settled_readAcross lx.stream
  rw [(next?_eq_ok h).1] at hsettled
  exact hsettled

theorem Rests.settled (h : Rests lx) : lx.stream.Settled := by
  cases h with
  | ended next => exact settled_next? next
  | ahead next back => exact (settled_next? next).unread (unread_eq_ok back).1

theorem next?_again (hnext : next? lx = .ok none lx') : next? lx' = .ok none lx' :=
  next?_of_read (Stream.readAcross_of_readAcross_none (next?_eq_ok hnext).1)

theorem next?_unread (hnext : next? lx = .ok (some c) lx₁) (hback : unread c lx₁ = .ok () lx') :
    next? lx' = .ok (some c) lx₁ := by
  rcases next?_eq_ok hnext with ⟨hread, h₁⟩
  rcases unread_eq_ok hback with ⟨hunread, h'⟩
  rw [next?_of_read (Stream.readAcross_unread hread hunread), h', h₁]

theorem next?_unread_of_ne (h : Rests lx) (hline : c ≠ newline) (hpair : c ≠ backslash)
    (hback : unread c lx = .ok () lx') : next? lx' = .ok (some c) lx := by
  rcases unread_eq_ok hback with ⟨hunread, h'⟩
  rw [next?_of_read (Stream.readAcross_unread_of_ne h.settled hline hpair hunread), h']

theorem takeIf_cases {d : Option UInt8} (h : takeIf p lx = .ok d lx') :
    (d = none ∧ next? lx = .ok none lx') ∨
      (∃ c, d = some c ∧ p c = true ∧ next? lx = .ok (some c) lx') ∨
      ∃ c lx₁, d = none ∧ p c = false ∧ next? lx = .ok (some c) lx₁ ∧
        unread c lx₁ = .ok () lx' := by
  rcases bind_eq_ok.mp h with ⟨e, lx₁, hnext, h⟩
  cases e with
  | none =>
      rcases pure_eq_ok.mp h with ⟨rfl, rfl⟩
      exact Or.inl ⟨rfl, hnext⟩
  | some c =>
      dsimp only at h
      split at h
      · next hp =>
        rcases pure_eq_ok.mp h with ⟨rfl, rfl⟩
        exact Or.inr (Or.inl ⟨c, rfl, hp, hnext⟩)
      · next hp =>
        rcases bind_eq_ok.mp h with ⟨_, lx₂, hback, h⟩
        rcases pure_eq_ok.mp h with ⟨rfl, rfl⟩
        exact Or.inr (Or.inr ⟨c, lx₁, rfl, by simpa using hp, hnext, hback⟩)

theorem takeIf_of_next (hnext : next? lx = .ok (some c) lx₁) (hp : p c = false)
    (hback : unread c lx₁ = .ok () lx') : takeIf p lx = .ok none lx' := by
  rw [takeIf, bind_of_ok hnext]
  dsimp only
  rw [if_neg (by simp [hp]), bind_of_ok hback]
  rfl

theorem takeIf_again (h : takeIf p lx = .ok none lx') :
    Rests lx' ∧ takeIf p lx' = .ok none lx' := by
  rcases takeIf_cases h with ⟨-, hnext⟩ | ⟨c, hd, -⟩ | ⟨c, lx₁, -, hp, hnext, hback⟩
  · refine ⟨.ended (next?_again hnext), ?_⟩
    rw [takeIf, bind_of_ok (next?_again hnext)]
    rfl
  · cases hd
  · have hnext' := next?_unread hnext hback
    exact ⟨.ahead hnext' hback, takeIf_of_next hnext' hp hback⟩

theorem Rests.takeIf_none (h : Rests lx) (hnone : takeIf p lx = .ok none lx') : lx' = lx := by
  rcases takeIf_cases hnone with ⟨-, hnext⟩ | ⟨c, hd, -⟩ | ⟨c, lx₁, -, -, hnext, hback⟩
  · cases h with
    | ended next => cases next.symm.trans hnext; rfl
    | ahead next => cases next.symm.trans hnext
  · cases hd
  · cases h with
    | ended next => cases next.symm.trans hnext
    | ahead next back =>
        cases next.symm.trans hnext
        cases back.symm.trans hback
        rfl

theorem skipIf_eq_false (h : skipIf c lx = .ok false lx') : takeIf (· == c) lx = .ok none lx' := by
  rcases bind_eq_ok.mp h with ⟨d, lx₁, htake, h⟩
  cases d with
  | none =>
      rcases pure_eq_ok.mp h with ⟨-, rfl⟩
      exact htake
  | some d => cases h

theorem skipIf_of_takeIf (h : takeIf (· == c) lx = .ok none lx') : skipIf c lx = .ok false lx' := by
  rw [skipIf, bind_of_ok h]
  rfl

theorem Rests.skipIf_false (h : Rests lx) (hfalse : skipIf c lx = .ok false lx') : lx' = lx :=
  h.takeIf_none (skipIf_eq_false hfalse)

theorem skipIf_again (h : skipIf c lx = .ok false lx') :
    Rests lx' ∧ skipIf c lx' = .ok false lx' := by
  rcases takeIf_again (skipIf_eq_false h) with ⟨hrests, hagain⟩
  exact ⟨hrests, skipIf_of_takeIf hagain⟩

theorem skipBlank_slash (hnext : next? lx = .ok (some (byte '/')) lx₁)
    (hfalse : skipBlank lx = .ok false lx') :
    ∃ lx₂, skipIf (byte '*') lx₁ = .ok false lx₂ ∧ skipIf (byte '/') lx₂ = .ok false lx₂ ∧
      unread (byte '/') lx₂ = .ok () lx' := by
  rw [skipBlank, bind_of_ok hnext] at hfalse
  dsimp only at hfalse
  rw [if_neg (by decide), if_pos rfl] at hfalse
  rcases bind_eq_ok.mp hfalse with ⟨star, lx₂, hstar, hfalse⟩
  cases star with
  | true =>
      rw [if_pos rfl] at hfalse
      rcases bind_eq_ok.mp hfalse with ⟨_, _, -, hpure⟩
      cases hpure
  | false =>
      rw [if_neg (by simp)] at hfalse
      rcases bind_eq_ok.mp hfalse with ⟨slash, lx₃, hslash, hfalse⟩
      cases slash with
      | true =>
          rw [if_pos rfl] at hfalse
          rcases bind_eq_ok.mp hfalse with ⟨_, _, -, hpure⟩
          cases hpure
      | false =>
          rw [if_neg (by simp)] at hfalse
          rcases bind_eq_ok.mp hfalse with ⟨_, lx₄, hback, hpure⟩
          rcases pure_eq_ok.mp hpure with ⟨-, rfl⟩
          have hsame := (skipIf_again hstar).1.skipIf_false hslash
          subst hsame
          exact ⟨lx₃, hstar, hslash, hback⟩

/-- Where no blank begins, the lexer comes to rest, and none begins there either. -/
theorem skipBlank_again (hfalse : skipBlank lx = .ok false lx') :
    Rests lx' ∧ skipBlank lx' = .ok false lx' := by
  rcases bind_eq_ok.mp hfalse with ⟨d, lx₁, hnext, hrest⟩
  cases d with
  | none =>
      rcases pure_eq_ok.mp hrest with ⟨-, rfl⟩
      have hagain := next?_again hnext
      refine ⟨.ended hagain, ?_⟩
      rw [skipBlank, bind_of_ok hagain]
      rfl
  | some c =>
      by_cases hslash : c = byte '/'
      · subst hslash
        rcases skipBlank_slash hnext hfalse with ⟨lx₂, hstar, hslash, hback⟩
        rcases skipIf_again hstar with ⟨hrests, hstar'⟩
        have hnext' := next?_unread_of_ne hrests (by decide) (by decide) hback
        refine ⟨.ahead hnext' hback, ?_⟩
        rw [skipBlank, bind_of_ok hnext']
        dsimp only
        rw [if_neg (by decide), if_pos rfl, bind_of_ok hstar', if_neg (by simp),
          bind_of_ok hslash, if_neg (by simp), bind_of_ok hback]
        rfl
      · dsimp only at hrest
        split at hrest
        · cases hrest
        · next hblank =>
          rcases bind_eq_ok.mp hrest with ⟨_, lx₂, hback, hpure⟩
          rcases pure_eq_ok.mp hpure with ⟨-, rfl⟩
          have hnext' := next?_unread hnext hback
          refine ⟨.ahead hnext' hback, ?_⟩
          rw [skipBlank, bind_of_ok hnext']
          dsimp only
          rw [if_neg hblank, if_neg hslash, bind_of_ok hback]
          rfl

theorem skipBlanks_again {spaced : Bool} (h : skipBlanks lx = .ok spaced lx') :
    Rests lx' ∧ skipBlanks lx' = .ok false lx' := by
  have hlast : Rests lx' ∧ skipBlank lx' = .ok false lx' := by
    refine loop_induction (fun _ _ _ lx' => Rests lx' ∧ skipBlank lx' = .ok false lx') ?_ ?_ h
    · intro a lx r lx' hround
      rcases bind_eq_ok.mp hround with ⟨skipped, lx₁, hblank, hdone⟩
      cases skipped with
      | true => cases hdone
      | false =>
          rcases pure_eq_ok.mp hdone with ⟨-, rfl⟩
          exact skipBlank_again hblank
    · intro a lx b lx' r lx'' _ ih
      exact ih
  refine ⟨hlast.1, ?_⟩
  rw [skipBlanks, loop_eq, blankRound, bind_of_ok hlast.2]
  rfl

/-- There is a source to read, and a token began at the mark. -/
def Begun (mark : Int × Int) (lx : Lexer) : Prop :=
  lx.mark = mark ∧ lx.stream.files ≠ []

theorem place?_of_files (h : lx.stream.files ≠ []) :
    ∃ place, CharStream.place? lx.stream = some place := by
  cases hfiles : lx.stream.files with
  | nil => exact absurd hfiles h
  | cons top below =>
      refine ⟨top.location, ?_⟩
      show (lx.stream.files.head?).map Source.location = _
      rw [hfiles]
      rfl

theorem ending_begun (mark : Int × Int) :
    Ending (Begun mark) fun t lx => (t.line, t.column) = mark ∧ Begun mark lx where
  next := by
    refine leads_of_ok fun lx h => ⟨_, _, rfl, h.1, Stream.files_readAcross h.2⟩
  unread := by
    intro c lx h
    cases hback : unread c lx with
    | ok _ lx' =>
        rcases unread_eq_ok hback with ⟨hunread, h'⟩
        rcases Stream.unread_eq_ok hunread with ⟨top, below, -, hstream⟩
        rw [h', hstream]
        exact ⟨h.1, by simp⟩
    | error f lx' =>
        unfold unread at hback
        split at hback
        · cases hback
        · cases hback
          exact h
  warn := fun location text => leads_warn_of (fun _ h _ _ => h) fun _ _ _ h => h
  finish := by
    refine fun lexeme encoding => leads_of_ok fun lx h => ?_
    rcases place?_of_files h.2 with ⟨place, hplace⟩
    unfold finish
    rw [hplace]
    refine ⟨_, _, rfl, h.1, h.1, ?_⟩
    show lx.stream.draw.2.files ≠ []
    unfold Stream.draw
    split
    · next hnil => exact absurd hnil h.2
    · simp
  keeps := fun h => h.2

theorem files_skipBlanks {spaced : Bool} (hne : lx.stream.files ≠ [])
    (h : skipBlanks lx = .ok spaced lx') : lx'.stream.files ≠ [] :=
  ((ending_begun lx.mark).blankRules.rel_skipBlanks.ok ⟨rfl, hne⟩ h).2

theorem column_token (hne : lx.stream.files ≠ []) {t : Token} (h : token lx = .ok t lx') :
    t.column = (CharStream.location lx.stream).column := by
  rcases place?_of_files hne with ⟨place, hplace⟩
  have hmark : setMark lx = .ok () { lx with mark := (place.line, place.column) } := by
    rw [setMark, hplace]
  rw [token, bind_of_ok hmark] at h
  have hbegun : Begun (place.line, place.column) { lx with mark := (place.line, place.column) } :=
    ⟨rfl, hne⟩
  have hcolumn := ((ending_begun _).leads_marked_token.ok hbegun h).1
  rw [Prod.mk.injEq] at hcolumn
  rw [hcolumn.2, CharStream.location, hplace]
  rfl

theorem headerUpTo_ne_none {start : Location} {close : UInt8} {system : Bool} :
    ¬ headerUpTo start close system lx = .ok none lx' := by
  intro h
  rcases bind_eq_ok.mp h with ⟨name, lx₁, -, h⟩
  split at h
  · exact throw_ne_ok h
  · cases h

theorem headerName?_none (hpending : lx.pending = [[]]) (h : headerName? lx = .ok none lx') :
    lx.stream.files ≠ [] ∧ ∃ spaced, skipBlanks lx = .ok spaced lx' := by
  rw [headerName?_eq hpending] at h
  cases hplace : CharStream.place? lx.stream with
  | none =>
      have hsource : needSource lx = .error .nothingThere lx := by rw [needSource, hplace]
      rw [headerHere?, bind_of_error hsource] at h
      cases h
  | some place =>
      have hsource : needSource lx = .ok () lx := by rw [needSource, hplace]
      have hne : lx.stream.files ≠ [] := by
        intro hnil
        rw [show CharStream.place? lx.stream = lx.stream.files.head?.map Source.location from rfl,
          hnil] at hplace
        cases hplace
      rw [headerHere?, bind_of_ok hsource] at h
      rcases bind_eq_ok.mp h with ⟨spaced, lx₁, hblanks, hname⟩
      have hrests := (skipBlanks_again hblanks).1
      rcases bind_eq_ok.mp hname with ⟨start, lx₂, hhere, hname⟩
      cases hhere
      rcases bind_eq_ok.mp hname with ⟨quoted, lx₃, hquote, hname⟩
      cases quoted with
      | true => exact (headerUpTo_ne_none hname).elim
      | false =>
          cases hrests.skipIf_false hquote
          rcases bind_eq_ok.mp hname with ⟨angled, lx₄, hangle, hname⟩
          cases angled with
          | true => exact (headerUpTo_ne_none hname).elim
          | false =>
              cases hrests.skipIf_false hangle
              rcases pure_eq_ok.mp hname with ⟨-, rfl⟩
              exact ⟨hne, spaced, hblanks⟩

theorem ok_of_run' {σ α : Type} {m : LexOn σ α} {lx : Lexer σ} {a : α} (h : m.run' lx = some a) :
    m lx = .ok a (lx.after m) := by
  delta EStateM.run' EStateM.run at h
  unfold after
  cases hm : m lx with
  | ok b lx' =>
      rw [hm] at h
      cases h
      rfl
  | error f lx' =>
      rw [hm] at h
      cases h

theorem headerName?_pending (hpending : lx.pending ≠ [[]]) (h : headerName? lx = .ok none lx') :
    lx' = lx := by
  have hget : (get : LexM Lexer) lx = .ok lx lx := rfl
  rw [headerName?, bind_of_ok hget, if_neg hpending] at h
  exact (pure_eq_ok.mp h).2.symm

end Lexer

/-- The token as it is given when the blanks before it have been passed already. -/
def Token.passed (t : Token) : Token :=
  { t with spaced := false, startsLine := t.column == 1 }

theorem Token.passed_eq_self_iff {t : Token} :
    t.passed = t ↔ t.spaced = false ∧ (t.startsLine = true ↔ t.column = 1) := by
  cases t with
  | mk lexeme encoding file line column index spaced startsLine =>
      cases spaced <;> cases startsLine <;> simp [passed]

namespace Lexer

variable {lx lx' : Lexer}

theorem freshToken_eq (hne : lx.stream.files ≠ []) :
    freshToken lx =
      (do
        let spaced ← skipBlanks
        let t ← token
        pure { t with
          spaced, startsLine := (CharStream.location lx.stream).column == 1 }) lx := by
  rcases place?_of_files hne with ⟨place, hplace⟩
  have hsource : needSource lx = .ok () lx := by rw [needSource, hplace]
  rw [freshToken, bind_of_ok hsource]
  rfl

/-- Behind the blanks the same token is read as before them. -/
theorem freshToken_passed {spaced : Bool} (hne : lx.stream.files ≠ [])
    (h : skipBlanks lx = .ok spaced lx') :
    freshToken lx' =
      match freshToken lx with
      | .ok t lx₁ => .ok t.passed lx₁
      | .error f lx₁ => .error f lx₁ := by
  have hne' := files_skipBlanks hne h
  rw [freshToken_eq hne, freshToken_eq hne', bind_of_ok h, bind_of_ok (skipBlanks_again h).2]
  cases htoken : token lx' with
  | ok t lx₁ =>
      have hcolumn := column_token hne' htoken
      rw [bind_of_ok htoken, bind_of_ok htoken, ← hcolumn]
      rfl
  | error f lx₁ => rw [bind_of_error htoken, bind_of_error htoken]

theorem pending_skipBlanks {spaced : Bool} (h : skipBlanks lx = .ok spaced lx') :
    lx'.pending = lx.pending := by
  have hrun := ignoresPending_rules.toBlankRules.rel_skipBlanks.pending_eq lx
  rw [h] at hrun
  exact hrun

theorem nextToken_declined (hpending : lx.pending = [[]]) (h : headerName? lx = .ok none lx') :
    nextToken lx' = (Token.passed <$> nextToken) lx := by
  rcases headerName?_none hpending h with ⟨hne, spaced, hblanks⟩
  have hpending' : lx'.pending = [[]] := (pending_skipBlanks hblanks).trans hpending
  rw [nextToken_fresh hpending', freshToken_passed hne hblanks]
  show _ = EStateM.map _ _ lx
  rw [EStateM.map, nextToken_fresh hpending]
  cases freshToken lx <;> rfl

theorem nextTokens_declined (hpending : lx.pending = [[]]) (h : headerName? lx = .ok none lx')
    (n : Nat) :
    (nextTokens lx' n).1 = (nextTokens lx n).1.modifyHead (Option.map Token.passed) := by
  have hnext : nextToken lx' = EStateM.map Token.passed nextToken lx :=
    nextToken_declined hpending h
  cases n with
  | zero => rfl
  | succ n =>
      rw [nextTokens_cons, nextTokens_cons, hnext, EStateM.map]
      cases nextToken lx <;> rfl

end Lexer

/-- If no header name is there, a lexer with pending tokens is left as it is. Any other one gives
the same tokens and failures from then on, except that the next token has not seen the blanks before
it: it is not spaced, and it starts a line just if it stands in the first column. -/
theorem headerName_declined {lx lx' : Lexer} (h : headerName? lx = .ok none lx') :
    (lx.pending ≠ [[]] → lx' = lx) ∧
      (lx.pending = [[]] → nextToken lx' = (Token.passed <$> nextToken) lx ∧
        ∀ n, (nextTokens lx' n).1 =
          (nextTokens lx n).1.modifyHead (Option.map Token.passed)) ∧
      (∀ n, (nextTokens lx' n).1 = (nextTokens lx n).1 ↔
        (lx.pending = [[]] → ∀ t, (nextTokens lx n).1.head? = some (some t) →
          t.spaced = false ∧ (t.startsLine = true ↔ t.column = 1))) := by
  refine ⟨fun hpending => headerName?_pending hpending h, fun hpending =>
    ⟨nextToken_declined hpending h, nextTokens_declined hpending h⟩, fun n => ?_⟩
  by_cases hpending : lx.pending = [[]]
  · rw [nextTokens_declined hpending h n]
    cases (nextTokens lx n).1 with
    | nil => simp
    | cons t ts => cases t <;> simp [hpending, Token.passed_eq_self_iff]
  · rw [headerName?_pending hpending h]
    simp [hpending]

theorem headerName_declined_comment :
    let text := Utf8.encode "#include/**/ NAME\n"
    let lx := (nextTokens (Lexer.ofStream (Stream.ofSources [.ofBytes "t.c" text])) 2).2
    ∃ lx', headerName? lx = .ok none lx' ∧ nextToken lx' = (Token.passed <$> nextToken) lx ∧
      ((nextTokens lx' 3).1.map (Option.map Token.gist) =
        [some (.ident "NAME", .plain, false), some (.newline, .plain, false),
          some (.eof, .plain, false)]) := by
  intro text lx
  have hnone : headerName? lx = .ok none (lx.after headerName?) :=
    ok_of_run' (by decide +kernel)
  have hdeclined := headerName_declined hnone
  refine ⟨_, hnone, (hdeclined.2.1 (by decide +kernel)).1, ?_⟩
  rw [(hdeclined.2.1 (by decide +kernel)).2]
  decide +kernel

/-- A name with a blank before it at the beginning of a source. Asking for a header name gives none,
and then the name neither starts the line nor has a blank before it. -/
theorem headerName_declined_blank :
    let lx := Lexer.ofStream (Stream.ofSources [.ofBytes "t.c" (Utf8.encode " FOO")])
    let asked := lx.after headerName?
    headerName?.run' lx = some none ∧
      (nextToken.run' lx).map (fun t => (t.lexeme, t.spaced, t.startsLine)) =
        some (.ident "FOO", true, true) ∧
      (nextToken.run' asked).map (fun t => (t.lexeme, t.spaced, t.startsLine)) =
        some (.ident "FOO", false, false) := by
  decide +kernel

end CLex
