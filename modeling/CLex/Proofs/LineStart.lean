import CLex.Proofs.Position

namespace CLex

open Character Lexer LexM Lines Tracking Position

/-- What the calls since the last newline token gave. -/
def sinceNewline (outcomes : List (Option Token)) : List (Option Token) :=
  outcomes.reverse.takeWhile fun outcome => outcome.all fun t => t.lexeme != .newline

/-- No token of the line has been given yet. -/
def FirstOnLine (outcomes : List (Option Token)) : Prop :=
  ∀ outcome ∈ sinceNewline outcomes, outcome = none

/-- What is left of the text comes directly behind a pair. -/
def BehindPair (text left : List UInt8) : Prop :=
  ∃ before rest, text = before ++ backslash :: newline :: rest ∧ left = join rest

theorem firstOnLine_iff {outcomes : List (Option Token)} (h : outcomes.getLast? ≠ some none) :
    FirstOnLine outcomes ↔ ∀ t, outcomes.getLast? = some (some t) → t.lexeme = .newline := by
  rcases List.eq_nil_or_concat' outcomes with rfl | ⟨before, last, rfl⟩
  · simp [FirstOnLine, sinceNewline]
  · rw [List.getLast?_concat] at h ⊢
    cases last with
    | none => exact absurd rfl h
    | some t =>
        by_cases ht : t.lexeme = .newline
        · simp [FirstOnLine, sinceNewline, ht]
        · simp [FirstOnLine, sinceNewline, ht]

namespace Tracking

variable {text cs stray : List UInt8} {c d : UInt8} {p : Page}

theorem Looked.column_newline (h : Looked text (newline :: cs) p) : p.column = 1 := by
  rcases h with ⟨_, h, before, mid, rfl, hmid, -⟩
  rcases h.column with hcolumn | ⟨hone, -⟩
  · by_cases hnil : mid = []
    · rw [hcolumn, hnil, placeAfter_newline]
    · rw [hcolumn, show before ++ newline :: mid = (before ++ [newline]) ++ mid by simp,
        column_pairs hmid hnil]
  · exact hone

theorem Looked.behindPair (h : Looked text (c :: cs) p) (hc : c ≠ newline) (hone : p.column = 1) :
    p.rest.head? = some newline ∨ BehindPair text (join p.rest) := by
  rcases h with ⟨_, h, before, mid, rfl, hmid, -⟩
  rcases h.column with hcolumn | ⟨-, hhead⟩
  · rcases pair_of_column hc hmid (hcolumn.symm.trans hone) with ⟨w, rfl⟩
    refine Or.inr ⟨before ++ c :: w, p.rest, ?_, rfl⟩
    rw [h.text_eq]
    simp
  · exact Or.inl hhead

theorem Behind.behindPair (h : Behind text d (c :: cs) p) (hc : c ≠ newline)
    (hone : p.column = 1) : BehindPair text (join p.rest) := by
  rcases h with ⟨hd, q, rfl, _, h, _, mid, rfl, hmid, before, mid', rfl, hmid', -⟩
  -- Putting the second character back leads to the first column only from the second one, so it
  -- began its line, and between it and the character before there is a pair.
  have htwo : q.column = 2 := by
    rw [Page.putBack, if_neg hd] at hone
    dsimp only at hone
    omega
  have hcolumn : q.column = (placeAfter ((before ++ c :: mid') ++ d :: mid)).2 := by
    rcases h.column with hcolumn | ⟨hone, -⟩
    · exact hcolumn
    · omega
  have hmid_nil : mid = [] := by
    by_contra hnil
    rw [show (before ++ c :: mid') ++ d :: mid = (before ++ c :: mid' ++ [d]) ++ mid by simp,
      column_pairs hmid hnil] at hcolumn
    omega
  subst hmid_nil
  rw [placeAfter_snoc, Lines.pass, if_neg hd] at hcolumn
  have hbegins : (placeAfter (before ++ c :: mid')).2 = 1 := by
    dsimp only at hcolumn
    omega
  rcases pair_of_column hc hmid' hbegins with ⟨w, rfl⟩
  refine ⟨before ++ c :: w, d :: q.rest, ?_, by rw [Page.rest_putBack]⟩
  rw [h.text_eq]
  simp

theorem Front.rest (h : Front text stray c p) : ∃ rest, p.rest = c :: rest := by
  rcases h with ⟨_, rest, -, hrest, -⟩ | ⟨q, rfl, -⟩
  · exact ⟨rest, hrest⟩
  · exact ⟨q.rest, Page.rest_putBack q c⟩

end Tracking

namespace Position

variable {text : List UInt8} {mark : Int × Int} {last : Option (Option Token)} {lexeme : Lexeme}
  {p : Page} {lx lx' : Lexer Book} {t : Token}

theorem Stood.column_newline (h : Stood text .newline p) : p.column = 1 := by
  cases h with
  | newline _ looked => exact looked.column_newline
  | kept hne => exact absurd rfl hne
  | hash hlexeme => cases hlexeme
  | name hlexeme => cases hlexeme

theorem Stood.behindPair (h : Stood text lexeme p) (hline : lexeme ≠ .newline)
    (hone : p.column = 1) : p.rest.head? = some Character.newline ∨ BehindPair text (join p.rest) := by
  cases h with
  | newline hlexeme => exact absurd hlexeme hline
  | kept _ hc looked => exact looked.behindPair hc hone
  | hash _ hc behind => exact Or.inr (behind.behindPair hc hone)
  | name _ hc behind => exact Or.inr (behind.behindPair hc hone)

theorem nextToken_newline (h : On mark (Between text last) lx) (hnext : nextToken lx = .ok t lx')
    (hend : t.lexeme ≠ .eof) (hpages : lx.stream.pages = [p]) (hhead : p.rest.head? = some newline) :
    t.lexeme = .newline := by
  rcases nextToken_front h hnext hend with ⟨spaced, lx₁, q, c, hblanks, hpages₁, hfront, -, hc⟩
  cases hrest : p.rest with
  | nil =>
      rw [hrest] at hhead
      cases hhead
  | cons d rest =>
      rw [hrest, List.head?_cons, Option.some.injEq] at hhead
      subst hhead
      have hsingle : lx.stream.joins = true →
          ¬ (newline = backslash ∧ rest.head? = some newline) :=
        fun _ hpair => absurd hpair.1 (by decide)
      have hblank : isBlank newline.toNat = false := by decide
      have hskip := skipBlanks_single hpages hrest hsingle hblank (by decide)
      rw [hskip, EStateM.Result.ok.injEq] at hblanks
      rw [← hblanks.2, pages_withPages, List.cons.injEq] at hpages₁
      rcases hfront.rest with ⟨rest', hrest'⟩
      rw [← hpages₁.1, Page.rest_look, hrest, List.cons.injEq] at hrest'
      exact hc hrest'.1.symm

theorem nextToken_over (h : On mark (Between text last) lx) (hnext : nextToken lx = .ok t lx')
    (hpages : lx.stream.pages = [p]) (hover : p.rest = []) : t.lexeme = .eof := by
  by_contra hend
  rcases nextToken_front h hnext hend with ⟨spaced, lx₁, q, c, hblanks, hpages₁, hfront, -⟩
  rw [skipBlanks_end (next?_end hpages hover), EStateM.Result.ok.injEq] at hblanks
  rw [← hblanks.2, hpages, List.cons.injEq] at hpages₁
  rcases hfront.rest with ⟨rest, hrest⟩
  rw [← hpages₁.1, hover] at hrest
  cases hrest

/-- Whether a token is marked, by what the call before gave. -/
theorem nextToken_marked (h : On mark (Between text last) lx) (hlast : last ≠ some none)
    (hnext : nextToken lx = .ok t lx') (hline : t.lexeme ≠ .newline) (hend : t.lexeme ≠ .eof) :
    ((∀ u, last = some (some u) → u.lexeme = .newline) → t.startsLine = true) ∧
      (t.startsLine = true → (∀ u, last = some (some u) → u.lexeme = .newline) ∨
        ∃ p, lx.stream.pages = [p] ∧ BehindPair text (join p.rest)) := by
  rcases nextToken_ok h hnext with ⟨p, spaced, lx₁, t₁, hpages, -, -, -, rfl⟩
  have hnewline := nextToken_newline h hnext hend hpages
  have hover := nextToken_over h hnext hpages
  rcases h with ⟨q, hpages', -, -, -, hbetween⟩
  cases hpages.symm.trans hpages'
  rw [show ((p.column == 1) = true) = (p.column = 1) by simp]
  match last, hbetween with
  | none, hbetween => exact ⟨fun _ => hbetween.1, fun _ => Or.inl fun _ h => by cases h⟩
  | some none, _ => exact absurd rfl hlast
  | some (some u), Or.inr heof => exact absurd (hover heof.2.1) hend
  | some (some u), Or.inl hstood =>
      constructor
      · intro hlexeme
        rw [hlexeme u rfl] at hstood
        exact hstood.column_newline
      · intro hone
        by_cases hlexeme : u.lexeme = .newline
        · refine Or.inl fun v hv => ?_
          cases hv
          exact hlexeme
        · rcases hstood.behindPair hlexeme hone with hhead | hpair
          · exact absurd (hnewline hhead) hline
          · exact Or.inr ⟨p, hpages, hpair⟩

end Position

/-- The first token of a line is marked. Another token is marked only if it was asked for behind a
backslash and a newline, which join its line to the one before. -/
theorem nextToken_startsLine {stream : Stream} {source : Source} (hfiles : stream.files = [source])
    (hfresh : source.IsFresh) (options : Options) (n : Nat) :
    let text := canon (source.lend stream.console).input.remaining
    let run := nextTokens (Lexer.ofStream stream options) n
    run.1.getLast? ≠ some none → ∀ t lx', nextToken run.2 = .ok t lx' →
      t.lexeme ≠ .newline → t.lexeme ≠ .eof →
      (FirstOnLine run.1 → t.startsLine = true) ∧
        (t.startsLine = true →
          FirstOnLine run.1 ∨ BehindPair text run.2.stream.readToEnd.1) := by
  intro text run hlast t lx' hnext hline hend
  rcases between_nextTokens hfiles hfresh options n with ⟨hroom, mark, hon⟩
  have hbook := (Stack.agrees_nextToken.ok hroom hnext).1
  rcases nextToken_marked hon hlast hbook hline hend with ⟨hfirst, hmarked⟩
  rw [firstOnLine_iff hlast]
  refine ⟨hfirst, fun hstarts => (hmarked hstarts).imp id ?_⟩
  rintro ⟨p, hpages, hpair⟩
  rw [Stream.textOf_readToEnd, show run.2.stream.book.pages = [p] from hpages]
  simpa [Book.textOf] using hpair

theorem nextToken_startsLine_comment :
    let text := bytes "a\n /*\n*/ \\\n b".toList
    let run := nextTokens (Lexer.ofStream (Stream.ofSources [.ofBytes "t.c" text])) 2
    ∃ t lx', nextToken run.2 = .ok t lx' ∧ t.lexeme = .ident "b" ∧ t.startsLine = true := by
  intro text run
  let t : Token := { lexeme := .ident "b", file := some "t.c", line := 4, column := 2, index := 2,
                     spaced := true, startsLine := true }
  have hlast : (nextTokens (Lexer.ofStream (Stream.ofSources [.ofBytes "t.c" text])) 3).1.getLast? =
      some (some t) := by
    decide +kernel
  rcases nextToken_of_getLast? hlast with ⟨lx', hnext⟩
  have hfirst : FirstOnLine run.1 := by
    unfold FirstOnLine
    decide +kernel
  have hstarts := nextToken_startsLine rfl (Source.isFresh_ofBytes _ _) {} 2 (by decide +kernel) t
    lx' hnext (by simp [t]) (by simp [t])
  exact ⟨t, lx', hnext, rfl, hstarts.1 hfirst⟩

/-- The plus looks at the name behind the pair and puts it back. The name is marked as the first token
of its line, which it shares with the plus. -/
theorem nextToken_startsLine_joined :
    let text := bytes "+\\\nx".toList
    let lx := Lexer.ofStream (Stream.ofSources [.ofBytes "t.c" text])
    ¬ FirstOnLine (nextTokens lx 1).1 ∧ (nextTokens lx 1).1.getLast? ≠ some none ∧
      ((nextTokens lx 2).1.map fun o => o.map fun t => (t.lexeme, t.startsLine)) =
        [some (.punctuator .plus, true), some (.ident "x", true)] := by
  unfold FirstOnLine
  decide +kernel

end CLex
