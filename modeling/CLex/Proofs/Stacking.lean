import CLex.Proofs.Framing
import CLex.Proofs.Reading
import CLex.Proofs.Simulation.Stack

namespace CLex

open Character Lexer Lines Reading

/-- The tokens of several listings in turn. Only the last one keeps its end token. -/
def inTurn : List (List Token) → List Token
  | [] => []
  | [tokens] => tokens
  | tokens :: next :: rest => tokens.filter (fun t => !t.isEnd) ++ inTurn (next :: rest)

theorem filter_prepend {ts : List Token} {e : Token} (hts : ∀ a ∈ ts, a.isEnd = false)
    (he : e.isEnd = true) : (ts ++ [e]).filter (fun t => !t.isEnd) = ts := by
  rw [List.filter_append, List.filter_eq_self.mpr fun a ha => by simp [hts a ha]]
  simp [he]

namespace Framing

variable {frame : Frame} {s t : Lexer Book}

/-- What stands in the mark before a token is read. -/
abbrev AnyMark : Int × Int → Int × Int → Prop :=
  fun _ _ => True

theorem alike_lax {α : Type} {Q : α → Lexer Book → α → Lexer Book → Prop}
    {E E' : Failure → Lexer Book → Failure → Lexer Book → Prop}
    {r r' : EStateM.Result Failure (Lexer Book) α} (h : Alike True Q E r r') :
    Alike True Q E' r r' := by
  cases r with
  | ok => cases r' with
    | ok => exact h
    | error => exact h
  | error => cases r' with
    | ok => exact h
    | error => exact Or.inl trivial

theorem Held.anyMark (h : Held Eq frame [] s t) : Held AnyMark frame [] s t := by
  rcases h with ⟨p, h⟩
  exact ⟨p, h.left, h.right, h.joins, h.options, h.pending, trivial, h.ends, h.column⟩

theorem runs_token_anyMark :
    (reading AnyMark frame).Runs (Held AnyMark frame []) (simulation frame).Read Lexer.token
      Lexer.token := by
  rintro s t ⟨p, h⟩
  have hmarked : Held Eq frame [] { s with mark := (p.line, p.column) }
      { t with mark := (p.line, p.column) } :=
    ⟨p, h.left, h.right, h.joins, h.options, h.pending, rfl, h.ends, h.column⟩
  rcases hmarked.next (by simp) with ⟨c, s', t', hs, ht, h'⟩
  rw [Lexer.token, LexM.bind_of_ok (setMark_pages h.left),
    LexM.bind_of_ok (setMark_pages h.right), LexM.bind_of_ok hs, LexM.bind_of_ok ht]
  exact alike_lax (Simulation.runs_tokenFrom c s' t' h')

theorem runs_freshToken_anyMark :
    (reading AnyMark frame).Same (Held AnyMark frame [])
      (fun a s t => After frame a.lexeme s t) freshToken freshToken := by
  rintro s t ⟨p, h⟩
  rw [freshToken, LexM.bind_of_ok (needSource_pages h.left),
    LexM.bind_of_ok (isAtLineStart_pages h.left), LexM.bind_of_ok (needSource_pages h.right),
    LexM.bind_of_ok (isAtLineStart_pages h.right)]
  refine same_bind same_skipBlanks (fun spaced => runs_bind runs_token_anyMark fun a b => ?_) s t
    ⟨p, h⟩
  rintro s t ⟨rfl, -, hafter⟩
  exact ⟨rfl, hafter⟩

def endOf (p : Page) : Token :=
  { lexeme := .eof, file := some p.name, line := p.line, column := p.column, index := p.tokens,
    startsLine := p.column == 1 }

theorem nextToken_end {p : Page} (hpages : s.stream.pages = [p]) (hpending : s.pending = [[]])
    (hrest : p.rest = []) :
    nextToken s = .ok (endOf p) (({ s with mark := (p.line, p.column) } : Lexer Book).withPages
      [{ p with tokens := p.tokens + 1 }]) := by
  have hblank : skipBlank s = .ok false s := by
    rw [skipBlank, LexM.bind_of_ok (next?_end hpages hrest)]
    rfl
  have hblanks : skipBlanks s = .ok false s := by
    rw [skipBlanks, LexM.loop_eq, blankRound, LexM.bind_of_ok hblank]
    rfl
  have hmarked : ({ s with mark := (p.line, p.column) } : Lexer Book).stream.pages = [p] := hpages
  have hfresh : nextToken s = freshToken s := by rw [nextToken, hpending]
  rw [hfresh, freshToken, LexM.bind_of_ok (needSource_pages hpages),
    LexM.bind_of_ok (isAtLineStart_pages hpages), LexM.bind_of_ok hblanks, Lexer.token, bind_assoc,
    LexM.bind_of_ok (setMark_pages hpages), bind_assoc, LexM.bind_of_ok (next?_end hmarked hrest)]
  dsimp only
  rw [LexM.bind_of_ok (finish_pages hmarked _ _)]
  rfl

theorem listing_end {p : Page} (hpages : s.stream.pages = [p]) (hpending : s.pending = [[]])
    (hrest : p.rest = []) : s.listing.tokens = [endOf p] ∧ s.listing.failure = none := by
  rw [listing_of_end (nextToken_end hpages hpending hrest) rfl]
  exact ⟨rfl, rfl⟩

/-- A token of the page alone is one of the page above others too, and it is no end token. Behind it
the two lexers stand on the page as they did, or the page is over. -/
theorem nextToken_held (h : Held AnyMark frame [] s t) {a : Token} {s' : Lexer Book}
    (hs : nextToken s = .ok a s') :
    ∃ t', nextToken t = .ok a t' ∧ a.isEnd = false ∧
      (Held AnyMark frame [] s' t' ∨ Over frame s' t') := by
  have hrun := runs_freshToken_anyMark s t h
  rcases h with ⟨p, h⟩
  rw [← nextToken_fresh h.pending.1, ← nextToken_fresh h.pending.2, hs] at hrun
  rcases hrun.exists_ok with ⟨b, t', ht, rfl, hafter⟩
  refine ⟨t', ht, ?_⟩
  rw [Token.isEnd]
  cases hlexeme : a.lexeme with
  | eof =>
      rw [hlexeme] at hafter
      exact hafter.elim
  | newline =>
      rw [hlexeme] at hafter
      exact ⟨rfl, hafter.imp Held.anyMark id⟩
  | _ =>
      rw [hlexeme] at hafter
      exact ⟨rfl, Or.inl (Held.anyMark hafter)⟩

theorem listing_up_to_end (h : Held AnyMark frame [] s t) (hok : s.listing.failure = none) :
    ∃ (ts : List Token) (s' t' : Lexer Book), (∀ a ∈ ts, a.isEnd = false) ∧
      s.listing = s'.listing.prepend ts ∧ t.listing = t'.listing.prepend ts ∧ Over frame s' t' := by
  induction s using listing_induction generalizing t with
  | error s f s' hs =>
      rw [listing_of_error hs] at hok
      cases hok
  | last s a s' hs hend =>
      rcases nextToken_held h hs with ⟨-, -, hmore, -⟩
      rw [hend] at hmore
      cases hmore
  | more s a s' hs hend ih =>
      rcases nextToken_held h hs with ⟨t', ht, -, hnext⟩
      rw [listing_of_more hs hend] at hok
      rcases hnext with hheld | hover
      · rcases ih hheld hok with ⟨ts, s'', t'', hts, hs'', ht'', hover⟩
        refine ⟨a :: ts, s'', t'', List.forall_mem_cons.mpr ⟨hend, hts⟩, ?_, ?_, hover⟩
        · rw [listing_of_more hs hend, hs'']
          rfl
        · rw [listing_of_more ht hend, ht'']
          rfl
      · refine ⟨[a], s', t', ?_, listing_of_more hs hend, listing_of_more ht hend, hover⟩
        rintro b hb
        rw [List.mem_singleton.mp hb]
        exact hend

variable {below : List Page}

theorem listing_over {p q : Page} (hpages : t.stream.pages = p :: q :: below)
    (hpending : t.pending = [[]]) (hrest : p.rest = []) (hp : p.column = 1) (hq : q.column = 1) :
    t.listing = (t.withPages (q :: below)).listing := by
  have hblanks : skipBlanks t = skipBlanks (t.withPages (q :: below)) := by
    have hblank : blankRound false t = blankRound false (t.withPages (q :: below)) :=
      LexM.bind_of_eq (LexM.bind_of_eq (next?_turn hpages (Page.read_nil hrest _)) _) _
    rw [skipBlanks, LexM.loop_eq, LexM.loop_eq, hblank]
  have htoken : freshToken t = freshToken (t.withPages (q :: below)) := by
    rw [freshToken, LexM.bind_of_ok (needSource_pages hpages),
      LexM.bind_of_ok (isAtLineStart_pages hpages), LexM.bind_of_ok (needSource_pages rfl),
      LexM.bind_of_ok (isAtLineStart_pages rfl), hp, hq]
    exact LexM.bind_of_eq hblanks _
  rw [listing_eq, listing_eq, nextToken, nextToken, pending_withPages, hpending]
  dsimp only
  rw [htoken]

def alone (options : Options) (p : Page) : Lexer Book :=
  ofStream { pages := [p] } options

/-- A lexer that stands before the pages, with the marks of its last token. -/
structure Before (options : Options) (pages : List Page) (t : Lexer Book) : Prop where
  pages : t.stream.pages = pages
  joins : t.stream.joins = true
  pending : t.pending = [[]]
  options : t.options = options

theorem Before.held {options : Options} {p : Page} (h : Before options (p :: below) t)
    (hends : Ends [] p.rest) : Held AnyMark ⟨options, below⟩ [] (alone options p) t :=
  ⟨p, rfl, h.pages, ⟨rfl, h.joins⟩, ⟨rfl, h.options⟩, ⟨rfl, h.pending⟩, trivial, hends, by simp⟩

/-- The tokens of several pages, none of which is begun, are those of each page alone. -/
theorem listing_pages {options : Options} {p : Page} {below : List Page}
    (hends : ∀ q ∈ p :: below, Ends [] q.rest) (hcolumn : ∀ q ∈ below, q.column = 1)
    (hok : ∀ q ∈ p :: below, (alone options q).listing.failure = none)
    (h : Before options (p :: below) t) :
    t.listing.tokens = inTurn ((p :: below).map fun q => (alone options q).listing.tokens) ∧
      t.listing.failure = none := by
  induction below generalizing p t with
  | nil =>
      rcases listing_up_to_end (h.held (hends p List.mem_cons_self)) (hok p List.mem_cons_self) with
        ⟨ts, s', t', hts, hs, ht, e, hleft, hright, -, -, hpending, -, hrest, -⟩
      rcases listing_end hleft hpending.1 hrest with ⟨htokens, -⟩
      rcases listing_end hright hpending.2 hrest with ⟨htokens', hfailure'⟩
      rw [List.map_singleton, inTurn, hs, ht]
      exact ⟨by rw [Listing.prepend, Listing.prepend, htokens, htokens'], hfailure'⟩
  | cons q below ih =>
      rcases listing_up_to_end (h.held (hends p List.mem_cons_self)) (hok p List.mem_cons_self) with
        ⟨ts, s', t', hts, hs, ht, e, hleft, hright, hjoins, hoptions, hpending, -, hrest, hcol⟩
      rcases listing_end hleft hpending.1 hrest with ⟨htokens, -⟩
      have hover := listing_over hright hpending.2 hrest hcol (hcolumn q List.mem_cons_self)
      have hnext : Before options (q :: below) (t'.withPages (q :: below)) :=
        ⟨rfl, hjoins.2, hpending.2, hoptions.2⟩
      rcases ih (fun r hr => hends r (List.mem_cons_of_mem p hr))
        (fun r hr => hcolumn r (List.mem_cons_of_mem q hr))
        (fun r hr => hok r (List.mem_cons_of_mem p hr)) hnext with ⟨htokens', hfailure⟩
      rw [ht, hover]
      refine ⟨?_, hfailure⟩
      rw [List.map_cons, List.map_cons, inTurn, hs, Listing.prepend, Listing.prepend, htokens,
        filter_prepend hts rfl, htokens', List.map_cons]

end Framing

namespace Stream

/-- Each source as a stream of its own, with the bytes of standard input that it finds unread. -/
def singles (console : List UInt8) : List Source → List Stream
  | [] => []
  | top :: below => { files := [top], console } :: singles (top.leave console) below

theorem listing_single {source : Source} (hfresh : source.IsFresh) (console : List UInt8)
    (options : Options) :
    let read := (Lexer.ofStream { files := [source], console : Stream } options).listing
    let page := (Framing.alone options (source.lend console).page).listing
    page.tokens = read.tokens ∧ page.failure = read.failure := by
  intro read page
  have hroom : ({ files := [source], console } : Stream).HasRoom 0 := by
    apply (hasRoom_of_fresh (by simp) ?_).mono (Nat.zero_le 3)
    intro other h
    rw [List.mem_singleton.mp h]
    exact hfresh
  have hbook := Stack.listing_book (Lexer.ofStream { files := [source], console } options) hroom
  exact ⟨congrArg Listing.tokens hbook, congrArg Listing.failure hbook⟩

theorem ends_canon {bytes : List UInt8} (h : Unjoined (canon bytes)) :
    Framing.Ends [] (canon bytes) :=
  ⟨h, getLast?_complete _⟩

theorem pagesOf_fresh {console : List UInt8} {files : List Source} {options : Options}
    (hfresh : ∀ source ∈ files, source.IsFresh)
    (hlines : ∀ bytes ∈ contents console files, Unjoined (canon bytes))
    (hok : ∀ single ∈ singles console files,
      (Lexer.ofStream single options).listing.failure = none) :
    (∀ q ∈ pagesOf console files, Framing.Ends [] q.rest ∧ q.column = 1 ∧
        (Framing.alone options q).listing.failure = none) ∧
      (pagesOf console files).map (fun q => (Framing.alone options q).listing.tokens) =
        (singles console files).map fun single =>
          (Lexer.ofStream single options).listing.tokens := by
  induction files generalizing console with
  | nil => exact ⟨by simp [pagesOf], rfl⟩
  | cons top below ih =>
      have htop := hfresh top List.mem_cons_self
      have hlend := htop.lend console
      rcases listing_single htop console options with ⟨htokens, hfailure⟩
      rcases ih (fun source h => hfresh source (List.mem_cons_of_mem _ h))
        (fun bytes h => hlines bytes (List.mem_cons_of_mem _ h))
        (fun single h => hok single (List.mem_cons_of_mem _ h)) with ⟨hpages, hmap⟩
      refine ⟨?_, ?_⟩
      · intro q hq
        rcases List.mem_cons.mp hq with rfl | hq
        · refine ⟨?_, hlend.column, hfailure.trans (hok _ List.mem_cons_self)⟩
          rw [hlend.page_eq]
          exact ends_canon (hlines _ List.mem_cons_self)
        · exact hpages q hq
      · rw [pagesOf, singles, List.map_cons, List.map_cons, htokens, hmap]

end Stream

/-- If no line of any source ends in a backslash and each source is lexed without a failure when it
stands alone, then the tokens of the stack are those of the sources in turn, in every respect. -/
theorem listing_stack {stream : Stream} (hne : stream.files ≠ [])
    (hfresh : ∀ source ∈ stream.files, source.IsFresh) (options : Options)
    (hlines : ∀ bytes ∈ Stream.contents stream.console stream.files, Unjoined (canon bytes))
    (hok : ∀ single ∈ Stream.singles stream.console stream.files,
      (Lexer.ofStream single options).listing.failure = none) :
    (Lexer.ofStream stream options).listing.failure = none ∧
      (Lexer.ofStream stream options).listing.tokens =
        inTurn ((Stream.singles stream.console stream.files).map fun single =>
          (Lexer.ofStream single options).listing.tokens) := by
  have hroom : stream.HasRoom 0 := (Stream.hasRoom_of_fresh hne hfresh).mono (Nat.zero_le 3)
  have hbook := Stack.listing_book (Lexer.ofStream stream options) hroom
  rcases Stream.pagesOf_fresh hfresh hlines hok with ⟨hpages, hmap⟩
  rcases List.exists_cons_of_ne_nil hne with ⟨top, below, hfiles⟩
  rw [hfiles] at hpages hmap
  have hbefore : Framing.Before options (Stream.pagesOf stream.console (top :: below))
      (Lexer.ofStream stream options).book :=
    ⟨congrArg (Stream.pagesOf stream.console) hfiles, rfl, rfl, rfl⟩
  rw [Stream.pagesOf] at hpages hmap hbefore
  have htokens := Framing.listing_pages (fun q hq => (hpages q hq).1)
    (fun q hq => (hpages q (List.mem_cons_of_mem _ hq)).2.1) (fun q hq => (hpages q hq).2.2) hbefore
  rw [hbook, hmap, ← hfiles] at htokens
  exact htokens.symm

theorem listing_stack_file_over_memory :
    let stream := Stream.ofSources
      [.ofFile "in.h" (bytes ['x', ' ']), .ofBytes "out.c" (bytes ['/', '*', '*', '/', 'x'])]
    (Lexer.ofStream stream).listing.failure = none ∧
      (Lexer.ofStream stream).listing.tokens =
        [{ lexeme := .ident "x", file := some "in.h", line := 1, column := 1, index := 0,
            startsLine := true },
          { lexeme := .newline, file := some "in.h", line := 1, column := 1, index := 1,
            spaced := true },
          { lexeme := .ident "x", file := some "out.c", line := 1, column := 5, index := 0,
            spaced := true, startsLine := true },
          { lexeme := .newline, file := some "out.c", line := 1, column := 1, index := 1,
            startsLine := true },
          { lexeme := .eof, file := some "out.c", line := 2, column := 1, index := 2,
            startsLine := true }] := by
  intro stream
  have hfresh : ∀ source ∈ stream.files, source.IsFresh := by
    intro source h
    rcases List.mem_cons.mp h with rfl | h
    · exact Source.isFresh_ofFile _ _
    · exact List.mem_singleton.mp h ▸ Source.isFresh_ofBytes _ _
  rcases listing_stack (show stream.files ≠ [] by decide) hfresh {} (by decide)
    (by decide +kernel) with ⟨hfailure, htokens⟩
  exact ⟨hfailure, htokens.trans (by decide +kernel)⟩

end CLex
