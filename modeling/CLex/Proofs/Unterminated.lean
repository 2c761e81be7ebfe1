import CLex.Proofs.LeftOpen
import CLex.Proofs.Position
import CLex.Proofs.Termination

/-!
Where a comment, a string or a character that is never ended is said to begin. For a comment the
place is taken where it begins. For a literal only the line and the column are taken there: the name
is that of the source that is read when the input ends.
-/

namespace CLex

open Character Lexer LexM Lines Tracking

namespace Lexer

variable {σ : Type} [CharStream σ]

/-- Behind some blanks and comments the lexer becomes the other one. -/
inductive Passes : Lexer σ → Lexer σ → Prop
  | refl (lx : Lexer σ) : Passes lx lx
  | tail {lx lx' lx'' : Lexer σ} {skipped : Bool} (h : Passes lx lx')
      (hblank : skipBlank lx' = .ok skipped lx'') : Passes lx lx''

/-- The comment or the token that comes next fails in this way. -/
def FailsNext (f : Failure) (lx : Lexer σ) : Prop :=
  ∃ lx', skipBlank lx = .error f lx' ∨ token lx = .error f lx'

end Lexer

namespace Crossing

variable {lx lx' : Lexer Book} {f : Failure} {cause : Cause} {location : Location} {p p' : Page}
  {pages : List Page} {text opening after : List UInt8} {c : UInt8}

/-- On the page `first`, above these others, something begins that is left open, and the lexer stands
before it. -/
inductive Begins (pages : List Page) (lx : Lexer Book) (cause : Cause) (place : Int × Int)
    (first : Page) (below : List Page) : Prop
  | intro (above : List Page) (before opening after : List UInt8)
      (split : pages = above ++ first :: below) (text : first.rest = before ++ opening ++ after)
      (opened : cause.OpenedBy opening) (place : place = placeAfter before)
      (comes : Book.textOf lx.stream.pages = opening ++ after ++ Book.textOf below)

theorem textOf_next (hjoins : lx.stream.joins = true) (h : next? lx = .ok (some c) lx') :
    Book.textOf lx.stream.pages = c :: Book.textOf lx'.stream.pages := by
  rw [next?, EStateM.Result.ok.injEq] at h
  rcases h with ⟨hread, rfl⟩
  apply Book.textOf_readPages_some
  rw [← hread, ← hjoins]
  rfl

theorem lined_of_out {stray : List UInt8} (h : Out text stray [c] p) (hlined : Lined text) :
    Lined (c :: p.rest) := by
  rcases h with ⟨before, h, -⟩ | ⟨-, -, -, before, h, htrail⟩
  · rw [h.text_eq] at hlined
    exact hlined.suffix
  · rw [h.text_eq] at hlined
    rcases hlined.trail htrail with ⟨before', rfl, -⟩
    rw [List.append_assoc] at hlined
    exact hlined.suffix

/-- A literal that comes next is at its place: none begins with a stray character. -/
theorem literal_place (hfront : Front text strays c p) (hread : p.read true = (some c, p'))
    (hbegin : c :: p'.rest = opening ++ after) (hopened : cause.OpenedBy opening)
    (hliteral : cause ≠ .unterminatedComment) :
    ∃ before, text = before ++ opening ++ after ∧ p.rest = opening ++ after ∧
      (p.line, p.column) = placeAfter before := by
  have hc : c ∉ strays ∧ c ≠ newline := by
    rcases opened_cons hopened hliteral with ⟨d, rest, rfl, hd⟩
    rw [List.cons_append, List.cons.injEq] at hbegin
    rwa [hbegin.1]
  rcases hfront with ⟨before, rest, h, hrest, hsingle⟩ | ⟨q, -, ⟨hstray, -⟩, -⟩
  · have hp' := Page.read_cons hrest hsingle true
    rw [hread, Prod.mk.injEq] at hp'
    have hopening : p.rest = opening ++ after := by
      rw [← hbegin, hp'.2, Page.rest_advance, hrest]
    refine ⟨before, ?_, hopening, Prod.ext h.line ?_⟩
    · rw [h.text_eq, hopening, List.append_assoc]
    · rcases h.column with hcolumn | ⟨-, hhead⟩
      · exact hcolumn
      · rw [hrest, List.head?_cons, Option.some.injEq] at hhead
        exact absurd hhead hc.2
  · exact absurd hstray hc.1

theorem token_ended {hpages : ∀ q ∈ pages, Unread q} (h : (footing hpages).ended lx) :
    token lx ≠ .error f lx' := by
  rcases h with ⟨⟨_, _, _, p, _, hleft, _, _, _, hend, _⟩, q, hlast⟩
  cases hlast.symm.trans hleft
  obtain ⟨lx₁, hset, hlast₁⟩ : ∃ lx₁, setMark lx = .ok () lx₁ ∧ lx₁.stream.pages = [p] :=
    ⟨_, setMark_pages hlast, hlast⟩
  rw [token, bind_of_ok hset, bind_of_ok (next?_end hlast₁ hend)]
  dsimp only
  rw [finish_pages hlast₁]
  intro h
  cases h

theorem token_left_open {hpages : ∀ q ∈ pages, Unread q} (h : (footing hpages).ready lx)
    (hfail : token lx = .error (.located cause location) lx') (hcause : cause.isUnterminated = true) :
    cause ≠ .unterminatedComment ∧ location.file = (CharStream.location lx'.stream).file ∧
      ∃ first below, Begins pages lx cause (location.line, location.column) first below := by
  rcases h with hended | ⟨c, above, first, below, p, hsplit, hleft, hname, hjoins, hpending, hfront⟩
  · exact absurd hfail (token_ended hended)
  have hlined : Lined first.rest := (hpages first (by rw [hsplit]; simp)).lined
  rcases hfront.read with ⟨p', hread, hout⟩
  have hsuffix : Lined (c :: p'.rest) := lined_of_out hout hlined
  obtain ⟨lx₁, hset, hleft₁, hjoins₁, hmark⟩ : ∃ lx₁, setMark lx = .ok () lx₁ ∧
      lx₁.stream.pages = p :: below ∧ lx₁.stream.joins = true ∧ lx₁.mark = (p.line, p.column) :=
    ⟨_, setMark_pages hleft, hleft, hjoins, rfl⟩
  rw [token, bind_of_ok hset, bind_of_ok (next?_read hleft₁ (hjoins₁ ▸ hread))] at hfail
  have hfaces : c ≠ newline → Faces p'.rest (lx₁.withPages (p' :: below)) := by
    intro hne
    rcases hsuffix.next hne with ⟨d, rest, hrest, hlined'⟩
    exact ⟨hrest ▸ hlined', p', below, rfl, rfl⟩
  rcases tokenFrom_left_open hsuffix hfaces hfail hcause with
    ⟨_, _, opening, after, hsame, hliteral, hopened, hbegin⟩
  cases hsame
  rcases marked_left_open hfail hcause with ⟨_, hmarked⟩
  cases hmarked
  rcases literal_place hfront hread hbegin hopened hliteral with ⟨before, htext, hrest, hplace⟩
  refine ⟨hliteral, rfl, first, below, above, before, opening, after, hsplit, htext, hopened, ?_, ?_⟩
  · show lx₁.mark = _
    rw [hmark, hplace]
  · have hunjoined : Unjoined (opening ++ after) := hbegin ▸ hsuffix.unjoined
    rw [hleft, Book.textOf, List.flatMap_cons, hrest, hunjoined.join_eq]
    rfl

theorem between_pages {hpages : ∀ q ∈ pages, Unread q} (h : (footing hpages).between lx) :
    ∃ p below, lx.stream.pages = p :: below ∧ lx.stream.joins = true ∧ lx.pending = [[]] := by
  rcases h with h | ⟨_, _, -, h⟩
  · rcases h with ⟨_, _, below, p, _, hleft, _, hjoins, hpending, _⟩
    exact ⟨p, below, hleft, hjoins, hpending⟩
  · rcases h with ⟨_, _, below, p, _, hleft, _, hjoins, hpending, _⟩
    exact ⟨p, below, hleft, hjoins, hpending⟩

theorem comment_place (h : Seen text [byte '*', byte '/'] p) (hlined : Lined text) :
    ∃ before, text = before ++ bytes ['/', '*'] ++ p.rest ∧
      (p.line, p.column - 2) = placeAfter before := by
  rcases h with ⟨_, h, htrail⟩ | ⟨hnil, -⟩
  · rw [h.text_eq] at hlined
    rcases hlined.trail htrail with ⟨before, rfl, -⟩
    refine ⟨before, ?_, ?_⟩
    · rw [h.text_eq, List.append_assoc, List.append_assoc]
      rfl
    · have hplace := h.place
      rw [placeAfter_snoc, placeAfter_snoc, Lines.pass, if_neg (by decide), Lines.pass,
        if_neg (by decide), Prod.mk.injEq] at hplace
      refine Prod.ext hplace.1 ?_
      show p.column - 2 = (placeAfter before).2
      omega
  · cases hnil

theorem skipBlank_left_open {hpages : ∀ q ∈ pages, Unread q} (h : (footing hpages).between lx)
    (hfail : skipBlank lx = .error f lx') :
    ∃ location first below, f = .located .unterminatedComment location ∧
      Begins pages lx .unterminatedComment (location.line, location.column) first below ∧
      location.file = first.name := by
  rcases between_pages h with ⟨_, _, hpage, hjoins, -⟩
  rcases skipBlank_error (by simp [hpage]) hfail with ⟨lx₁, lx₂, hnext, hstar, hcomment⟩
  have hslash : (footing hpages).out [byte '/'] lx₁ := Footing.leads_next_between.ok h hnext
  have hseen : (footing hpages).out [byte '*', byte '/'] lx₂ :=
    (Footing.leads_skipIf (byte '/') [] (byte '*')).ok ((footing hpages).looked_of_out hslash) hstar
  have hjoins₁ : lx₁.stream.joins = true := by
    rcases between_pages (Or.inl (Footing.loose_of_out hslash)) with ⟨_, _, -, hjoins, -⟩
    exact hjoins
  have htextOf : Book.textOf lx.stream.pages = bytes ['/', '*'] ++ Book.textOf lx₂.stream.pages := by
    rw [textOf_next hjoins hnext, textOf_next hjoins₁ (next_of_skipIf hstar)]
    rfl
  rcases hseen with ⟨above, first, below, p, hsplit, hleft, hname, -, -, hseen⟩
  have hlined : Lined first.rest := (hpages first (by rw [hsplit]; simp)).lined
  rcases comment_place hseen hlined with ⟨before, htext, hplace⟩
  refine ⟨_, first, below, skipComment_left_open hleft hcomment, ?_, hname⟩
  refine ⟨above, before, bytes ['/', '*'], p.rest, hsplit, htext, rfl, hplace, ?_⟩
  have hunjoined : Unjoined p.rest := (List.isChain_append.mp (htext ▸ hlined.unjoined)).2.1
  rw [htextOf, hleft, Book.textOf, List.flatMap_cons, hunjoined.join_eq, List.append_assoc]
  rfl

theorem between_of_left {hpages : ∀ q ∈ pages, Unread q} {lexeme : Lexeme}
    (h : (footing hpages).Left lexeme lx) : (footing hpages).between lx := by
  cases h with
  | newline _ looked => exact Or.inl ((footing hpages).loose_of_looked looked)
  | kept _ kept => exact Or.inl (Footing.loose_of_kept kept)
  | hash _ _ behind => exact Or.inr ⟨_, _, by simp [footing, stance, strays], behind⟩
  | name _ _ behind => exact Or.inr ⟨_, _, by simp [footing, stance, strays], behind⟩

theorem leads_setMark_ready (hpages : ∀ q ∈ pages, Unread q) :
    Leads (footing hpages).Failed (footing hpages).ready setMark fun _ => (footing hpages).ready := by
  refine leads_or (fun lx h => ?_) ?_
  · rcases h with ⟨hat, q, hlast⟩
    rw [setMark_pages hlast]
    have hmarked := (leads_setMark (E := fun _ _ => False)).ok hat (setMark_pages hlast)
    exact Or.inl ⟨hmarked, q, hlast⟩
  · exact leads_exists fun c => leads_setMark.post fun _ _ h => Or.inr ⟨c, h⟩

theorem leads_next_ready (hpages : ∀ q ∈ pages, Unread q) :
    Leads (footing hpages).Failed (footing hpages).ready next?
      fun d => d.elim (footing hpages).ended fun d => (footing hpages).out [d] := by
  refine leads_or ((footing hpages).next_loose.pre fun lx h => (footing hpages).loose_of_ended h) ?_
  exact leads_exists fun c => (footing hpages).next_front c

theorem leads_token (hpages : ∀ q ∈ pages, Unread q) :
    Leads (footing hpages).Failed (footing hpages).ready token fun _ => (footing hpages).between := by
  refine leads_bind (leads_setMark_ready hpages) fun _ => ?_
  refine leads_bind (leads_next_ready hpages) fun d => ?_
  cases d with
  | none =>
      refine ((footing hpages).finish_ended .eof .plain).post fun t lx h => ?_
      exact Or.inl ((footing hpages).loose_of_ended h.2)
  | some d =>
      refine ((Footing.leads_tokenFrom d).pre fun lx h => (footing hpages).looked_of_out h).post ?_
      exact fun t lx h => between_of_left h.2

theorem between_nextToken {hpages : ∀ q ∈ pages, Unread q} (h : (footing hpages).between lx)
    {t : Token} (hnext : nextToken lx = .ok t lx') : (footing hpages).between lx' := by
  rcases between_pages h with ⟨p, below, hleft, -, hpending⟩
  rw [Position.nextToken_pages hleft hpending] at hnext
  have hrun : Leads (footing hpages).Failed (footing hpages).between
      (do
        let spaced ← skipBlanks
        let t ← token
        pure { t with spaced, startsLine := p.column == 1 }) fun _ => (footing hpages).between := by
    refine leads_bind Footing.leads_skipBlanks fun spaced => ?_
    exact leads_bind (leads_token hpages) fun t => leads_pure fun _ h => h
  exact hrun.ok h hnext

theorem leads_skipBlanks (hpages : ∀ q ∈ pages, Unread q) (s : Lexer Book) :
    Leads (fun f lx' => ∃ lx, Passes s lx ∧ (footing hpages).between lx ∧ skipBlank lx = .error f lx')
      (fun lx => Passes s lx ∧ (footing hpages).between lx) skipBlanks
      fun _ lx => Passes s lx ∧ (footing hpages).ready lx := by
  refine leads_loop (I := fun _ lx => Passes s lx ∧ (footing hpages).between lx)
    (fun before lx h => ?_) false
  cases hblank : skipBlank lx with
  | error f lx' =>
      rw [blankRound, bind_of_error hblank]
      exact ⟨lx, h.1, h.2, hblank⟩
  | ok skipped lx' =>
      rw [blankRound, bind_of_ok hblank]
      have hpasses : Passes s lx' := h.1.tail hblank
      have hafter := Footing.leads_skipBlank.ok h.2 hblank
      cases skipped with
      | true => exact ⟨hpasses, Or.inl hafter⟩
      | false => exact ⟨hpasses, hafter⟩

/-- Where a call for a token finds something left open. -/
theorem nextToken_left_open {hpages : ∀ q ∈ pages, Unread q} (h : (footing hpages).between lx)
    (hnext : nextToken lx = .error (.located cause location) lx')
    (hcause : cause.isUnterminated = true) :
    ∃ lx₁ first below, Passes lx lx₁ ∧ FailsNext (.located cause location) lx₁ ∧
      Begins pages lx₁ cause (location.line, location.column) first below ∧
      (footing hpages).loose lx' ∧
      location.file = if cause = .unterminatedComment then first.name
        else (CharStream.location lx'.stream).file := by
  rcases between_pages h with ⟨p, below, hleft, -, hpending⟩
  rw [Position.nextToken_pages hleft hpending] at hnext
  have hblanks := leads_skipBlanks hpages lx lx ⟨.refl lx, h⟩
  cases hskip : skipBlanks lx with
  | error f lx₁ =>
      rw [hskip] at hblanks
      rw [bind_of_error hskip] at hnext
      cases hnext
      rcases hblanks with ⟨lx₁, hpasses, hbetween, hfail⟩
      rcases skipBlank_left_open hbetween hfail with ⟨_, first, below, hsame, hbegins, hfile⟩
      cases hsame
      refine ⟨lx₁, first, below, hpasses, ⟨_, Or.inl hfail⟩, hbegins, ?_, by rw [if_pos rfl, hfile]⟩
      exact (Footing.leads_skipBlank.error hbetween hfail).2
  | ok spaced lx₁ =>
      rw [hskip] at hblanks
      rw [bind_of_ok hskip] at hnext
      cases htoken : token lx₁ with
      | ok t lx₂ =>
          rw [bind_of_ok htoken] at hnext
          cases hnext
      | error f lx₂ =>
          rw [bind_of_error htoken] at hnext
          cases hnext
          rcases token_left_open hblanks.2 htoken hcause with
            ⟨hliteral, hfile, first, below, hbegins⟩
          refine ⟨lx₁, first, below, hblanks.1, ⟨_, Or.inr htoken⟩, hbegins, ?_, ?_⟩
          · exact ((leads_token hpages).error hblanks.2 htoken).2
          · rw [if_neg hliteral, hfile]

theorem listing_left_open {hpages : ∀ q ∈ pages, Unread q} {lx : Lexer}
    (hroom : lx.stream.HasRoom 0) (h : (footing hpages).between lx.book)
    (hfailure : lx.listing.failure = some f) :
    let last := (nextTokens lx lx.listing.tokens.length).2
    last.stream.HasRoom 0 ∧ (footing hpages).between last.book ∧
      nextToken last = .error f lx.listing.lexer := by
  induction lx using listing_induction with
  | error lx g lx' hnext =>
      rw [listing_of_error hnext] at hfailure ⊢
      cases hfailure
      exact ⟨hroom, h, hnext⟩
  | last lx t lx' hnext hend =>
      rw [listing_of_end hnext hend] at hfailure
      cases hfailure
  | more lx t lx' hnext hend ih =>
      rw [listing_of_more hnext hend] at hfailure ⊢
      rcases Stack.agrees_nextToken.ok hroom hnext with ⟨hbook, hroom'⟩
      have hrest := ih hroom' (between_nextToken h hbook) hfailure
      rw [show (lx'.listing.cons t).tokens = t :: lx'.listing.tokens from rfl, List.length_cons,
        nextTokens_cons, hnext]
      exact hrest

theorem agrees_skipBlank : Stack.Agrees skipBlank skipBlank :=
  Reading.same_skipBlank (R := Stack.reading)

theorem passes_of_book {lx : Lexer} {t : Lexer Book} (hroom : lx.stream.HasRoom 0)
    (h : Passes lx.book t) : ∃ lx', t = lx'.book ∧ Passes lx lx' ∧ lx'.stream.HasRoom 0 := by
  induction h with
  | refl => exact ⟨lx, rfl, .refl lx, hroom⟩
  | tail _ hblank ih =>
      rcases ih with ⟨lx₁, rfl, hpasses, hroom₁⟩
      rcases agrees_skipBlank.of_book hroom₁ hblank with ⟨lx₂, hblank', rfl, hroom₂⟩
      exact ⟨lx₂, rfl, hpasses.tail hblank', hroom₂⟩

theorem failsNext_of_book {lx : Lexer} (hroom : lx.stream.HasRoom 0) (h : FailsNext f lx.book) :
    FailsNext f lx := by
  rcases h with ⟨t, h | h⟩
  · rcases agrees_skipBlank.error_of_book hroom h with ⟨lx', h'⟩
    exact ⟨lx', Or.inl h'⟩
  · rcases (Stack.agrees_token FreshSimulation.runs_token).error_of_book hroom h with ⟨lx', h'⟩
    exact ⟨lx', Or.inr h'⟩

theorem at_top {s : Lexer Book} (hpages : ∀ q ∈ pages, Unread q) (hopen : s.stream.pages = pages)
    (hne : pages ≠ []) (hjoins : s.stream.joins = true) (hpending : s.pending = [[]]) :
    At pages Loose s := by
  rcases List.exists_cons_of_ne_nil hne with ⟨first, below, rfl⟩
  exact ⟨[], first, below, first, rfl, hopen, rfl, hjoins, hpending, [],
    (hpages first List.mem_cons_self).tracked⟩

theorem At.name_of_length {P : List UInt8 → Page → Prop} (h : At pages P lx) {above : List Page}
    {first : Page} (hsplit : pages = above ++ first :: below)
    (hlength : lx.stream.pages.length = below.length + 1) :
    (CharStream.location lx.stream).file = first.name := by
  rcases h with ⟨above', first', below', p, hsplit', hleft, hname, -, -, -⟩
  rw [hleft, List.length_cons] at hlength
  rcases List.append_inj' (hsplit'.symm.trans hsplit) (by simp; omega) with ⟨-, htail⟩
  cases htail
  rw [location_pages hleft]
  exact hname

end Crossing

namespace Stream

/-- The names of the sources, the active one first, and the texts that they have to give. -/
def texts (s : Stream) : List (String × List UInt8) :=
  (s.files.zip (contents s.console s.files)).map fun entry => (entry.1.name, canon entry.2)

theorem pagesOf_zip {console : List UInt8} {files : List Source}
    (hfresh : ∀ source ∈ files, source.IsFresh) :
    pagesOf console files =
      (files.zip (contents console files)).map fun entry =>
        { name := entry.1.name, rest := canon entry.2 } := by
  induction files generalizing console with
  | nil => rfl
  | cons top below ih =>
      have hlend := (hfresh top List.mem_cons_self).lend console
      rw [pagesOf, contents, List.zip_cons_cons, List.map_cons, hlend.page_eq,
        ih fun source h => hfresh source (List.mem_cons_of_mem _ h)]
      rfl

variable {s : Stream}

theorem pages_texts (hfresh : ∀ source ∈ s.files, source.IsFresh) :
    s.book.pages = s.texts.map fun text => { name := text.1, rest := text.2 } := by
  rw [texts, List.map_map]
  exact pagesOf_zip hfresh

theorem unread_pages (hfresh : ∀ source ∈ s.files, source.IsFresh)
    (hlines : ∀ text ∈ s.texts, Unjoined text.2) : ∀ q ∈ s.book.pages, Crossing.Unread q := by
  intro q hq
  rw [pages_texts hfresh, List.mem_map] at hq
  rcases hq with ⟨text, htext, rfl⟩
  refine ⟨⟨hlines text htext, ?_⟩, rfl, rfl⟩
  rcases List.mem_map.mp htext with ⟨entry, -, rfl⟩
  exact getLast?_complete _

theorem textOf_texts {texts : List (String × List UInt8)} (h : ∀ text ∈ texts, Unjoined text.2) :
    Book.textOf (texts.map fun text => { name := text.1, rest := text.2 }) =
      texts.flatMap Prod.snd := by
  rw [Book.textOf, List.flatMap_map]
  exact List.flatMap_congr fun text htext => (h text htext).join_eq

theorem texts_split (hfresh : ∀ source ∈ s.files, source.IsFresh) {above below : List Page}
    {first : Page} (h : s.book.pages = above ++ first :: below) :
    ∃ rest, (first.name, first.rest) :: rest <:+ s.texts ∧
      below = rest.map fun text => { name := text.1, rest := text.2 } := by
  rw [pages_texts hfresh] at h
  rcases List.map_eq_append_iff.mp h with ⟨front, back, htexts, -, hback⟩
  rcases List.map_eq_cons_iff.mp hback with ⟨text, rest, rfl, rfl, hbelow⟩
  exact ⟨rest, ⟨front, htexts.symm⟩, hbelow.symm⟩

end Stream

theorem nextToken_without_source {lx : Lexer} (hfiles : lx.stream.files = [])
    (hpending : lx.pending = [[]]) : nextToken lx = .error .nothingThere lx := by
  have hplace : CharStream.place? lx.stream = none := by
    show lx.stream.files.head?.map Source.location = none
    rw [hfiles]
    rfl
  have hneed : needSource lx = .error .nothingThere lx := by
    rw [needSource, hplace]
  rw [nextToken, hpending]
  dsimp only
  rw [freshToken, bind_of_error hneed]

/-- If no line of any source ends in a backslash, a comment or a literal that is left open is
reported at the line and the column of its first character, the encoding prefix included. The name
that is reported is that of its source for a comment, and that of the source where the reading ended
for a literal. -/
theorem listing_unterminated {stream : Stream} (hfresh : ∀ source ∈ stream.files, source.IsFresh)
    (hlines : ∀ text ∈ stream.texts, Unjoined text.2) (options : Options) {cause : Cause}
    {location : Location} (hcause : cause.isUnterminated = true)
    (hfailure : (Lexer.ofStream stream options).listing.failure = some (.located cause location)) :
    let lx := Lexer.ofStream stream options
    ∃ name before opening after below lx',
      (name, before ++ opening ++ after) :: below <:+ stream.texts ∧ cause.OpenedBy opening ∧
      Passes (nextTokens lx lx.listing.tokens.length).2 lx' ∧ FailsNext (.located cause location) lx' ∧
      lx'.stream.readToEnd.1 = opening ++ after ++ below.flatMap Prod.snd ∧
      location.line = 1 + before.count newline ∧
      location.column = 1 + (before.reverse.takeWhile (· != newline)).length ∧
      (cause = .unterminatedComment ∨ lx.listing.lexer.stream.depth = below.length + 1 →
        location.file = name) ∧
      (cause ≠ .unterminatedComment →
        location.file = (CharStream.location lx.listing.lexer.stream).file) := by
  intro lx
  have hne : stream.files ≠ [] := by
    intro hnil
    rw [listing_eq, nextToken_without_source hnil rfl] at hfailure
    cases hfailure
  have hroom : lx.stream.HasRoom 0 := (Stream.hasRoom_of_fresh hne hfresh).mono (Nat.zero_le 3)
  have hpages := Stream.unread_pages hfresh hlines
  -- Everything is said of the book first, and its sources are found by what is left below.
  have hbetween : (Crossing.footing hpages).between lx.book := by
    refine Or.inl (Crossing.at_top hpages rfl ?_ rfl rfl)
    rw [← List.length_pos_iff, show stream.book.pages.length = _ from Stream.length_pagesOf _ _,
      List.length_pos_iff]
    exact hne
  rcases Crossing.listing_left_open hroom hbetween hfailure with ⟨hroom', hbetween', hnext⟩
  rcases Stack.agrees_nextToken.error hroom' hnext with ⟨hbook, -⟩
  rcases Crossing.nextToken_left_open hbetween' hbook hcause with
    ⟨t, first, below, hpasses, hfails, hbegins, hloose, hfile⟩
  rcases Crossing.passes_of_book hroom' hpasses with ⟨lx', rfl, hpasses', hroom''⟩
  rcases hbegins with ⟨above, before, opening, after, hsplit, htext, hopened, hplace, hcomes⟩
  rcases Stream.texts_split hfresh hsplit with ⟨rest, hsuffix, hbelow⟩
  rw [placeAfter_eq, Prod.mk.injEq] at hplace
  refine ⟨first.name, before, opening, after, rest, lx', htext ▸ hsuffix, hopened, hpasses',
    Crossing.failsNext_of_book hroom'' hfails, ?_, hplace.1, hplace.2, ?_, ?_⟩
  · rw [Stream.textOf_readToEnd, show Book.textOf lx'.stream.book.pages = _ from hcomes, hbelow,
      Stream.textOf_texts fun text h => hlines text (hsuffix.subset (List.mem_cons_of_mem _ h))]
  · intro hown
    rw [hfile]
    split
    · rfl
    · next hliteral =>
      have hdepth := hown.resolve_left hliteral
      refine Crossing.At.name_of_length hloose hsplit ?_
      rw [show lx.listing.lexer.book.stream.pages.length = _ from Stream.length_pagesOf _ _,
        hbelow, List.length_map]
      exact hdepth
  · intro hliteral
    rw [hfile, if_neg hliteral]
    exact congrArg Location.file (Stream.location_book _)

theorem listing_unterminated_comment :
    let stream := Stream.ofSources
      [.ofFile "in.h" (bytes "a\n u8\"/*\"/* b".toList), .ofBytes "out.c" (bytes ['*'])]
    let lx := Lexer.ofStream stream
    lx.listing.failure = some (.located .unterminatedComment ⟨"in.h", 2, 8⟩) ∧
      ∃ before after below lx',
        ("in.h", before ++ bytes ['/', '*'] ++ after) :: below <:+ stream.texts ∧
        Passes (nextTokens lx 3).2 lx' ∧
        lx'.stream.readToEnd.1 = bytes ['/', '*'] ++ after ++ below.flatMap Prod.snd ∧
        before.count newline = 1 ∧ (before.reverse.takeWhile (· != newline)).length = 7 := by
  intro stream lx
  have hfresh : ∀ source ∈ stream.files, source.IsFresh := by
    intro source h
    rcases List.mem_cons.mp h with rfl | h
    · exact Source.isFresh_ofFile _ _
    · exact List.mem_singleton.mp h ▸ Source.isFresh_ofBytes _ _
  have hfailure : lx.listing.failure = some (.located .unterminatedComment ⟨"in.h", 2, 8⟩) := by
    decide +kernel
  have hcount : lx.listing.tokens.length = 3 := by decide +kernel
  rcases listing_unterminated hfresh (by decide +kernel) {} rfl hfailure with
    ⟨name, before, _, after, below, lx', hsplit, rfl, hpasses, -, hcomes, hline, hcolumn, hfile, -⟩
  cases hfile (Or.inl rfl)
  refine ⟨hfailure, before, after, below, lx', hsplit, ?_, hcomes, ?_, ?_⟩
  · rwa [← hcount]
  · simp only at hline
    omega
  · simp only at hcolumn
    omega

/-- A string that runs over the end of its source is said to begin in the source below it. -/
theorem listing_unterminated_below :
    let stream := Stream.ofSources
      [.ofBytes "a.h" (bytes "\"abc".toList), .ofBytes "b.c" (bytes "x\n".toList)]
    stream.texts = [("a.h", bytes "\"abc\n".toList), ("b.c", bytes "x\n".toList)] ∧
      (Lexer.ofStream stream).listing.tokens = [] ∧
      (Lexer.ofStream stream).listing.failure = some (.located .unterminatedString ⟨"b.c", 1, 1⟩) := by
  decide +kernel

end CLex
