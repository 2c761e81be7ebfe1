import CLex.Proofs.Lexemes
import CLex.Proofs.Reading
import CLex.Proofs.Simulation.Stack
import CLex.Proofs.Tracking

namespace CLex

open Character Lexer LexM Lines Tracking

namespace Position

/-- A single page lies open, its lines are joined, and a token began at the mark. -/
def On (mark : Int × Int) (P : Page → Prop) (lx : Lexer Book) : Prop :=
  ∃ p, lx.stream.pages = [p] ∧ lx.stream.joins = true ∧ lx.pending = [[]] ∧ lx.mark = mark ∧ P p

variable {mark : Int × Int} {P Q : Page → Prop} {E : Failure → Lexer Book → Prop}

theorem On.mono {lx : Lexer Book} (h : On mark P lx) (hQ : ∀ p, P p → Q p) : On mark Q lx := by
  rcases h with ⟨p, hpages, hjoins, hpending, hmark, hP⟩
  exact ⟨p, hpages, hjoins, hpending, hmark, hQ p hP⟩

theorem leads_next {R : Option UInt8 → Page → Prop}
    (h : ∀ p, P p → R (p.read true).1 (p.read true).2) :
    Leads E (On mark P) next? fun d => On mark (R d) := by
  refine leads_of_ok fun lx hlx => ?_
  rcases hlx with ⟨p, hpages, hjoins, hpending, hmark, hP⟩
  refine ⟨_, _, next?_single hpages, (p.read lx.stream.joins).2, rfl, hjoins, hpending, hmark, ?_⟩
  rw [hjoins]
  exact h p hP

theorem leads_next_elim {R : Page → Prop} {S : UInt8 → Page → Prop}
    (h : ∀ p, P p → (p.read true).1.elim (R (p.read true).2) fun d => S d (p.read true).2) :
    Leads E (On mark P) next? fun d => d.elim (On mark R) fun d => On mark (S d) := by
  refine (leads_next (R := fun d p => d.elim (R p) fun d => S d p) h).post ?_
  rintro (_ | d) lx hlx
  · exact hlx
  · exact hlx

theorem leads_unread {c : UInt8} (h : ∀ p, P p → Q (p.putBack c)) :
    Leads E (On mark P) (unread c) fun _ lx => On mark Q lx ∧ (c ≠ backslash → lx.Ahead c) := by
  refine leads_of_ok fun lx hlx => ?_
  rcases hlx with ⟨p, hpages, hjoins, hpending, hmark, hP⟩
  refine ⟨(), _, unread_pages hpages c, ⟨_, rfl, hjoins, hpending, hmark, h p hP⟩, ?_⟩
  exact fun hc => ⟨_, next?_cons rfl (Page.rest_putBack p c) fun _ hpair => hc hpair.1⟩

theorem leads_warn (hE : ∀ f lx, On mark P lx → E f lx) (location : Location) (message : String) :
    Leads E (On mark P) (warn location message) fun _ => On mark P := by
  refine leads_warn_of (fun lx h _ _ => hE _ lx h) ?_
  rintro lx collector shown ⟨p, hpages, hjoins, hpending, hmark, hP⟩
  exact ⟨p, hpages, hjoins, hpending, hmark, hP⟩

theorem leads_finish (h : ∀ p n, P p → P { p with tokens := n }) (lexeme : Lexeme)
    (encoding : Encoding) :
    Leads E (On mark P) (finish lexeme encoding)
      fun t lx => (t.line, t.column) = mark ∧ On mark P lx := by
  refine leads_of_ok fun lx hlx => ?_
  rcases hlx with ⟨p, hpages, hjoins, hpending, hmark, hP⟩
  refine ⟨_, _, finish_pages hpages lexeme encoding, hmark, _, rfl, hjoins, hpending, hmark, ?_⟩
  exact h p _ hP

def stance (text : List UInt8) (mark : Int × Int) (stray : List UInt8) : Stance Book where
  loose := On mark (Loose text)
  ended := On mark (Over text)
  front := fun c => On mark (Front text stray c)
  out := fun cs => On mark (Out text stray cs)
  looked := fun cs => On mark (Looked text cs)
  behind := fun c cs => On mark (Behind text c cs)
  stray := (· ∈ stray)
  token := fun t => (t.line, t.column) = mark
  failure := fun _ => True

def footing (text : List UInt8) (mark : Int × Int) {stray : List UInt8} (hslash : byte '/' ∈ stray) :
    Footing Book where
  toStance := stance text mark stray
  loose_of_ended := fun h => h.mono fun _ hp => hp.2
  loose_of_front := fun h => h.mono fun _ hp => hp.loose
  loose_of_looked := fun h => h.mono fun _ hp => hp.loose
  looked_of_out := fun h => h.mono fun _ hp => hp.looked
  looked_single := fun h => h.mono fun _ hp => hp.single
  front_of_behind := fun hstray hc h => h.mono fun _ hp => hp.front hstray hc
  stray_slash := hslash
  next_loose := leads_next_elim fun _ hp => hp.next
  next_front := by
    refine fun c => leads_next_elim fun p hp => ?_
    rcases hp.read with ⟨p', hread, hp'⟩
    rw [hread]
    exact hp'
  next_looked := fun _ _ => leads_next_elim fun _ hp => hp.next
  next_behind := fun _ _ => leads_next_elim fun _ hp => hp.next
  next_stray := fun hstray _ => leads_next_elim fun _ hp => hp.next_stray hstray
  unread_front := fun _ => (leads_unread fun _ hp => hp.front).post fun _ _ h => h.1
  unread_out := fun _ _ _ => leads_unread fun _ hp => hp.putBack
  unread_looked := fun hc _ => leads_unread fun p hp => ⟨hc, p, rfl, hp⟩
  warn_loose := leads_warn fun _ _ h => ⟨trivial, h⟩
  warn_looked := fun _ => leads_warn fun _ _ h => ⟨trivial, h.mono fun _ hp => hp.loose⟩
  finish_ended := leads_finish fun p n hp => ⟨hp.1, hp.2.imp fun _ h => h.draw n⟩
  finish_looked := fun _ => leads_finish fun p n hp => hp.imp fun _ h => ⟨h.1.draw n, h.2⟩
  finish_behind := by
    refine fun c cs => leads_finish ?_
    rintro p n ⟨hc, q, rfl, before, h, htrail⟩
    refine ⟨hc, { q with tokens := n }, ?_, before, h.draw n, htrail⟩
    unfold Page.putBack
    split <;> rfl
  located := fun _ _ => trivial
  tooLarge := fun _ => trivial

variable {text stray : List UInt8} {c : UInt8} {p : Page} {lx lx' : Lexer Book} {t : Token}

/-- What is known of the page behind a token. -/
inductive Stood (text : List UInt8) (lexeme : Lexeme) (p : Page) : Prop
  | newline (h : lexeme = .newline) (looked : Looked text [Character.newline] p)
  | kept (h : lexeme ≠ .newline) {c : UInt8} (hc : c ≠ Character.newline) (looked : Looked text [c] p)
  | hash (h : lexeme = .punctuator .hash) {c : UInt8} (hc : c ≠ Character.newline)
      (behind : Behind text (byte '%') [c] p)
  | name {spelled : String} (h : lexeme = .ident spelled) {c : UInt8} (hc : c ≠ Character.newline)
      (behind : Behind text backslash [c] p)

/-- What is known of the page between two calls, by what the first of them gave. -/
def Between (text : List UInt8) : Option (Option Token) → Page → Prop
  | none, p => p.column = 1 ∧ Tracked text [] p
  | some none, p => Loose text p
  | some (some t), p => Stood text t.lexeme p ∨ t.lexeme = .eof ∧ Over text p

/-- The characters that may have been put back at the end of their line when a token begins with
them, by what the call before gave. -/
def strays : Option (Option Token) → List UInt8
  | some (some t) =>
      match t.lexeme with
      | .punctuator .hash => [byte '/', byte '%']
      | .ident _ => [byte '/', backslash]
      | _ => [byte '/']
  | _ => [byte '/']

theorem slash_mem_strays (last : Option (Option Token)) : byte '/' ∈ strays last := by
  unfold strays
  split
  · split
    · exact List.mem_cons_self
    · exact List.mem_cons_self
    · exact List.mem_cons_self
  · exact List.mem_cons_self

abbrev ground (text : List UInt8) (last : Option (Option Token)) (mark : Int × Int) : Footing Book :=
  footing text mark (slash_mem_strays last)

variable {last : Option (Option Token)}

theorem stood_of_left {hslash : byte '/' ∈ stray} {lexeme : Lexeme}
    (h : (footing text mark hslash).Left lexeme lx) : On mark (Stood text lexeme) lx := by
  cases h with
  | newline hlexeme looked => exact On.mono looked fun _ hp => .newline hlexeme hp
  | kept hlexeme kept =>
      rcases kept with ⟨c, hc, hlooked⟩
      exact On.mono hlooked fun _ hp => .kept hlexeme hc hp
  | hash hlexeme hc behind => exact On.mono behind fun _ hp => .hash hlexeme hc hp
  | name hlexeme hc behind => exact On.mono behind fun _ hp => .name hlexeme hc hp

theorem between_ground (h : On mark (Between text last) lx) :
    (ground text last mark).between lx := by
  rcases h with ⟨p, hpages, hjoins, hpending, hmark, h⟩
  have on : ∀ {P : Page → Prop}, P p → On mark P lx :=
    fun hP => ⟨p, hpages, hjoins, hpending, hmark, hP⟩
  match last, h with
  | none, h => exact Or.inl (on ⟨[], h.2⟩)
  | some none, h => exact Or.inl (on h)
  | some (some t), Or.inr h => exact Or.inl (on h.2.2)
  | some (some t), Or.inl h =>
      cases h with
      | newline _ looked => exact Or.inl (on looked.loose)
      | kept _ _ looked => exact Or.inl (on looked.loose)
      | hash hlexeme _ behind =>
          exact Or.inr ⟨_, _, by simp [footing, stance, strays, hlexeme], on behind⟩
      | name hlexeme _ behind =>
          exact Or.inr ⟨_, _, by simp [footing, stance, strays, hlexeme], on behind⟩

theorem setMark_on {P : Page → Prop} (h : On mark P lx) :
    ∃ p lx₁, lx.stream.pages = [p] ∧ P p ∧ setMark lx = .ok () lx₁ ∧
      On (p.line, p.column) (· = p) lx₁ := by
  rcases h with ⟨p, hpages, hjoins, hpending, -, hP⟩
  exact ⟨p, _, hpages, hP, setMark_pages hpages, p, hpages, hjoins, hpending, rfl, rfl⟩

theorem token_over (h : On mark (Over text) lx) :
    Leads (fun _ _ => False) (· = lx) token
      fun t lx' => t.lexeme = .eof ∧ ∃ mark, On mark (Over text) lx' := by
  rintro _ rfl
  rcases setMark_on h with ⟨p, lx₁, -, hover, hset, hon⟩
  rcases hon with ⟨_, hpages, hjoins, hpending, hmark, rfl⟩
  rw [token, bind_of_ok hset, bind_of_ok (next?_end hpages hover.1)]
  dsimp only
  rw [finish_pages hpages]
  refine ⟨rfl, _, _, rfl, hjoins, hpending, rfl, hover.1, ?_⟩
  exact hover.2.imp fun _ h => h.draw _

theorem token_front (h : On mark (Front text stray c) lx) :
    ∃ p lx₁, lx.stream.pages = [p] ∧ Front text stray c p ∧ token lx = tokenFrom c lx₁ ∧
      On (p.line, p.column) (Looked text [c]) lx₁ := by
  rcases setMark_on h with ⟨p, lx₁, hpages, hfront, hset, hon⟩
  rcases hon with ⟨_, hpages₁, hjoins, hpending, hmark, rfl⟩
  rcases hfront.read with ⟨p', hread, hout⟩
  have hnext := next?_single hpages₁
  rw [hjoins, hread] at hnext
  refine ⟨_, lx₁.withPages [p'], hpages, hfront, ?_, p', rfl, hjoins, hpending, hmark, hout.looked⟩
  rw [token, bind_of_ok hset, bind_of_ok hnext]

theorem nextToken_pages {below : List Page} (hpages : lx.stream.pages = p :: below)
    (hpending : lx.pending = [[]]) :
    nextToken lx =
      (do
        let spaced ← skipBlanks
        let t ← token
        pure { t with spaced, startsLine := p.column == 1 }) lx := by
  rw [nextToken, hpending]
  dsimp only
  rw [freshToken, bind_of_ok (needSource_pages hpages), bind_of_ok (isAtLineStart_pages hpages)]

theorem nextToken_ok (h : On mark (Between text last) lx) (hnext : nextToken lx = .ok t lx') :
    ∃ p spaced lx₁ t₁, lx.stream.pages = [p] ∧ skipBlanks lx = .ok spaced lx₁ ∧
      (ground text last mark).ready lx₁ ∧ token lx₁ = .ok t₁ lx' ∧
      t = { t₁ with spaced, startsLine := p.column == 1 } := by
  have hbetween := between_ground h
  rcases h with ⟨p, hpages, -, hpending, -⟩
  rw [nextToken_pages hpages hpending] at hnext
  rcases bind_eq_ok.mp hnext with ⟨spaced, lx₁, hblanks, hnext⟩
  rcases bind_eq_ok.mp hnext with ⟨t₁, lx₂, htoken, hnext⟩
  rcases pure_eq_ok.mp hnext with ⟨rfl, rfl⟩
  have hready := Footing.leads_skipBlanks.ok hbetween hblanks
  exact ⟨p, spaced, lx₁, t₁, hpages, hblanks, hready, htoken, rfl⟩

theorem between_ok (h : On mark (Between text last) lx) (hnext : nextToken lx = .ok t lx') :
    ∃ mark, On mark (Between text (some (some t))) lx' := by
  rcases nextToken_ok h hnext with ⟨p, spaced, lx₁, t₁, -, -, hready, htoken, rfl⟩
  rcases hready with hover | ⟨c, hfront⟩
  · have hrun := (token_over hover).ok rfl htoken
    rcases hrun with ⟨hlexeme, mark, hon⟩
    exact ⟨mark, hon.mono fun _ hp => Or.inr ⟨hlexeme, hp⟩⟩
  · rcases token_front hfront with ⟨q, lx₂, -, -, hfrom, hlooked⟩
    rw [hfrom] at htoken
    have hleft := (Footing.leads_tokenFrom (F := ground text last _) c).ok hlooked htoken
    exact ⟨_, (stood_of_left hleft.2).mono fun _ hp => Or.inl hp⟩

theorem between_error {f : Failure} (h : On mark (Between text last) lx)
    (hnext : nextToken lx = .error f lx') : ∃ mark, On mark (Between text (some none)) lx' := by
  have hbetween := between_ground h
  rcases h with ⟨p, hpages, -, hpending, -⟩
  rw [nextToken_pages hpages hpending] at hnext
  cases hblanks : skipBlanks lx with
  | error g lx₁ =>
      rw [bind_of_error hblanks] at hnext
      cases hnext
      exact ⟨mark, (Footing.leads_skipBlanks.error hbetween hblanks).2⟩
  | ok spaced lx₁ =>
      rw [bind_of_ok hblanks] at hnext
      have hready := Footing.leads_skipBlanks.ok hbetween hblanks
      cases htoken : token lx₁ with
      | ok t lx₂ =>
          rw [bind_of_ok htoken] at hnext
          cases hnext
      | error g lx₂ =>
          rw [bind_of_error htoken] at hnext
          cases hnext
          rcases hready with hover | ⟨c, hfront⟩
          · exact ((token_over hover).error rfl htoken).elim
          · rcases token_front hfront with ⟨q, lx₃, -, -, hfrom, hlooked⟩
            rw [hfrom] at htoken
            have hrun := (Footing.leads_tokenFrom (F := ground text last _) c).error hlooked htoken
            exact ⟨_, hrun.2⟩

theorem nextToken_front (h : On mark (Between text last) lx) (hnext : nextToken lx = .ok t lx')
    (hend : t.lexeme ≠ .eof) :
    ∃ spaced lx₁ p c, skipBlanks lx = .ok spaced lx₁ ∧ lx₁.stream.pages = [p] ∧
      Front text (strays last) c p ∧ (t.line, t.column) = (p.line, p.column) ∧
      (c = newline → t.lexeme = .newline) := by
  rcases nextToken_ok h hnext with ⟨p, spaced, lx₁, t₁, -, hblanks, hready, htoken, rfl⟩
  rcases hready with hover | ⟨c, hfront⟩
  · exact absurd ((token_over hover).ok rfl htoken).1 hend
  · rcases token_front hfront with ⟨q, lx₂, hpages, hq, hfrom, hlooked⟩
    rw [hfrom] at htoken
    have hread := (Footing.leads_tokenFrom (F := ground text last _) c).ok hlooked htoken
    refine ⟨spaced, lx₁, q, c, hblanks, hpages, hq, hread.1, ?_⟩
    rintro rfl
    rw [tokenFrom, if_pos rfl] at htoken
    exact show t₁.lexeme = .newline from lexeme_finish htoken

end Position

open Position

namespace Lexer

/-- What `n` calls for a token give, and the lexer after them. A call that fails gives none, and it
does not keep the next one from being made. -/
def nextTokens (lx : Lexer) : Nat → List (Option Token) × Lexer
  | 0 => ([], lx)
  | n + 1 =>
    match nextToken (nextTokens lx n).2 with
    | .ok t lx' => ((nextTokens lx n).1 ++ [some t], lx')
    | .error _ lx' => ((nextTokens lx n).1 ++ [none], lx')

/-- Behind the blanks that come next, the character `c` of a text is read. -/
def BeginsAt (text before : List UInt8) (c : UInt8) (after : List UInt8) (lx : Lexer) : Prop :=
  text = before ++ c :: after ∧ join (c :: after) = c :: join after ∧
    ∃ spaced lx', skipBlanks lx = .ok spaced lx' ∧ lx'.stream.readToEnd.1 = c :: join after

end Lexer

theorem nextToken_of_getLast? {lx : Lexer} {n : Nat} {t : Token}
    (h : (nextTokens lx (n + 1)).1.getLast? = some (some t)) :
    ∃ lx', nextToken (nextTokens lx n).2 = .ok t lx' := by
  rw [nextTokens] at h
  cases hnext : nextToken (nextTokens lx n).2 with
  | error f lx' =>
      rw [hnext] at h
      simp at h
  | ok u lx' =>
      rw [hnext] at h
      simp only [List.getLast?_concat, Option.some.injEq] at h
      exact ⟨lx', by rw [h]⟩

theorem between_nextTokens {stream : Stream} {source : Source} (hfiles : stream.files = [source])
    (hfresh : source.IsFresh) (options : Options) (n : Nat) :
    let run := nextTokens (Lexer.ofStream stream options) n
    run.2.stream.HasRoom 0 ∧ ∃ mark,
      On mark (Between (canon (source.lend stream.console).input.remaining) run.1.getLast?)
        run.2.book := by
  induction n with
  | zero =>
      refine ⟨(Stream.hasRoom_single hfiles hfresh).mono (Nat.zero_le 3), (1, 1), ?_⟩
      refine ⟨_, Stream.pages_single hfiles hfresh, rfl, rfl, rfl, rfl, rfl, ?_, rfl, Or.inl rfl⟩
      simp
  | succ n ih =>
      rcases ih with ⟨hroom, mark, hon⟩
      rw [nextTokens]
      cases hs : nextToken (nextTokens (Lexer.ofStream stream options) n).2 with
      | error f lx' =>
          rcases Stack.agrees_nextToken.error hroom hs with ⟨ht, hroom'⟩
          dsimp only
          rw [List.getLast?_concat]
          exact ⟨hroom', between_error hon ht⟩
      | ok t lx' =>
          rcases Stack.agrees_nextToken.ok hroom hs with ⟨ht, hroom'⟩
          dsimp only
          rw [List.getLast?_concat]
          exact ⟨hroom', between_ok hon ht⟩

theorem agrees_skipBlanks : Stack.Agrees skipBlanks skipBlanks :=
  Reading.same_skipBlanks (R := Stack.reading)

/-- Whatever the calls before gave, the line and the column of a token count the newlines before its
first character and the characters behind the last of them. Otherwise it has no column: then the
line ends behind that character, which is a slash, the percent sign behind a `%:`, or the backslash
behind a name. -/
theorem nextToken_place {stream : Stream} {source : Source} (hfiles : stream.files = [source])
    (hfresh : source.IsFresh) (options : Options) (n : Nat) :
    let text := canon (source.lend stream.console).input.remaining
    let run := nextTokens (Lexer.ofStream stream options) n
    ∀ t lx', nextToken run.2 = .ok t lx' → t.lexeme ≠ .newline → t.lexeme ≠ .eof →
      ∃ before c after, BeginsAt text before c after run.2 ∧
        (t.line = 1 + before.count newline ∧
            t.column = 1 + (before.reverse.takeWhile (· != newline)).length ∨
          t.column = 0 ∧ EndsLine after ∧ c ∈ strays run.1.getLast?) := by
  intro text run t lx' hnext hline hend
  rcases between_nextTokens hfiles hfresh options n with ⟨hroom, mark, hon⟩
  rcases nextToken_front hon (Stack.agrees_nextToken.ok hroom hnext).1 hend with
    ⟨spaced, u, p, c, hblanks, hpages, hfront, hplace, hc⟩
  rcases hfront.place fun heq => hline (hc heq) with ⟨before, after, htext, hjoin, hrest, h⟩
  rcases agrees_skipBlanks.of_book hroom hblanks with ⟨lx₁, hskip, rfl, -⟩
  refine ⟨before, c, after, ⟨htext, hjoin, spaced, lx₁, hskip, ?_⟩, ?_⟩
  · rw [Stream.textOf_readToEnd, show lx₁.stream.book.pages = [p] from hpages, ← hrest]
    simp [Book.textOf]
  · rw [Prod.mk.injEq] at hplace
    rw [hplace.1, hplace.2]
    rwa [placeAfter_eq, Prod.mk.injEq] at h

theorem nextToken_place_name :
    let text := bytes "+ \\\n x/*\n*/ y".toList
    let run := nextTokens (Lexer.ofStream (Stream.ofSources [.ofBytes "t.c" text])) 2
    ∃ t lx' before c after, nextToken run.2 = .ok t lx' ∧ t.lexeme = .ident "y" ∧
      BeginsAt (canon text) before c after run.2 ∧ before.count newline = 2 ∧
      (before.reverse.takeWhile (· != newline)).length = 3 := by
  intro text run
  let t : Token := { lexeme := .ident "y", file := some "t.c", line := 3, column := 4, index := 2,
                     spaced := true }
  have hlast : (nextTokens (Lexer.ofStream (Stream.ofSources [.ofBytes "t.c" text])) 3).1.getLast? =
      some (some t) := by
    decide +kernel
  rcases nextToken_of_getLast? hlast with ⟨lx', hnext⟩
  rcases nextToken_place rfl (Source.isFresh_ofBytes _ _) {} 2 t lx' hnext (by simp [t])
    (by simp [t]) with ⟨before, c, after, hbegins, ⟨hline, hcolumn⟩ | ⟨hzero, -⟩⟩
  · simp only [t] at hline hcolumn
    exact ⟨t, lx', before, c, after, hnext, rfl, hbegins, by omega, by omega⟩
  · cases hzero

/-- A slash at the end of its line is put back behind the newline. It stands in the third column and
is said to be in none. -/
theorem nextToken_place_slash :
    let text := bytes "a /\nb".toList
    let run := nextTokens (Lexer.ofStream (Stream.ofSources [.ofBytes "t.c" text])) 2
    let before := bytes ['a', ' ']
    canon text = before ++ byte '/' :: bytes ['\n', 'b', '\n'] ∧
      1 + before.count newline = 1 ∧ 1 + (before.reverse.takeWhile (· != newline)).length = 3 ∧
      (run.1.map fun o => o.map fun t => (t.lexeme, t.line, t.column)) =
        [some (.ident "a", 1, 1), some (.punctuator .slash, 1, 0)] := by
  decide +kernel

end CLex
