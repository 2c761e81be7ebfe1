import CLex.Proofs.Book
import CLex.Proofs.Simulation.Token

namespace CLex

open Character Reading

namespace Lexer

/-- The lexer with other pages to read. -/
def withPages (lx : Lexer Book) (pages : List Page) : Lexer Book :=
  { lx with stream := { lx.stream with pages } }

variable {lx : Lexer Book} {p : Page} {below : List Page}

@[simp] theorem pages_withPages (pages : List Page) : (lx.withPages pages).stream.pages = pages :=
  rfl

@[simp] theorem joins_withPages (pages : List Page) :
    (lx.withPages pages).stream.joins = lx.stream.joins :=
  rfl

@[simp] theorem options_withPages (pages : List Page) : (lx.withPages pages).options = lx.options :=
  rfl

@[simp] theorem pending_withPages (pages : List Page) : (lx.withPages pages).pending = lx.pending :=
  rfl

@[simp] theorem mark_withPages (pages : List Page) : (lx.withPages pages).mark = lx.mark :=
  rfl

@[simp] theorem withPages_withPages (pages pages' : List Page) :
    (lx.withPages pages).withPages pages' = lx.withPages pages' :=
  rfl

theorem withPages_self {pages : List Page} (h : lx.stream.pages = pages) :
    lx.withPages pages = lx := by
  subst h
  rfl

theorem next?_single (h : lx.stream.pages = [p]) :
    next? lx = .ok (p.read lx.stream.joins).1 (lx.withPages [(p.read lx.stream.joins).2]) := by
  show EStateM.Result.ok lx.stream.read.1 { lx with stream := lx.stream.read.2 } = _
  rw [Book.read, h]
  rfl

theorem next?_cons (h : lx.stream.pages = p :: below) {c : UInt8} {rest : List UInt8}
    (hp : p.rest = c :: rest)
    (hc : lx.stream.joins = true → ¬ (c = backslash ∧ rest.head? = some newline)) :
    next? lx = .ok (some c) (lx.withPages ({ p with rest }.advance c :: below)) := by
  show EStateM.Result.ok lx.stream.read.1 { lx with stream := lx.stream.read.2 } = _
  rw [Book.read_cons h hp hc]
  rfl

theorem next?_read (h : lx.stream.pages = p :: below) {c : UInt8} {p' : Page}
    (hread : p.read lx.stream.joins = (some c, p')) :
    next? lx = .ok (some c) (lx.withPages (p' :: below)) := by
  show EStateM.Result.ok lx.stream.read.1 { lx with stream := lx.stream.read.2 } = _
  rw [Book.read, h]
  cases below with
  | nil =>
      rw [Book.readPages, hread]
      rfl
  | cons q below =>
      rw [Book.readPages, hread]
      rfl

theorem next?_turn {q p' : Page} (h : lx.stream.pages = p :: q :: below)
    (hread : p.read lx.stream.joins = (none, p')) :
    next? lx = next? (lx.withPages (q :: below)) := by
  show EStateM.Result.ok lx.stream.read.1 { lx with stream := lx.stream.read.2 } =
    EStateM.Result.ok (lx.withPages (q :: below)).stream.read.1
      { lx.withPages (q :: below) with stream := (lx.withPages (q :: below)).stream.read.2 }
  rw [Book.read, Book.read, h, Book.readPages, hread]
  rfl

theorem unread_pages (h : lx.stream.pages = p :: below) (c : UInt8) :
    unread c lx = .ok () (lx.withPages (p.putBack c :: below)) := by
  rw [unread, show CharStream.unread lx.stream c = lx.stream.unread c from rfl, Book.unread, h]
  rfl

theorem place?_pages (h : lx.stream.pages = p :: below) :
    CharStream.place? lx.stream = some p.location := by
  show lx.stream.pages.head?.map Page.location = _
  rw [h]
  rfl

theorem location_pages (h : lx.stream.pages = p :: below) :
    CharStream.location lx.stream = p.location := by
  rw [CharStream.location, place?_pages h]
  rfl

theorem needSource_pages (h : lx.stream.pages = p :: below) : needSource lx = .ok () lx := by
  rw [needSource, place?_pages h]

theorem isAtLineStart_pages (h : lx.stream.pages = p :: below) :
    isAtLineStart lx = .ok (p.column == 1) lx := by
  rw [isAtLineStart, location_pages h]
  rfl

theorem setMark_pages (h : lx.stream.pages = p :: below) :
    setMark lx = .ok () { lx with mark := (p.line, p.column) } := by
  rw [setMark, place?_pages h]
  rfl

theorem marked_pages (h : lx.stream.pages = p :: below) :
    marked lx = .ok ⟨p.name, lx.mark.1, lx.mark.2⟩ lx := by
  rw [marked, location_pages h]
  rfl

theorem finish_pages (h : lx.stream.pages = p :: below) (lexeme : Lexeme) (encoding : Encoding) :
    finish lexeme encoding lx =
      .ok { lexeme, encoding, file := some p.name, line := lx.mark.1, column := lx.mark.2,
            index := p.tokens }
        (lx.withPages ({ p with tokens := p.tokens + 1 } :: below)) := by
  have hdraw : CharStream.draw lx.stream =
      (p.tokens, { lx.stream with pages := { p with tokens := p.tokens + 1 } :: below }) := by
    rw [show CharStream.draw lx.stream = lx.stream.draw from rfl, Book.draw, h]
  rw [finish, place?_pages h]
  dsimp only
  rw [hdraw]
  rfl

/-- No backslash of the text to come stands before a newline, or lines are not joined. -/
def Settled (lx : Lexer Book) (p : Page) : Prop :=
  lx.stream.joins = true → Lines.Unjoined p.rest

theorem Settled.single (hs : lx.Settled p) {c : UInt8} {rest : List UInt8}
    (hp : p.rest = c :: rest) (hj : lx.stream.joins = true) :
    ¬ (c = backslash ∧ rest.head? = some newline) := by
  have hchain := hs hj
  rw [hp, Lines.Unjoined, List.isChain_cons] at hchain
  exact fun hc => hchain.1 newline (by simpa using hc.2) ⟨hc.1, rfl⟩

theorem next?_settled (h : lx.stream.pages = p :: below) (hs : lx.Settled p) {c : UInt8}
    {rest : List UInt8} (hp : p.rest = c :: rest) :
    next? lx = .ok (some c) (lx.withPages ({ p with rest }.advance c :: below)) :=
  next?_cons h hp (hs.single hp)

theorem next?_end (h : lx.stream.pages = [p]) (hp : p.rest = []) : next? lx = .ok none lx := by
  rw [next?_single h, Page.read_nil hp, withPages_self h]

theorem takeIf_single (h : lx.stream.pages = p :: below) {c : UInt8} {rest : List UInt8}
    (hp : p.rest = c :: rest)
    (hsingle : lx.stream.joins = true → ¬ (c = backslash ∧ rest.head? = some newline))
    (f : UInt8 → Bool) :
    takeIf f lx =
      if f c then .ok (some c) (lx.withPages ({ p with rest }.advance c :: below))
      else .ok none (lx.withPages (p.look :: below)) := by
  rw [takeIf, LexM.bind_of_ok (next?_cons h hp hsingle)]
  dsimp only
  split
  · rfl
  · rw [LexM.bind_of_ok (unread_pages rfl c), Page.putBack_advance_eq_look hp]
    rfl

theorem skipIf_single (h : lx.stream.pages = p :: below) {d : UInt8} {rest : List UInt8}
    (hp : p.rest = d :: rest)
    (hsingle : lx.stream.joins = true → ¬ (d = backslash ∧ rest.head? = some newline))
    (c : UInt8) :
    skipIf c lx =
      if d = c then .ok true (lx.withPages ({ p with rest }.advance d :: below))
      else .ok false (lx.withPages (p.look :: below)) := by
  have htake := takeIf_single h hp hsingle (· == c)
  by_cases hd : d = c
  · rw [if_pos (by simpa using hd)] at htake
    rw [skipIf, LexM.bind_of_ok htake, if_pos hd]
    rfl
  · rw [if_neg (by simpa using hd)] at htake
    rw [skipIf, LexM.bind_of_ok htake, if_neg hd]
    rfl

theorem takeIf_cons (h : lx.stream.pages = p :: below) (hs : lx.Settled p) {c : UInt8}
    {rest : List UInt8} (hp : p.rest = c :: rest) (f : UInt8 → Bool) :
    takeIf f lx =
      if f c then .ok (some c) (lx.withPages ({ p with rest }.advance c :: below))
      else .ok none (lx.withPages (p.look :: below)) :=
  takeIf_single h hp (hs.single hp) f

theorem skipIf_cons (h : lx.stream.pages = p :: below) (hs : lx.Settled p) {d : UInt8}
    {rest : List UInt8} (hp : p.rest = d :: rest) (c : UInt8) :
    skipIf c lx =
      if d = c then .ok true (lx.withPages ({ p with rest }.advance d :: below))
      else .ok false (lx.withPages (p.look :: below)) :=
  skipIf_single h hp (hs.single hp) c

theorem takeIf_end (h : lx.stream.pages = [p]) (hp : p.rest = []) (f : UInt8 → Bool) :
    takeIf f lx = .ok none lx := by
  rw [takeIf, LexM.bind_of_ok (next?_end h hp)]
  rfl

theorem takeIf_none (h : lx.stream.pages = [p]) (hs : lx.Settled p) {f : UInt8 → Bool}
    {lx' : Lexer Book} (hnone : takeIf f lx = .ok none lx') : lx' = lx.withPages [p.look] := by
  cases hp : p.rest with
  | nil =>
      rw [takeIf_end h hp] at hnone
      cases hnone
      rw [Page.look, hp, if_neg (by simp), withPages_self h]
  | cons c rest =>
      rw [takeIf_cons h hs hp] at hnone
      split at hnone
      · cases hnone
      · cases hnone
        rfl

theorem skipIf_false (h : lx.stream.pages = [p]) (hs : lx.Settled p) {c : UInt8}
    {lx' : Lexer Book} (hfalse : skipIf c lx = .ok false lx') : lx' = lx.withPages [p.look] := by
  rcases LexM.bind_eq_ok.mp hfalse with ⟨d, lx₁, htake, hd⟩
  cases d with
  | none =>
      rcases LexM.pure_eq_ok.mp hd with ⟨-, rfl⟩
      exact takeIf_none h hs htake
  | some d => cases hd

theorem skipBlank_false (h : lx.stream.pages = [p]) (hs : lx.Settled p) {lx' : Lexer Book}
    (hfalse : skipBlank lx = .ok false lx') :
    ∃ p', lx' = lx.withPages [p'] ∧ p'.rest = p.rest := by
  cases hp : p.rest with
  | nil =>
      rw [skipBlank, LexM.bind_of_ok (next?_end h hp)] at hfalse
      cases hfalse
      exact ⟨p, (withPages_self h).symm, hp⟩
  | cons c rest =>
      rw [skipBlank, LexM.bind_of_ok (next?_settled h hs hp)] at hfalse
      dsimp only at hfalse
      split at hfalse
      · cases hfalse
      · split at hfalse
        · have hs₁ : (lx.withPages [{ p with rest }.advance c]).Settled ({ p with rest }.advance c) := by
            intro hj
            have hchain := hs hj
            rw [hp] at hchain
            rw [Page.rest_advance]
            exact hchain.tail
          rcases LexM.bind_eq_ok.mp hfalse with ⟨star, lx₁, hstar, hfalse⟩
          cases star with
          | true =>
              rw [if_pos rfl] at hfalse
              rcases LexM.bind_eq_ok.mp hfalse with ⟨_, _, _, hpure⟩
              cases hpure
          | false =>
              rw [if_neg (by simp)] at hfalse
              rcases LexM.bind_eq_ok.mp hfalse with ⟨slash, lx₂, hslash, hfalse⟩
              have h₁ := skipIf_false rfl hs₁ hstar
              subst h₁
              cases slash with
              | true =>
                  rw [if_pos rfl] at hfalse
                  rcases LexM.bind_eq_ok.mp hfalse with ⟨_, _, _, hpure⟩
                  cases hpure
              | false =>
                  have h₂ := skipIf_false rfl (by intro hj; rw [Page.rest_look]; exact hs₁ hj) hslash
                  subst h₂
                  rw [if_neg (by simp), LexM.bind_of_ok (unread_pages rfl c)] at hfalse
                  rcases LexM.pure_eq_ok.mp hfalse with ⟨-, rfl⟩
                  exact ⟨_, rfl, by simp⟩
        · rw [LexM.bind_of_ok (unread_pages rfl c)] at hfalse
          rcases LexM.pure_eq_ok.mp hfalse with ⟨-, rfl⟩
          exact ⟨_, rfl, by simp⟩

theorem skipBlank_single (h : lx.stream.pages = p :: below) {c : UInt8} {rest : List UInt8}
    (hp : p.rest = c :: rest)
    (hsingle : lx.stream.joins = true → ¬ (c = backslash ∧ rest.head? = some newline))
    (hblank : isBlank c.toNat = false) (hslash : c ≠ byte '/') :
    skipBlank lx = .ok false (lx.withPages (p.look :: below)) := by
  rw [skipBlank, LexM.bind_of_ok (next?_cons h hp hsingle)]
  dsimp only
  rw [if_neg (by simp [hblank]), if_neg hslash, LexM.bind_of_ok (unread_pages rfl c),
    withPages_withPages, Page.putBack_advance_eq_look hp]
  rfl

theorem skipBlanks_single (h : lx.stream.pages = p :: below) {c : UInt8} {rest : List UInt8}
    (hp : p.rest = c :: rest)
    (hsingle : lx.stream.joins = true → ¬ (c = backslash ∧ rest.head? = some newline))
    (hblank : isBlank c.toNat = false) (hslash : c ≠ byte '/') :
    skipBlanks lx = .ok false (lx.withPages (p.look :: below)) := by
  rw [skipBlanks, LexM.loop_eq, blankRound,
    LexM.bind_of_ok (skipBlank_single h hp hsingle hblank hslash)]
  rfl

theorem skipBlanks_cons (h : lx.stream.pages = [p]) (hs : lx.Settled p) {c : UInt8}
    {rest : List UInt8} (hp : p.rest = c :: rest) (hblank : isBlank c.toNat = false)
    (hslash : c ≠ byte '/') : skipBlanks lx = .ok false (lx.withPages [p.look]) :=
  skipBlanks_single h hp (hs.single hp) hblank hslash

theorem freshToken_cons (h : lx.stream.pages = [p]) (hs : lx.Settled p) {c : UInt8}
    {rest : List UInt8} (hp : p.rest = c :: rest) (hblank : isBlank c.toNat = false)
    (hslash : c ≠ byte '/') :
    freshToken lx =
      (do
        let t ← tokenFrom c
        pure { t with spaced := false, startsLine := p.column == 1 })
        ({ lx with mark := (p.look.line, p.look.column) }.withPages
          [{ p.look with rest }.advance c]) := by
  have hlook : p.look.rest = c :: rest := by rw [Page.rest_look, hp]
  have hnext : next? ({ lx.withPages [p.look] with mark := (p.look.line, p.look.column) }) =
      .ok (some c) ({ lx with mark := (p.look.line, p.look.column) }.withPages
        [{ p.look with rest }.advance c]) :=
    next?_settled rfl (by rw [Settled, Page.rest_look]; exact hs) hlook
  rw [freshToken, LexM.bind_of_ok (needSource_pages h), LexM.bind_of_ok (isAtLineStart_pages h),
    LexM.bind_of_ok (skipBlanks_cons h hs hp hblank hslash), token, bind_assoc,
    LexM.bind_of_ok (setMark_pages rfl), bind_assoc, LexM.bind_of_ok hnext]

theorem skipBlanks_end {σ : Type} [CharStream σ] {lx : Lexer σ} (h : next? lx = .ok none lx) :
    skipBlanks lx = .ok false lx := by
  rw [skipBlanks, LexM.loop_eq, blankRound, skipBlank, bind_assoc, LexM.bind_of_ok h]
  rfl

theorem skipBlanks_false {σ : Type} [CharStream σ] {lx lx' : Lexer σ}
    (hfalse : skipBlanks lx = .ok false lx') : skipBlank lx = .ok false lx' := by
  rw [skipBlanks, LexM.loop_eq] at hfalse
  cases hblank : skipBlank lx with
  | error f lx₁ =>
      rw [blankRound, LexM.bind_of_error hblank] at hfalse
      cases hfalse
  | ok skipped lx₁ =>
      rw [blankRound, LexM.bind_of_ok hblank] at hfalse
      cases skipped with
      | false => exact hfalse
      | true =>
          have hstays : true = true → false = true := by
            refine LexM.loop_induction (fun before _ skipped _ => before = true → skipped = true)
              ?_ ?_ hfalse
            · intro a lx r lx' h
              rcases LexM.bind_eq_ok.mp h with ⟨b, _, _, hb⟩
              cases b <;> cases hb
              exact id
            · intro a lx b lx' r lx'' h ih _
              rcases LexM.bind_eq_ok.mp h with ⟨c, _, _, hc⟩
              cases c <;> cases hc
              exact ih rfl
          exact absurd (hstays rfl) (by simp)

end Lexer

theorem Reading.same_warn_of_options {R : Reading Book Book} {H : Lexer Book → Lexer Book → Prop}
    (hopt : ∀ s t, H s t → s.options = t.options)
    (hnote : ∀ s t notes notes' collector collector', H s t →
      H { s with collector, stream := { s.stream with notes } }
        { t with collector := collector', stream := { t.stream with notes := notes' } })
    (hout : ∀ s t, H s t → R.Out s t) {l l' : Location} (hl : R.place l l') (text : String) :
    R.Same H (fun _ => H) (Lexer.warn l text) (Lexer.warn l' text) := by
  intro s t h
  have henable : t.options.enableWarnings = s.options.enableWarnings := by rw [hopt s t h]
  have herrors : t.options.warningsAsErrors = s.options.warningsAsErrors := by rw [hopt s t h]
  unfold Lexer.warn
  rw [henable, herrors]
  split
  · split
    · exact Or.inr ⟨R.located hl _, hout s t h⟩
    · exact ⟨rfl, hnote _ _ _ _ _ _ h⟩
  · exact ⟨rfl, h⟩

end CLex
