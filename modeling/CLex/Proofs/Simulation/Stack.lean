import CLex.Proofs.Simulation.Token
import CLex.Proofs.View

namespace CLex

open Character Lexer Reading

/-- The lexer of the book of a stack of sources. -/
def Lexer.book (lx : Lexer) : Lexer Book :=
  { stream := lx.stream.book, options := lx.options, collector := lx.collector,
    pending := lx.pending, mark := lx.mark }

namespace Stack

/-- The second lexer is that of the book, and there is room to put these characters back. -/
def Held (cs : List UInt8) (s : Lexer) (t : Lexer Book) : Prop :=
  t = s.book ∧ s.stream.HasRoom cs.length

variable {cs : List UInt8} {s : Lexer} {t : Lexer Book}

theorem Held.mono {ds : List UInt8} (h : Held cs s t) (hlen : ds.length ≤ cs.length) :
    Held ds s t :=
  ⟨h.1, h.2.mono hlen⟩

theorem next_book (s : Lexer) {n : Nat} (h : s.stream.HasRoom n) {m : Nat} (hle : m ≤ n + 1)
    (hm : m ≤ 2) : ∃ c s', next? s = .ok c s' ∧ next? s.book = .ok c s'.book ∧
      s'.stream.HasRoom m := by
  have hread := s.stream.read_book
  refine ⟨s.stream.readAcross.1, { s with stream := s.stream.readAcross.2 }, rfl, ?_,
    h.readAcross hle hm⟩
  show EStateM.Result.ok s.stream.book.read.1 { s.book with stream := s.stream.book.read.2 } = _
  rw [hread]
  rfl

theorem next_of_unread {s s' : Lexer} {n : Nat} (h : s.stream.HasRoom (n + 1)) {c : UInt8}
    (hc : c ≠ backslash) (hs : Lexer.unread c s = .ok () s') : ∃ s'', next? s' = .ok (some c) s'' := by
  rcases h.unread c with ⟨stream, hstream, hbook, -⟩
  have hs' : s' = { s with stream } := by
    rw [show Lexer.unread c s = .ok () { s with stream } by
      simp [Lexer.unread, show CharStream.unread s.stream c = .ok stream from hstream]] at hs
    cases hs
    rfl
  refine ⟨{ s' with stream := s'.stream.readAcross.2 }, ?_⟩
  have hread : s'.stream.readAcross.1 = some c := by
    rw [hs']
    have hfst := congrArg Prod.fst stream.read_book
    rcases h with ⟨top, below, hf, -⟩
    have hpages : s.stream.book.pages = _ :: _ := congrArg (Stream.pagesOf s.stream.console) hf
    rw [Book.unread, hpages, Except.ok.injEq] at hbook
    rw [← hbook, Book.read_cons rfl (Page.rest_putBack _ _) fun _ h => hc h.1] at hfst
    exact hfst.symm
  rw [← hread]
  rfl

theorem unread_book {n : Nat} (h : s.stream.HasRoom (n + 1)) (c : UInt8) :
    ∃ s', Lexer.unread c s = .ok () s' ∧ Lexer.unread c s.book = .ok () s'.book ∧
      s'.stream.HasRoom n := by
  rcases h.unread c with ⟨stream, hstream, hbook, hroom⟩
  refine ⟨{ s with stream }, ?_, ?_, hroom⟩
  · simp [Lexer.unread, show CharStream.unread s.stream c = .ok stream from hstream]
  · rw [Lexer.unread, show CharStream.unread s.book.stream c = .ok stream.book from hbook]
    rfl

theorem location_eq (h : Held cs s t) :
    CharStream.location s.stream = CharStream.location t.stream := by
  rw [h.1]
  exact (Stream.location_book s.stream).symm

theorem place?_eq (h : Held cs s t) : CharStream.place? s.stream = CharStream.place? t.stream := by
  rw [h.1]
  exact (Stream.place?_book s.stream).symm

theorem back_eq {l l' : Location} (h : l = l') (count : Int) : l.back count = l'.back count := by
  rw [h]

theorem located_eq {l l' : Location} (h : l = l') (cause : Cause) :
    Failure.located cause l = .located cause l' := by
  rw [h]

theorem flag_eq {a b : Token} (h : a = b) {x y : Bool} (hxy : x = y) (spaced : Bool) :
    ({ a with spaced, startsLine := x } : Token) = { b with spaced, startsLine := y } := by
  rw [h, hxy]

/-- The reading of a stack beside that of its book. -/
def reading : Reading Stream Book where
  held := Held
  place := Eq
  failure := Eq
  lax := False
  next := by
    rintro cs s t ⟨rfl, hroom⟩ plain
    rcases next_book s hroom (Nat.le_refl _) (Nat.succ_le_succ plain.1) with ⟨c, s', hs, ht, h⟩
    refine ⟨c, s', s'.book, hs, ht, ?_⟩
    cases c with
    | none => exact ⟨rfl, h.mono (Nat.le_succ _)⟩
    | some c => exact ⟨rfl, h⟩
  nextLine := by
    rintro cs s t ⟨rfl, hroom⟩
    rcases next_book s hroom (m := 1) (Nat.succ_le_succ (Nat.zero_le _)) (Nat.le_succ 1) with
      ⟨c, s', hs, ht, h⟩
    refine Or.inr ⟨c, s', s'.book, hs, ht, ?_⟩
    cases c with
    | none => exact ⟨rfl, h.mono (Nat.zero_le 1)⟩
    | some c => exact ⟨rfl, h⟩
  keep := fun h _ => h.mono (Nat.zero_le _)
  unread := by
    rintro c cs s t ⟨rfl, hroom⟩ plain
    rcases unread_book hroom c with ⟨s', hs, ht, h⟩
    exact ⟨s', s'.book, hs, ht, ⟨rfl, h⟩, fun hc => next_of_unread hroom hc hs⟩
  here := location_eq
  back := back_eq
  located := located_eq

/-- Lexing a stack beside lexing its book. -/
def simulation : FreshSimulation Stream Book where
  toReading := reading
  word := Held []
  after := fun _ => Held []
  token := Eq
  lineStart := Eq
  failure_refl := fun _ => rfl
  warn := by
    rintro cs l l' rfl text s t ⟨rfl, hroom⟩
    show Alike _ _ _ (Lexer.warn l text s) (Lexer.warn l text s.book)
    unfold Lexer.warn
    show Alike _ _ _ _ (if s.options.enableWarnings then if s.options.warningsAsErrors then _ else _
      else _)
    split
    · split
      · exact Or.inr ⟨rfl, cs, rfl, hroom⟩
      · refine ⟨rfl, ?_, hroom⟩
        simp only [Lexer.book]
        rfl
    · exact ⟨rfl, rfl, hroom⟩
  marked := by
    rintro cs s t h
    refine ⟨?_, h⟩
    rw [location_eq h, h.1]
    rfl
  setMark := by
    rintro s t h
    have hplace := place?_eq h
    unfold Lexer.setMark
    rw [← hplace]
    rcases h with ⟨rfl, hroom⟩
    cases CharStream.place? s.stream with
    | none => exact ⟨rfl, rfl, hroom⟩
    | some place => exact ⟨rfl, rfl, hroom⟩
  needSource := by
    rintro s t h
    have hplace := place?_eq h
    unfold Lexer.needSource
    rw [← hplace]
    cases CharStream.place? s.stream with
    | none => exact Or.inr ⟨rfl, [], h⟩
    | some place => exact ⟨rfl, h⟩
  isAtLineStart := by
    rintro s t h
    refine ⟨?_, h⟩
    rw [location_eq h]
  finish := by
    rintro lexeme encoding s t h
    have hplace := place?_eq h
    unfold Lexer.finish
    rw [← hplace]
    rcases h with ⟨rfl, hroom⟩
    have hdraw : CharStream.draw s.book.stream = (s.stream.draw.1, s.stream.draw.2.book) :=
      Stream.draw_book s.stream
    cases CharStream.place? s.stream with
    | none => exact ⟨rfl, rfl, hroom⟩
    | some place =>
        dsimp only
        rw [hdraw]
        exact ⟨rfl, rfl, hroom.draw⟩
  flag := flag_eq
  word_none := next_none (R := reading)
  word_unread := fun _ => same_unread plain_nil
  word_retreat := by
    rintro s s' t t' ⟨rfl, hroom⟩ hs ht
    refine retreat (R := reading) ?_ hs ht
    rcases next_book s hroom (Nat.le_refl 2) (Nat.le_refl 2) with ⟨c, s₁, hs₁, ht₁, h₁⟩
    refine ⟨c, s₁, s₁.book, hs₁, ht₁, ?_⟩
    cases c with
    | none => exact ⟨rfl, h₁.mono (Nat.le_succ 1)⟩
    | some c =>
        rcases unread_book h₁ c with ⟨s₂, hs₂, ht₂, h₂⟩
        exact ⟨s₂, s₂.book, hs₂, ht₂, rfl, h₂⟩
  after_word := fun h _ _ => h
  after_held := fun h _ _ _ => h
  after_end := next_none (R := reading)
  after_newline := fun h => h.mono (Nat.zero_le 1)

/-- An operation ends alike on the stack and on the book, and leaves room. -/
def Agrees {α : Type} (m : LexM α) (n : LexOn Book α) : Prop :=
  simulation.Same (Held []) (fun _ => Held []) m n

theorem Agrees.ok {α : Type} {m : LexM α} {n : LexOn Book α} (h : Agrees m n) {lx lx' : Lexer} {a : α}
    (hroom : lx.stream.HasRoom 0) (hm : m lx = .ok a lx') :
    n lx.book = .ok a lx'.book ∧ lx'.stream.HasRoom 0 := by
  have hrun := h lx lx.book ⟨rfl, hroom⟩
  rw [hm] at hrun
  rcases hrun.exists_ok with ⟨b, t, hn, rfl, rfl, hroom'⟩
  exact ⟨hn, hroom'⟩

theorem Agrees.error {α : Type} {m : LexM α} {n : LexOn Book α} (h : Agrees m n) {lx lx' : Lexer}
    {f : Failure} (hroom : lx.stream.HasRoom 0) (hm : m lx = .error f lx') :
    n lx.book = .error f lx'.book ∧ lx'.stream.HasRoom 0 := by
  have hrun := h lx lx.book ⟨rfl, hroom⟩
  rw [hm] at hrun
  cases hn : n lx.book with
  | ok => rw [hn] at hrun; exact hrun.elim
  | error g t =>
      rw [hn] at hrun
      rcases hrun with hlax | ⟨rfl, cs, rfl, hroom'⟩
      · exact hlax.elim
      · exact ⟨rfl, hroom'.mono (Nat.zero_le _)⟩

theorem Agrees.of_book {α : Type} {m : LexM α} {n : LexOn Book α} (h : Agrees m n) {lx : Lexer}
    {t : Lexer Book} {a : α} (hroom : lx.stream.HasRoom 0) (hn : n lx.book = .ok a t) :
    ∃ lx', m lx = .ok a lx' ∧ t = lx'.book ∧ lx'.stream.HasRoom 0 := by
  cases hm : m lx with
  | ok b lx' =>
      rcases h.ok hroom hm with ⟨hb, hroom'⟩
      cases hn.symm.trans hb
      exact ⟨lx', rfl, rfl, hroom'⟩
  | error f lx' => cases hn.symm.trans (h.error hroom hm).1

theorem Agrees.error_of_book {α : Type} {m : LexM α} {n : LexOn Book α} (h : Agrees m n) {lx : Lexer}
    {t : Lexer Book} {f : Failure} (hroom : lx.stream.HasRoom 0) (hn : n lx.book = .error f t) :
    ∃ lx', m lx = .error f lx' := by
  cases hm : m lx with
  | ok b lx' => cases hn.symm.trans (h.ok hroom hm).1
  | error g lx' =>
      cases hn.symm.trans (h.error hroom hm).1
      exact ⟨lx', rfl⟩

theorem agrees_token {m : LexM Token} {n : LexOn Book Token}
    (h : simulation.Runs (simulation.held []) simulation.Read m n) : Agrees m n :=
  Runs.post h fun _ _ _ _ hread => ⟨hread.1, hread.2.2⟩

theorem agrees_nextToken : Agrees nextToken nextToken := by
  intro s t h
  have hpending : t.pending = s.pending := by rw [h.1]; rfl
  have hend : Agrees endToken endToken :=
    same_bind simulation.setMark fun _ =>
      agrees_token (Simulation.runs_finish .eof .plain)
  have hfresh : Agrees freshToken freshToken := agrees_token FreshSimulation.runs_freshToken
  rcases hp : s.pending with _ | ⟨_ | ⟨a, rest⟩, outer⟩
  · simp only [nextToken, hp, hpending]
    exact Or.inr ⟨rfl, [], h⟩
  · cases outer with
    | nil =>
        simp only [nextToken, hp, hpending]
        exact hfresh s t h
    | cons buffer outer =>
        simp only [nextToken, hp, hpending]
        exact hend s t h
  · simp only [nextToken, hp, hpending]
    rcases h with ⟨rfl, hroom⟩
    exact ⟨rfl, rfl, hroom⟩

/-- The tokens of a stack are those of its book, and so is what is left. -/
theorem listing_book (lx : Lexer) (h : lx.stream.HasRoom 0) :
    lx.book.listing = ⟨lx.listing.tokens, lx.listing.failure, lx.listing.lexer.book⟩ := by
  induction lx using listing_induction with
  | error lx f lx' hs =>
      rw [listing_of_error hs, listing_of_error (agrees_nextToken.error h hs).1]
  | last lx t lx' hs hend =>
      rw [listing_of_end hs hend, listing_of_end (agrees_nextToken.ok h hs).1 hend]
  | more lx t lx' hs hend ih =>
      rcases agrees_nextToken.ok h hs with ⟨ht, hroom⟩
      rw [listing_of_more hs hend, listing_of_more ht hend, ih hroom]
      rfl

end Stack

end CLex
