import CLex.Proofs.Book
import CLex.Stream

namespace CLex

open Character Lines

namespace Source

/-- The characters to come from the input. -/
def ahead (s : Source) : List UInt8 :=
  complete s.isLineClosed (uniform s.input.remaining)

def page (s : Source) : Page :=
  { name := s.name, rest := s.pushback ++ s.ahead, line := s.line, column := s.column,
    tokens := s.tokens }

structure IsFresh (s : Source) : Prop where
  last : s.last = none
  line : s.line = 1
  column : s.column = 1
  pushback : s.pushback = []
  tokens : s.tokens = 0

theorem isFresh_ofBytes (name : String) (bytes : List UInt8) : (ofBytes name bytes).IsFresh :=
  ⟨rfl, rfl, rfl, rfl, rfl⟩

theorem isFresh_ofFile (name : String) (bytes : List UInt8) : (ofFile name bytes).IsFresh :=
  ⟨rfl, rfl, rfl, rfl, rfl⟩

theorem IsFresh.lend {s : Source} (h : s.IsFresh) (console : List UInt8) :
    (s.lend console).IsFresh :=
  ⟨h.last, h.line, h.column, h.pushback, h.tokens⟩

theorem IsFresh.page_eq {s : Source} (h : s.IsFresh) :
    s.page = { name := s.name, rest := canon s.input.remaining } := by
  have hclosed : s.isLineClosed = false := by rw [isLineClosed, h.last]; rfl
  rw [page, ahead, hclosed, h.line, h.column, h.pushback, h.tokens]
  rfl

theorem ahead_eq_cons {s s' : Source} {c : UInt8} (h : s.readInput = (some c, s')) :
    s.ahead = c :: s'.ahead := by
  unfold readInput at h
  split at h
  · next rest hn =>
    obtain ⟨hnil, rfl⟩ := Input.remaining_next_none hn
    by_cases hc : s.isLineClosed = true
    · simp [hc] at h
    · simp only [hc, Bool.false_eq_true, if_false, Prod.mk.injEq, Option.some.injEq] at h
      obtain ⟨rfl, rfl⟩ := h
      rw [ahead, ahead, hnil, uniform, complete_nil, if_neg hc]
      rfl
  · next b rest hn =>
    rw [ahead, Input.remaining_next_some hn, uniform_cons]
    split at h
    · next hb =>
      simp only [Prod.mk.injEq, Option.some.injEq] at h
      obtain ⟨rfl, rfl⟩ := h
      rw [if_pos hb, complete_cons, ahead, Input.remaining_dropIf]
      rfl
    · next hb =>
      simp only [Prod.mk.injEq, Option.some.injEq] at h
      obtain ⟨rfl, rfl⟩ := h
      rw [if_neg hb, complete_cons, ahead]
      simp [isLineClosed]

theorem ahead_eq_nil {s s' : Source} (h : s.readInput = (none, s')) :
    s.ahead = [] ∧ s'.ahead = [] ∧ s'.input.remaining = [] := by
  unfold readInput at h
  split at h
  · next rest hn =>
    obtain ⟨hnil, rfl⟩ := Input.remaining_next_none hn
    by_cases hc : s.isLineClosed = true
    · simp only [hc, if_true, Prod.mk.injEq, true_and] at h
      subst h
      rw [ahead, ahead, hnil, uniform, complete_nil, if_pos hc]
      exact ⟨rfl, rfl, rfl⟩
    · simp [hc] at h
  · split at h <;> simp at h

theorem page_advance (s : Source) (c : UInt8) : (s.advance (some c)).page = s.page.advance c := by
  simp only [advance, Page.advance]
  split <;> rfl

theorem readInput_keeps (s : Source) :
    s.readInput.2.name = s.name ∧ s.readInput.2.line = s.line ∧ s.readInput.2.column = s.column ∧
      s.readInput.2.pushback = s.pushback ∧ s.readInput.2.tokens = s.tokens := by
  unfold readInput
  split
  · exact ⟨rfl, rfl, rfl, rfl, rfl⟩
  · split <;> exact ⟨rfl, rfl, rfl, rfl, rfl⟩

theorem page_putBack (s : Source) (c : UInt8) : (s.putBack c).page = s.page.putBack c := by
  simp only [putBack, Page.putBack]
  split <;> rfl

theorem page_get (s : Source) : s.page.get = (s.get.1, s.get.2.page) := by
  obtain ⟨hname, hline, hcolumn, hback, htokens⟩ := s.readInput_keeps
  unfold get
  split
  · next c rest hp =>
    rw [page_advance]
    simp [Page.get, page, hp]
    rfl
  · next hp =>
    cases h : s.readInput with
    | mk c s' =>
        rw [h] at hname hline hcolumn hback htokens
        rw [hp] at hback
        dsimp only at hname hline hcolumn hback htokens
        cases c with
        | none =>
            obtain ⟨hs, hend, -⟩ := ahead_eq_nil h
            simp [Page.get, page, advance, hp, hs, hend, hname, hline, hcolumn, htokens, hback]
        | some c =>
            rw [page_advance]
            simp [Page.get, page, hp, ahead_eq_cons h, hname, hline, hcolumn, htokens, hback]

theorem pushback_get (s : Source) : s.get.2.pushback = s.pushback.tail := by
  have advance_pushback : ∀ (t : Source) (c : Option UInt8),
      (t.advance c).pushback = t.pushback := by
    intro t c
    cases c with
    | none => rfl
    | some c =>
        simp only [advance]
        split <;> rfl
  unfold get
  split
  · next c rest hp => rw [advance_pushback, hp]; rfl
  · next hp =>
    rw [advance_pushback, hp, List.tail_nil, ← hp]
    exact s.readInput_keeps.2.2.2.1

theorem remaining_of_get_none {s s' : Source} (h : s.get = (none, s')) :
    s.pushback = [] ∧ s'.input.remaining = [] := by
  unfold get at h
  split at h
  · simp at h
  · next hp =>
    refine ⟨hp, ?_⟩
    simp only [Prod.mk.injEq] at h
    rw [← h.2, input_advance]
    exact (ahead_eq_nil (Prod.ext h.1 rfl)).2.2

theorem page_of_get_some {s s' : Source} {c : UInt8} (h : s.get = (some c, s')) :
    ∃ rest, s.page.rest = c :: rest ∧ s'.page = { s.page with rest }.advance c := by
  have hget := s.page_get
  rw [h] at hget
  unfold Page.get at hget
  split at hget
  · simp at hget
  · next d rest hr =>
    simp only [Prod.mk.injEq, Option.some.injEq] at hget
    obtain ⟨rfl, hpage⟩ := hget
    exact ⟨rest, hr, hpage.symm⟩

theorem page_of_get_none {s s' : Source} (h : s.get = (none, s')) :
    s.page.rest = [] ∧ s'.page = s.page := by
  have hget := s.page_get
  rw [h] at hget
  unfold Page.get at hget
  split at hget
  · next hr =>
    simp only [Prod.mk.injEq, true_and] at hget
    exact ⟨hr, hget.symm⟩
  · simp at hget

theorem page_readChar (s : Source) : s.page.read true = (s.readChar.1, s.readChar.2.page) := by
  fun_induction readChar s with
  | case1 s s₁ hb =>
      obtain ⟨hr, hpage⟩ := page_of_get_none hb
      rw [Page.read_nil hr, hpage]
  | case2 s s₁ s₂ hc hb =>
      obtain ⟨rest, hr, hpage⟩ := page_of_get_some hb
      obtain ⟨hend, hpage'⟩ := page_of_get_none hc
      rw [hpage, Page.rest_advance] at hend
      rw [Page.read_cons hr (by simp [show rest = [] from hend]), hpage', hpage]
  | case3 s s₁ s₂ hb hc ih =>
      obtain ⟨rest, hr, hpage⟩ := page_of_get_some hb
      obtain ⟨rest', hr', hpage'⟩ := page_of_get_some hc
      rw [hpage, Page.rest_advance] at hr'
      rw [← ih, Page.read_pair (hr.trans (by rw [show rest = newline :: rest' from hr'])), hpage',
        hpage]
      congr 1
  | case4 s s₁ d s₂ hc hd hb =>
      obtain ⟨rest, hr, hpage⟩ := page_of_get_some hb
      obtain ⟨rest', hr', hpage'⟩ := page_of_get_some hc
      rw [hpage, Page.rest_advance] at hr'
      have hrest : rest = d :: rest' := hr'
      rw [Page.read_cons hr (by simp [hrest, hd]), page_putBack, hpage', Page.putBack_advance _ _ hd,
        hpage, hrest]
      congr 1
  | case5 s b s₁ hb hne =>
      obtain ⟨rest, hr, hpage⟩ := page_of_get_some hb
      rw [Page.read_cons hr fun h => hne h.1, hpage]

theorem readChar_none {s s' : Source} (h : s.readChar = (none, s')) :
    s'.pushback = [] ∧ s'.input.remaining = [] := by
  fun_induction readChar s with
  | case1 s s₁ hb =>
      simp only [Prod.mk.injEq, true_and] at h
      subst h
      obtain ⟨hback, hend⟩ := remaining_of_get_none hb
      have := s.pushback_get
      rw [hb, hback] at this
      exact ⟨this, hend⟩
  | case2 => simp at h
  | case3 s s₁ s₂ hb hc ih => exact ih h
  | case4 => simp at h
  | case5 => simp at h

theorem length_pushback_readChar (s : Source) :
    s.readChar.2.pushback.length + 1 ≤ s.pushback.length ∨ s.readChar.2.pushback.length ≤ 1 := by
  fun_induction readChar s with
  | case1 s s₁ hb =>
      have := congrArg List.length s.pushback_get
      rw [hb, List.length_tail] at this
      omega
  | case2 s s₁ s₂ hc hb =>
      have h₁ := congrArg List.length s.pushback_get
      have h₂ := congrArg List.length s₁.pushback_get
      rw [hb, List.length_tail] at h₁
      rw [hc, List.length_tail] at h₂
      dsimp only at h₁ h₂ ⊢
      omega
  | case3 s s₁ s₂ hb hc ih =>
      have h₁ := congrArg List.length s.pushback_get
      have h₂ := congrArg List.length s₁.pushback_get
      rw [hb, List.length_tail] at h₁
      rw [hc, List.length_tail] at h₂
      dsimp only at h₁ h₂ ⊢
      omega
  | case4 s s₁ d s₂ hc hd hb =>
      have h₁ := congrArg List.length s.pushback_get
      have h₂ := congrArg List.length s₁.pushback_get
      have h₃ : (s₂.putBack d).pushback.length = s₂.pushback.length + 1 := by
        simp [putBack, hd]
      rw [hb, List.length_tail] at h₁
      rw [hc, List.length_tail] at h₂
      dsimp only at h₁ h₂ ⊢
      omega
  | case5 s b s₁ hb hne =>
      have := congrArg List.length s.pushback_get
      rw [hb, List.length_tail] at this
      dsimp only at this ⊢
      omega

theorem lend_settle (s : Source) (bytes : List UInt8) :
    (s.settle bytes).1.lend (s.settle bytes).2 = s := by
  have hinput : (s.input.settle bytes).1.lend (s.input.settle bytes).2 = s.input := by
    cases s.input with
    | memory behind ahead => rfl
    | handle shared held ahead => cases shared <;> rfl
  rw [settle, lend, hinput]

/-- The bytes of standard input that are left to the sources beneath. -/
def leave (s : Source) (bytes : List UInt8) : List UInt8 :=
  if s.input.isShared then [] else bytes

theorem settle_snd_of_not_shared {s : Source} (h : s.input.isShared = false)
    (bytes : List UInt8) : (s.settle bytes).2 = bytes := by
  unfold settle
  match hi : s.input with
  | .memory _ _ => simp [Input.settle]
  | .handle false _ _ => simp [Input.settle]
  | .handle true _ _ => simp [hi, Input.isShared] at h

theorem settle_snd_of_remaining {s : Source} (h : s.input.isShared = true)
    (hend : s.input.remaining = []) (bytes : List UInt8) : (s.settle bytes).2 = [] := by
  unfold settle
  match hi : s.input with
  | .memory _ _ => simp [hi, Input.isShared] at h
  | .handle false _ _ => simp [hi, Input.isShared] at h
  | .handle true _ _ =>
      simp only [hi, Input.remaining, List.append_eq_nil_iff] at hend
      simp [Input.settle, hend.2]

end Source

namespace Stream

/-- The pages of some sources, when these bytes of standard input have not been read. -/
def pagesOf (console : List UInt8) : List Source → List Page
  | [] => []
  | top :: below => (top.lend console).page :: pagesOf (top.leave console) below

def warningsOf (events : List Event) : List String :=
  events.filterMap fun
    | .warning shown => some shown
    | _ => none

def book (s : Stream) : Book :=
  { pages := pagesOf s.console s.files, notes := warningsOf s.journal.entries }

theorem pages_single {s : Stream} {source : Source} (hfiles : s.files = [source])
    (hfresh : source.IsFresh) :
    s.book.pages =
      [{ name := source.name, rest := canon (source.lend s.console).input.remaining }] := by
  have hpage := (hfresh.lend s.console).page_eq
  show pagesOf s.console s.files = _
  rw [hfiles, pagesOf, pagesOf, hpage]
  rfl

@[simp] theorem length_pagesOf (console : List UInt8) (files : List Source) :
    (pagesOf console files).length = files.length := by
  induction files generalizing console with
  | nil => rfl
  | cons top below ih => rw [pagesOf, List.length_cons, List.length_cons, ih]

theorem pages_readChar {s : Stream} {top : Source} {below : List Source}
    (h : s.files = top :: below) :
    s.readChar.1 = ((top.lend s.console).page.read true).1 ∧
      s.readChar.2.book = { s.book with
        pages := ((top.lend s.console).page.read true).2 ::
          pagesOf (top.leave s.console) below } := by
  have kind := congrArg (·.getD false) (Source.origin_readChar (top.lend s.console))
  simp only [Source.origin_lend, ← Input.isShared_eq] at kind
  rw [Source.page_readChar]
  unfold readChar
  rw [h]
  refine ⟨rfl, ?_⟩
  simp only [book, pagesOf, Source.lend_settle]
  congr 2
  rw [Source.leave, Source.leave, Input.isShared_eq (Source.settle _ _).1.input,
    Source.origin_settle, ← Input.isShared_eq, kind]
  cases hs : top.input.isShared with
  | false => simp [Source.settle_snd_of_not_shared (kind.trans hs)]
  | true => simp

theorem console_of_readChar_none {s : Stream} {top : Source} {below : List Source}
    (h : s.files = top :: below) (hc : s.readChar.1 = none) :
    s.readChar.2.files.tail = below ∧ s.readChar.2.console = top.leave s.console := by
  have kind := congrArg (·.getD false) (Source.origin_readChar (top.lend s.console))
  simp only [Source.origin_lend, ← Input.isShared_eq] at kind
  unfold readChar at hc ⊢
  rw [h] at hc ⊢
  refine ⟨rfl, ?_⟩
  have hend := (Source.readChar_none (Prod.ext hc rfl)).2
  change (Source.settle s.console _).2 = _
  rw [Source.leave]
  cases hs : top.input.isShared with
  | false => simp [Source.settle_snd_of_not_shared (kind.trans hs)]
  | true => simp [Source.settle_snd_of_remaining (kind.trans hs) hend]

theorem book_record (s : Stream) (e : Event) (h : e.isWarning = false) :
    (s.record e).book = s.book := by
  cases e <;> simp_all [record, book, Journal.add, warningsOf, Event.isWarning]

theorem book_drop (s : Stream) :
    s.drop.book = { s.book with pages := pagesOf s.console s.files.tail } := by
  unfold drop pop?
  cases hf : s.files with
  | nil => simp [book, hf, pagesOf]
  | cons top below =>
      dsimp only
      unfold release
      split
      · rw [book_record _ _ rfl, book_record _ _ rfl]
        rfl
      · rw [book_record _ _ rfl]
        rfl

/-- Reading the stack of sources is reading the book. -/
theorem read_book (s : Stream) : s.book.read = (s.readAcross.1, s.readAcross.2.book) := by
  fun_induction readAcross s with
  | case1 s c s₁ hr =>
      cases hf : s.files with
      | nil => simp [readChar, hf] at hr
      | cons top below =>
          obtain ⟨hc, hbook⟩ := pages_readChar hf
          rw [hr] at hc hbook
          have hread : (top.lend s.console).page.read true =
              (some c, ((top.lend s.console).page.read true).2) := Prod.ext hc.symm rfl
          rw [Book.read, hbook]
          simp only [book, hf, pagesOf]
          cases hb : pagesOf (top.leave s.console) below with
          | nil => rw [Book.readPages, ← hc]
          | cons q qs => rw [Book.readPages, hread]
  | case2 s s₁ hr hlen =>
      cases hf : s.files with
      | nil =>
          simp only [readChar, hf, Prod.mk.injEq, true_and] at hr
          subst hr
          simp [Book.read, book, hf, pagesOf, Book.readPages]
      | cons top below =>
          have hbelow : below = [] := by
            have := length_files_readChar s
            rw [hr, hf] at this
            exact List.eq_nil_of_length_eq_zero (by simp at this; omega)
          obtain ⟨hc, hbook⟩ := pages_readChar hf
          rw [hr] at hc hbook
          rw [Book.read, hbook]
          simp [book, hf, hbelow, pagesOf, Book.readPages, ← hc]
  | case3 s s₁ hr hlen ih =>
      cases hf : s.files with
      | nil =>
          simp only [readChar, hf, Prod.mk.injEq, true_and] at hr
          subst hr
          simp [hf] at hlen
      | cons top below =>
          -- The source on top has ended, and so has its page: both go on below.
          obtain ⟨hc, hbook⟩ := pages_readChar hf
          obtain ⟨htail, hconsole⟩ := console_of_readChar_none hf (by rw [hr])
          rw [hr] at hc hbook htail hconsole
          have hread : (top.lend s.console).page.read true =
              (none, ((top.lend s.console).page.read true).2) := Prod.ext hc.symm rfl
          rw [← ih, book_drop, htail, hconsole, hbook, Book.read, Book.read]
          simp only [book, hf, pagesOf]
          cases hb : pagesOf (top.leave s.console) below with
          | nil =>
              have := length_files_readChar s
              rw [hr, hf, List.length_cons] at this
              have hzero := length_pagesOf (top.leave s.console) below
              rw [hb, List.length_nil] at hzero
              dsimp only at this
              omega
          | cons q qs => rw [Book.readPages, hread]

@[simp] theorem lend_location (console : List UInt8) (source : Source) :
    (source.lend console).page.location = source.location :=
  rfl

theorem place?_book (s : Stream) : CharStream.place? s.book = CharStream.place? s := by
  show (pagesOf s.console s.files).head?.map Page.location = s.files.head?.map Source.location
  cases s.files with
  | nil => rfl
  | cons top below => rfl

theorem location_book (s : Stream) : CharStream.location s.book = CharStream.location s := by
  rw [CharStream.location, place?_book, CharStream.location]

theorem depth_book (s : Stream) : CharStream.depth s.book = CharStream.depth s :=
  length_pagesOf s.console s.files

theorem draw_book (s : Stream) : s.book.draw = (s.draw.1, s.draw.2.book) := by
  cases hf : s.files with
  | nil => simp [Book.draw, book, draw, hf, pagesOf]
  | cons top below =>
      simp only [Book.draw, book, draw, hf, pagesOf]
      rfl

/-- There is a source, with room for `n` characters, and nothing has been put back below it. -/
def HasRoom (n : Nat) (s : Stream) : Prop :=
  ∃ top below, s.files = top :: below ∧ top.pushback.length + n ≤ Source.capacity ∧
    ∀ source ∈ below, source.pushback = []

theorem HasRoom.mono {m n : Nat} {s : Stream} (h : s.HasRoom m) (hn : n ≤ m) : s.HasRoom n := by
  rcases h with ⟨top, below, hf, hroom, hbelow⟩
  exact ⟨top, below, hf, by omega, hbelow⟩

theorem HasRoom.depth_pos {n : Nat} {s : Stream} (h : s.HasRoom n) :
    ∃ place, CharStream.place? s = some place := by
  rcases h with ⟨top, below, hf, -⟩
  exact ⟨top.location, by rw [show CharStream.place? s = s.files.head?.map _ from rfl, hf]; rfl⟩

theorem hasRoom_of_fresh {s : Stream} (hne : s.files ≠ [])
    (hfresh : ∀ source ∈ s.files, source.IsFresh) : s.HasRoom 3 := by
  rcases List.exists_cons_of_ne_nil hne with ⟨top, below, hf⟩
  rw [hf] at hfresh
  refine ⟨top, below, hf, ?_, fun source h => (hfresh source (List.mem_cons_of_mem _ h)).pushback⟩
  rw [(hfresh top List.mem_cons_self).pushback]
  exact Nat.le_refl _

theorem hasRoom_single {s : Stream} {source : Source} (hfiles : s.files = [source])
    (hfresh : source.IsFresh) : s.HasRoom 3 := by
  refine hasRoom_of_fresh (by rw [hfiles]; simp) ?_
  rw [hfiles]
  exact fun other h => List.mem_singleton.mp h ▸ hfresh

theorem pushback_readChar {s : Stream} {top : Source} {below : List Source}
    (h : s.files = top :: below) :
    ∃ top', s.readChar.2.files = top' :: below ∧
      (top'.pushback.length + 1 ≤ top.pushback.length ∨ top'.pushback.length ≤ 1) := by
  unfold readChar
  rw [h]
  exact ⟨_, rfl, (top.lend s.console).length_pushback_readChar⟩

/-- A character that has been read can be put back where it was or, if its source has been dropped
since, onto the source below. -/
theorem HasRoom.readAcross {m n : Nat} {s : Stream} (h : s.HasRoom m) (hle : n ≤ m + 1)
    (hn : n ≤ 2) : s.readAcross.2.HasRoom n := by
  rcases h with ⟨top, below, hf, hroom, hbelow⟩
  fun_induction Stream.readAcross s generalizing m top below with
  | case1 s c s₁ hr =>
      rcases pushback_readChar hf with ⟨top', hf', hback⟩
      rw [hr] at hf'
      rw [Source.capacity] at hroom
      exact ⟨top', below, hf', by rw [Source.capacity]; omega, hbelow⟩
  | case2 s s₁ hr hlen =>
      rcases pushback_readChar hf with ⟨top', hf', hback⟩
      rw [hr] at hf'
      rw [Source.capacity] at hroom
      exact ⟨top', below, hf', by rw [Source.capacity]; omega, hbelow⟩
  | case3 s s₁ hr hlen ih =>
      rcases pushback_readChar hf with ⟨top', hf', hback⟩
      rw [hr] at hf'
      cases below with
      | nil =>
          rw [show s₁.files = [top'] from hf'] at hlen
          exact absurd (Nat.le_refl 1) hlen
      | cons next below =>
          have hnext := hbelow next List.mem_cons_self
          refine ih (m := 3) (by omega) next below ?_ ?_ ?_
          · rw [files_drop, hf', List.tail_cons]
          · rw [hnext]
            exact Nat.le_refl _
          · exact fun source h => hbelow source (List.mem_cons_of_mem _ h)

theorem HasRoom.unread {n : Nat} {s : Stream} (h : s.HasRoom (n + 1)) (c : UInt8) :
    ∃ s', s.unread c = .ok s' ∧ s.book.unread c = .ok s'.book ∧ s'.HasRoom n := by
  rcases h with ⟨top, below, hf, hroom, hbelow⟩
  have hlt : top.pushback.length < Source.capacity := by omega
  refine ⟨{ s with files := top.putBack c :: below }, ?_, ?_, ?_⟩
  · simp [Stream.unread, hf, Source.unread?, hlt]
  · have hpage : ((top.putBack c).lend s.console).page = (top.lend s.console).page.putBack c := by
      rw [← Source.page_putBack]
      simp only [Source.putBack, Source.lend]
      split <;> rfl
    simp only [Book.unread, book, hf, pagesOf, hpage, Source.leave, Source.input_putBack]
  · refine ⟨top.putBack c, below, rfl, ?_, hbelow⟩
    have : (top.putBack c).pushback.length = top.pushback.length + 1 := by
      simp only [Source.putBack]
      split <;> rfl
    omega

theorem HasRoom.draw {n : Nat} {s : Stream} (h : s.HasRoom n) : s.draw.2.HasRoom n := by
  rcases h with ⟨top, below, hf, hroom, hbelow⟩
  refine ⟨top.nextIndex.2, below, ?_, hroom, hbelow⟩
  rw [Stream.draw, hf]

theorem HasRoom.record {n : Nat} {s : Stream} (h : s.HasRoom n) (e : Event) :
    (s.record e).HasRoom n :=
  h

end Stream

end CLex
