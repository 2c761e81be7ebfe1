import CLex.Proofs.View
import Mathlib.Logic.Function.Iterate

namespace CLex

open Character Lines

namespace Page

theorem read_true_some {p p' : Page} {c : UInt8} (h : p.read true = (some c, p')) :
    join p.rest = c :: join p'.rest ∧ ¬ (c = backslash ∧ p'.rest.head? = some newline) := by
  rw [read, if_pos rfl, get] at h
  split at h
  · cases h
  · next d rest hrest =>
    simp only [Prod.mk.injEq, Option.some.injEq] at h
    rcases h with ⟨rfl, rfl⟩
    have hpair := join_passPairs_cons hrest
    have hsettle : join p.settle.rest = join p.rest := join_passPairs p.rest p.line p.column
    rw [rest_advance]
    exact ⟨by rw [← hsettle, hrest, join_cons hpair], hpair⟩

theorem join_read_none {p p' : Page} (h : p.read true = (none, p')) : join p.rest = [] := by
  have hend := length_read_none h
  rw [read, if_pos rfl, get] at h
  split at h
  · simp only [Prod.mk.injEq, true_and] at h
    have hsettle : join p.settle.rest = join p.rest := join_passPairs p.rest p.line p.column
    rw [← hsettle, h, hend]
    rfl
  · cases h

theorem name_read (joins : Bool) (p : Page) : (p.read joins).2.name = p.name := by
  have hget : ∀ q : Page, q.get.2.name = q.name := by
    intro q
    unfold get
    split
    · rfl
    · unfold advance
      split <;> rfl
  cases joins with
  | false => exact hget p
  | true => exact hget p.settle

end Page

namespace Book

/-- The characters that some pages have to give. -/
def textOf (pages : List Page) : List UInt8 :=
  pages.flatMap fun p => join p.rest

theorem textOf_readPages_some {pages pages' : List Page} {c : UInt8}
    (h : readPages true pages = (some c, pages')) : textOf pages = c :: textOf pages' := by
  fun_induction readPages true pages with
  | case1 => cases h
  | case2 p =>
      simp only [Prod.mk.injEq] at h
      rcases h with ⟨hc, rfl⟩
      have hjoin := (Page.read_true_some (Prod.ext hc rfl)).1
      simp [textOf, hjoin]
  | case3 p q below d p' hr =>
      simp only [Prod.mk.injEq, Option.some.injEq] at h
      rcases h with ⟨rfl, rfl⟩
      simp [textOf, (Page.read_true_some hr).1]
  | case4 p q below p' hr ih =>
      rw [← ih h]
      simp [textOf, Page.join_read_none hr]

theorem textOf_readPages_none {pages pages' : List Page}
    (h : readPages true pages = (none, pages')) :
    textOf pages = [] ∧ pages'.length ≤ 1 ∧ ∀ p ∈ pages', p.rest = [] := by
  fun_induction readPages true pages with
  | case1 =>
      cases h
      simp [textOf]
  | case2 p =>
      simp only [Prod.mk.injEq] at h
      rcases h with ⟨hc, rfl⟩
      have hjoin := Page.join_read_none (Prod.ext hc rfl)
      have hend := Page.length_read_none (Prod.ext hc rfl)
      simp [textOf, hjoin, hend]
  | case3 => cases h
  | case4 p q below p' hr ih =>
      rcases ih h with ⟨htext, hlen, hend⟩
      refine ⟨?_, hlen, hend⟩
      rw [← htext]
      simp [textOf, Page.join_read_none hr]

theorem read_of_end {b : Book} (hlen : b.pages.length ≤ 1) (hend : ∀ p ∈ b.pages, p.rest = []) :
    b.read = (none, b) := by
  rcases b with ⟨pages, joins, notes⟩
  match pages with
  | [] => rfl
  | [p] =>
      have hread := Page.read_nil (hend p List.mem_cons_self) joins
      simp [read, readPages, hread]
  | p :: q :: below => simp at hlen

end Book

namespace Stream

/-- The characters up to the end, and the stream afterwards. -/
def readToEnd (s : Stream) : List UInt8 × Stream :=
  match _h : s.readAcross with
  | (none, s') => ([], s')
  | (some c, s') => (c :: s'.readToEnd.1, s'.readToEnd.2)
termination_by s.weight
decreasing_by exact weight_readAcross_some _h

/-- The bytes that each source has to give, the active one first, when these bytes of standard
input have not been read. -/
def contents (console : List UInt8) : List Source → List (List UInt8)
  | [] => []
  | top :: below => (top.lend console).input.remaining :: contents (top.leave console) below

/-- What is noted when every source but the last is taken off and released. -/
def dropEvents : List Source → List Event
  | [] => []
  | [_] => []
  | top :: next :: below =>
      .popped top.name (below.length + 1) ::
        (if top.input.isHandle then [.closed top.name] else []) ++ dropEvents (next :: below)

theorem textOf_pagesOf {console : List UInt8} {files : List Source}
    (hfresh : ∀ source ∈ files, source.IsFresh) :
    Book.textOf (pagesOf console files) =
      (contents console files).flatMap fun bytes => join (canon bytes) := by
  induction files generalizing console with
  | nil => rfl
  | cons top below ih =>
      have htop := hfresh top List.mem_cons_self
      have hlend := htop.lend console
      rw [pagesOf, contents, Book.textOf, List.flatMap_cons, List.flatMap_cons, hlend.page_eq]
      congr 1
      exact ih fun source h => hfresh source (List.mem_cons_of_mem _ h)

theorem readPages_book (s : Stream) :
    Book.readPages true s.book.pages = (s.readAcross.1, s.readAcross.2.book.pages) := by
  have hread := s.read_book
  rw [Book.read, Prod.mk.injEq] at hread
  exact Prod.ext hread.1 (congrArg Book.pages hread.2)

theorem textOf_readToEnd (s : Stream) : s.readToEnd.1 = Book.textOf s.book.pages := by
  fun_induction readToEnd s with
  | case1 s s' h =>
      have hread := s.readPages_book
      rw [h] at hread
      exact (Book.textOf_readPages_none hread).1.symm
  | case2 s c s' h ih =>
      have hread := s.readPages_book
      rw [h] at hread
      rw [Book.textOf_readPages_some hread, ih]

theorem readChar_top {s : Stream} {top : Source} {below : List Source}
    (h : s.files = top :: below) :
    s.readChar.2.journal = s.journal ∧
      ∃ top', s.readChar.2.files = top' :: below ∧ top'.name = top.name ∧
        top'.input.isHandle = top.input.isHandle := by
  unfold readChar
  rw [h]
  refine ⟨rfl, _, rfl, ?_, ?_⟩
  · show (top.lend s.console).readChar.2.name = top.name
    have hname := Page.name_read true (top.lend s.console).page
    rw [Source.page_readChar] at hname
    exact hname
  · rw [Input.isHandle_eq, Input.isHandle_eq, Source.origin_settle, Source.origin_readChar,
      Source.origin_lend]

theorem dropEvents_congr {top top' : Source} (below : List Source) (hname : top'.name = top.name)
    (hhandle : top'.input.isHandle = top.input.isHandle) :
    dropEvents (top' :: below) = dropEvents (top :: below) := by
  cases below with
  | nil => rfl
  | cons next below => rw [dropEvents, dropEvents, hname, hhandle]

theorem events_drop {s : Stream} {top next : Source} {below : List Source}
    (h : s.files = top :: next :: below) :
    s.drop.journal.events ++ dropEvents s.drop.files = s.journal.events ++ dropEvents s.files := by
  rw [files_drop, h, List.tail_cons, dropEvents]
  unfold drop pop?
  rw [h]
  dsimp only
  unfold release
  split
  · simp [record]
  · simp [record]

theorem readAcross_keeps (s : Stream) :
    s.readAcross.2.journal.events ++ dropEvents s.readAcross.2.files =
        s.journal.events ++ dropEvents s.files ∧
      (s.readAcross.2.files.map Source.name).getLast? = (s.files.map Source.name).getLast? := by
  have readChar_keeps : ∀ s : Stream,
      s.readChar.2.journal.events ++ dropEvents s.readChar.2.files =
          s.journal.events ++ dropEvents s.files ∧
        s.readChar.2.files.map Source.name = s.files.map Source.name := by
    intro s
    cases hf : s.files with
    | nil => simp [readChar, hf]
    | cons top below =>
        rcases readChar_top hf with ⟨hjournal, top', hfiles, hname, hhandle⟩
        rw [hjournal, hfiles, dropEvents_congr below hname hhandle]
        simp [hname]
  fun_induction readAcross s with
  | case1 s c s₁ hr =>
      have h := readChar_keeps s
      rw [hr] at h
      exact ⟨h.1, congrArg _ h.2⟩
  | case2 s s₁ hr hlen =>
      have h := readChar_keeps s
      rw [hr] at h
      exact ⟨h.1, congrArg _ h.2⟩
  | case3 s s₁ hr hlen ih =>
      have h := readChar_keeps s
      rw [hr] at h
      cases hf : s₁.files with
      | nil => simp [hf] at hlen
      | cons top rest =>
          cases rest with
          | nil => simp [hf] at hlen
          | cons next below =>
              refine ⟨?_, ?_⟩
              · rw [ih.1, events_drop hf, ← h.1]
              · rw [ih.2, files_drop, ← h.2, hf]
                simp

theorem readToEnd_keeps (s : Stream) :
    s.readToEnd.2.journal.events ++ dropEvents s.readToEnd.2.files =
        s.journal.events ++ dropEvents s.files ∧
      (s.readToEnd.2.files.map Source.name).getLast? = (s.files.map Source.name).getLast? := by
  fun_induction readToEnd s with
  | case1 s s' h =>
      have hkeeps := s.readAcross_keeps
      rwa [h] at hkeeps
  | case2 s c s' h ih =>
      have hkeeps := s.readAcross_keeps
      rw [h] at hkeeps
      exact ⟨ih.1.trans hkeeps.1, ih.2.trans hkeeps.2⟩

theorem book_readToEnd (s : Stream) :
    s.readToEnd.2.book.pages.length ≤ 1 ∧ ∀ p ∈ s.readToEnd.2.book.pages, p.rest = [] := by
  fun_induction readToEnd s with
  | case1 s s' h =>
      have hread := s.readPages_book
      rw [h] at hread
      exact (Book.textOf_readPages_none hread).2
  | case2 s c s' h ih => exact ih

theorem readAcross_of_end {s : Stream} (hlen : s.book.pages.length ≤ 1)
    (hend : ∀ p ∈ s.book.pages, p.rest = []) (n : Nat) :
    (fun t : Stream => t.readAcross.2)^[n] s |>.readAcross.1 = none := by
  have hread := s.read_book
  rw [Book.read_of_end hlen hend, Prod.mk.injEq] at hread
  induction n generalizing s with
  | zero => exact hread.1.symm
  | succ n ih =>
      rw [Function.iterate_succ_apply]
      apply ih
      · rwa [← hread.2]
      · rwa [← hread.2]
      · have hread' := s.readAcross.2.read_book
        rwa [← hread.2, Book.read_of_end hlen hend, Prod.mk.injEq, hread.2] at hread'

/-- Reading a stack of fresh sources across all of them gives the joined text of each, and then
nothing. Every source but the bottom one is taken off and released, from the top down. -/
theorem readToEnd_fresh {s : Stream} (hne : s.files ≠ [])
    (hfresh : ∀ source ∈ s.files, source.IsFresh) :
    s.readToEnd.1 = (contents s.console s.files).flatMap (fun bytes => join (canon bytes)) ∧
      s.readToEnd.2.files.map Source.name = [(s.files.getLast hne).name] ∧
      s.readToEnd.2.journal.events = s.journal.events ++ dropEvents s.files ∧
      ∀ n, ((fun t : Stream => t.readAcross.2)^[n] s.readToEnd.2).readAcross.1 = none := by
  rcases s.readToEnd_keeps with ⟨hevents, hlast⟩
  rcases s.book_readToEnd with ⟨hlen, hend⟩
  have hfiles : ∃ bottom, s.readToEnd.2.files = [bottom] := by
    rw [show s.readToEnd.2.book.pages.length = s.readToEnd.2.files.length from
      length_pagesOf _ _] at hlen
    match hf : s.readToEnd.2.files with
    | [] =>
        rw [hf, List.getLast?_map, List.getLast?_map, List.getLast?_eq_some_getLast hne] at hlast
        simp at hlast
    | [bottom] => exact ⟨bottom, rfl⟩
    | _ :: _ :: _ =>
        rw [hf] at hlen
        simp at hlen
  rcases hfiles with ⟨bottom, hbottom⟩
  refine ⟨?_, ?_, ?_, readAcross_of_end hlen hend⟩
  · rw [textOf_readToEnd]
    exact textOf_pagesOf hfresh
  · rw [hbottom] at hlast ⊢
    rw [List.getLast?_map, List.getLast?_map, List.getLast?_eq_some_getLast hne] at hlast
    simpa using hlast
  · rw [hbottom, dropEvents, List.append_nil] at hevents
    exact hevents

theorem readToEnd_file_over_memory :
    let s := ofSources [.ofFile "in.h" (bytes ['a', '\\', '\r', '\n', 'b']), .ofBytes "out.c" []]
    s.readToEnd.1 = bytes ['a', 'b', '\n', '\n'] ∧
      s.readToEnd.2.files.map Source.name = ["out.c"] ∧
      s.readToEnd.2.journal.events = [.popped "in.h" 1, .closed "in.h"] ∧
      ∀ n, ((fun t : Stream => t.readAcross.2)^[n] s.readToEnd.2).readAcross.1 = none := by
  intro s
  have hfresh : ∀ source ∈ s.files, source.IsFresh := by
    intro source h
    rcases List.mem_cons.mp h with rfl | h
    · exact Source.isFresh_ofFile _ _
    · exact List.mem_singleton.mp h ▸ Source.isFresh_ofBytes _ _
  rcases readToEnd_fresh (s := s) (by decide) hfresh with ⟨htext, hfiles, hevents, hend⟩
  exact ⟨htext.trans (by decide), hfiles, hevents, hend⟩

end Stream

end CLex
