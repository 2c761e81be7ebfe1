import CLex.Proofs.Reading

namespace CLex

open Character

namespace Lines

/-- The beginning of a text that its first `n` characters take up when its lines are joined: with
the pairs before and between them, and without those behind the last one. More characters than there
are take up all of it. -/
def extent : Nat → List UInt8 → List UInt8
  | 0, _ => []
  | _ + 1, [] => []
  | _ + 1, [c] => [c]
  | n + 1, c :: d :: rest =>
      if c = backslash ∧ d = newline then c :: d :: extent (n + 1) rest
      else c :: extent n (d :: rest)

@[simp] theorem extent_zero (text : List UInt8) : extent 0 text = [] := by
  cases text <;> rfl

@[simp] theorem extent_nil (n : Nat) : extent n [] = [] := by
  cases n <;> rfl

theorem extent_pair (n : Nat) (rest : List UInt8) :
    extent (n + 1) (backslash :: newline :: rest) =
      backslash :: newline :: extent (n + 1) rest := by
  simp [extent]

theorem extent_cons {c : UInt8} {rest : List UInt8}
    (h : ¬ (c = backslash ∧ rest.head? = some newline)) (n : Nat) :
    extent (n + 1) (c :: rest) = c :: extent n rest := by
  cases rest with
  | nil => simp [extent]
  | cons d rest =>
      have hpair : ¬ (c = backslash ∧ d = newline) := by simpa using h
      rw [extent, if_neg hpair]

theorem head?_extent {n : Nat} {text : List UInt8} {c : UInt8}
    (h : (extent n text).head? = some c) : text.head? = some c := by
  fun_cases extent n text with
  | case1 => simp at h
  | case2 => simp at h
  | case3 => exact h
  | case4 n d e rest hpair =>
      rw [extent, if_pos hpair] at h
      exact h
  | case5 n d e rest hpair =>
      rw [extent, if_neg hpair] at h
      exact h

theorem extent_of_length_lt {n : Nat} {text : List UInt8} (h : (join text).length < n) :
    extent n text = text := by
  fun_induction extent n text with
  | case1 => cases h
  | case2 => rfl
  | case3 => rfl
  | case4 n c d rest hpair ih =>
      rw [hpair.1, hpair.2, join_pair] at h
      rw [ih h]
  | case5 n c d rest hpair ih =>
      rw [join, if_neg hpair] at h
      rw [ih (Nat.lt_of_succ_lt_succ h)]

theorem join_extent (n : Nat) (text : List UInt8) : join (extent n text) = (join text).take n := by
  fun_induction extent n text with
  | case1 => rfl
  | case2 => rfl
  | case3 => simp [join]
  | case4 n c d rest hpair ih => rw [hpair.1, hpair.2, join_pair, join_pair, ih]
  | case5 n c d rest hpair ih =>
      have hsingle : ¬ (c = backslash ∧ (d :: rest).head? = some newline) := by simpa using hpair
      -- Cutting the text off behind `n` characters brings no newline behind the backslash.
      rw [join_cons hsingle, join_cons fun h => hsingle ⟨h.1, head?_extent h.2⟩, ih,
        List.take_succ_cons]

end Lines

namespace Page

open Lines

/-- The characters `w` lead from the page `p` to the page `q`, and they are what one character of
the joined text takes up. -/
structure TakesUp (w : List UInt8) (p q : Page) : Prop where
  rest : p.rest = w ++ q.rest
  place : (q.line, q.column) = w.foldl Lines.pass (p.line, p.column)
  extent (n : Nat) : Lines.extent (n + 1) p.rest = w ++ Lines.extent n q.rest

theorem takesUp_single {p : Page} {c : UInt8} {rest : List UInt8} (hrest : p.rest = c :: rest)
    (hpair : ¬ (c = backslash ∧ rest.head? = some newline)) :
    TakesUp [c] p (p.read true).2 := by
  rw [read_cons hrest hpair]
  refine ⟨by rw [rest_advance, hrest]; rfl, ?_, fun n => ?_⟩
  · rw [List.foldl_cons, List.foldl_nil, Lines.pass, advance]
    split <;> rfl
  · rw [rest_advance, hrest, extent_cons hpair]
    rfl

theorem takesUp_read (p : Page) : ∃ w, TakesUp w p (p.read true).2 := by
  generalize htext : p.rest = text
  fun_induction join text generalizing p with
  | case1 =>
      rw [read_nil htext]
      exact ⟨[], rfl, rfl, fun n => by simp [htext]⟩
  | case2 c => exact ⟨[c], takesUp_single htext (by simp)⟩
  | case3 c d rest hpair ih =>
      -- Behind the pair the same read goes on, from the beginning of the next line.
      rcases hpair with ⟨rfl, rfl⟩
      rcases ih { p with rest, line := p.line + 1, column := 1 } rfl with ⟨w, h⟩
      rw [read_pair htext]
      refine ⟨backslash :: newline :: w, ?_, h.place, fun n => ?_⟩
      · rw [htext, List.cons_append, List.cons_append, ← h.rest]
      · rw [htext, extent_pair, List.cons_append, List.cons_append, ← h.extent]
  | case4 c d rest hpair ih => exact ⟨[c], takesUp_single htext (by simpa using hpair)⟩

/-- What `n` reads take up, and where they leave the page. -/
theorem reads_extent (n : Nat) (p : Page) :
    let q := (fun p : Page => (p.read true).2)^[n] p
    q.name = p.name ∧ p.rest = extent n p.rest ++ q.rest ∧
      (q.line, q.column) = (extent n p.rest).foldl Lines.pass (p.line, p.column) := by
  induction n generalizing p with
  | zero => simp
  | succ n ih =>
      rcases p.takesUp_read with ⟨w, h⟩
      rcases ih (p.read true).2 with ⟨hname, hrest, hplace⟩
      rw [h.place, ← List.foldl_append, ← h.extent] at hplace
      refine ⟨hname.trans (p.name_read true), ?_, hplace⟩
      rw [h.extent, List.append_assoc, Function.iterate_succ_apply, ← hrest, ← h.rest]

theorem reads_getElem? (n : Nat) (p : Page) :
    (((fun p : Page => (p.read true).2)^[n] p).read true).1 = (join p.rest)[n]? := by
  induction n generalizing p with
  | zero =>
      rcases hread : p.read true with ⟨_ | c, p'⟩
      · simp [hread, join_read_none hread]
      · simp [hread, (read_true_some hread).1]
  | succ n ih =>
      rw [Function.iterate_succ_apply, ih]
      rcases hread : p.read true with ⟨_ | c, p'⟩
      · simp [join_read_none hread, length_read_none hread]
      · rw [(read_true_some hread).1, List.getElem?_cons_succ]

end Page

namespace Stream

open Lines

theorem page_readChar {s : Stream} {top : Source} {below : List Source}
    (h : s.files = top :: below) :
    s.readChar.1 = ((top.lend s.console).page.read true).1 ∧
      ∃ top', s.readChar.2.files = top' :: below ∧
        (top'.lend s.readChar.2.console).page = ((top.lend s.console).page.read true).2 := by
  unfold readChar
  rw [h, Source.page_readChar]
  exact ⟨rfl, _, rfl, congrArg Source.page (Source.lend_settle _ _)⟩

theorem page_reads {s : Stream} {top : Source} {below : List Source} (h : s.files = top :: below)
    (n : Nat) :
    let t := (fun s : Stream => s.readChar.2)^[n] s
    ∃ top', t.files = top' :: below ∧
      (top'.lend t.console).page =
        (fun p : Page => (p.read true).2)^[n] (top.lend s.console).page := by
  induction n generalizing s top with
  | zero => exact ⟨top, h, rfl⟩
  | succ n ih =>
      rcases page_readChar h with ⟨-, top', hfiles, hpage⟩
      rw [Function.iterate_succ_apply, Function.iterate_succ_apply, ← hpage]
      exact ih hfiles

/-- However often a source has been read, its line and its column count the newlines in what the
reads have taken up of its text and the characters behind the last of them. The rest of the text is
still to come; once the end has been read, all of it is taken up. -/
theorem location_reads {s : Stream} {source : Source} {below : List Source}
    (hfiles : s.files = source :: below) (hfresh : source.IsFresh) (n : Nat) :
    let text := canon (source.lend s.console).input.remaining
    let read := extent n text
    let t := (fun s : Stream => s.readChar.2)^[n] s
    t.location = ⟨source.name, 1 + read.count newline,
        1 + (read.reverse.takeWhile (· != newline)).length⟩ ∧
      (t.top?.map fun top => read ++ (top.lend t.console).page.rest) = some text ∧
      join read = (join text).take n ∧ t.readChar.1 = (join text)[n]? ∧
      ((join text).length < n → read = text) := by
  intro text read t
  rcases page_reads hfiles n with ⟨top, htop, hpage⟩
  rw [(hfresh.lend s.console).page_eq] at hpage
  rcases Page.reads_extent n { name := source.name, rest := text } with ⟨hname, hrest, hplace⟩
  have hchar := Page.reads_getElem? n { name := source.name, rest := text }
  rw [show (fun p : Page => (p.read true).2)^[n] { name := source.name, rest := text } =
    (top.lend t.console).page from hpage.symm] at hname hrest hplace hchar
  refine ⟨?_, ?_, join_extent n text, (page_readChar htop).1.trans hchar, extent_of_length_lt⟩
  · have hlocation : t.location = top.location := by rw [location, show t.files = _ from htop]
    have hcount := placeAfter_eq read
    rw [show placeAfter read = (top.line, top.column) from hplace.symm, Prod.mk.injEq] at hcount
    rw [hlocation, Source.location, hcount.1, hcount.2, show top.name = source.name from hname]
  · rw [top?, show t.files = _ from htop]
    exact congrArg some hrest.symm

/-- The third read has passed over two pairs, and over a backslash that belongs to none. The fourth
one passes over the pair that the end of the file makes, and gives nothing. -/
theorem location_reads_pairs :
    let source := Source.ofFile "t.c" (bytes "a\\\r\n\\\\\rb\\".toList)
    let s := ofSources [source, .ofBytes "below.c" []]
    let t := fun n => (fun s : Stream => s.readChar.2)^[n] s
    s.files = [source, .ofBytes "below.c" []] ∧ source.IsFresh ∧
      (t 3).location = ⟨"t.c", 3, 2⟩ ∧ (t 3).readChar.1 = none ∧
      (t 4).location = ⟨"t.c", 4, 1⟩ := by
  intro source s t
  have hfresh : source.IsFresh := Source.isFresh_ofFile _ _
  rcases location_reads (s := s) rfl hfresh 3 with ⟨hthird, -, -, hend, -⟩
  rcases location_reads (s := s) rfl hfresh 4 with ⟨hfourth, -⟩
  exact ⟨rfl, hfresh, hthird.trans (by decide), hend.trans (by decide), hfourth.trans (by decide)⟩

end Stream

end CLex
