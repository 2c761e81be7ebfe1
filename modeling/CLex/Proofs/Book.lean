import CLex.CharStream
import CLex.Proofs.Lines

/-!
A stream whose text lies open. A page is a source of which only the characters still to come, the
place and the next token number are kept, without a bound on what can be put back; a book is a
stack of pages. Whether lines that end in a backslash are joined can be chosen, so that the rules
of the lexer can also be applied to characters that are joined already.
-/

namespace CLex

structure Page where
  name : String
  rest : List UInt8
  line : Int := 1
  column : Int := 1
  tokens : Nat := 0
  deriving DecidableEq, Repr

namespace Page

open Character

def location (p : Page) : Location :=
  ⟨p.name, p.line, p.column⟩

/-- The page with its position moved over `c`. -/
def advance (p : Page) (c : UInt8) : Page :=
  if c = newline then { p with line := p.line + 1, column := 1 }
  else { p with column := p.column + 1 }

def get (p : Page) : Option UInt8 × Page :=
  match p.rest with
  | [] => (none, p)
  | c :: rest => (some c, { p with rest }.advance c)

def putBack (p : Page) (c : UInt8) : Page :=
  if c = newline then { p with rest := c :: p.rest, column := 1, line := p.line - 1 }
  else { p with rest := c :: p.rest, column := p.column - 1 }

/-- Passes over backslash-newline pairs, from a given line and column. -/
def passPairs : (rest : List UInt8) → (line column : Int) → List UInt8 × Int × Int
  | [], line, column => ([], line, column)
  | [c], line, column => ([c], line, column)
  | c :: d :: rest, line, column =>
      if c = backslash ∧ d = newline then passPairs rest (line + 1) 1
      else (c :: d :: rest, line, column)

/-- The page after the backslash-newline pairs that come next. -/
def settle (p : Page) : Page :=
  let r := passPairs p.rest p.line p.column
  { p with rest := r.1, line := r.2.1, column := r.2.2 }

def read (joins : Bool) (p : Page) : Option UInt8 × Page :=
  (if joins then p.settle else p).get

theorem read_nil {p : Page} (h : p.rest = []) (joins : Bool) : p.read joins = (none, p) := by
  have hsettle : p.settle = p := by
    rw [settle, h]
    simp [passPairs, ← h]
  cases joins with
  | false => rw [read, if_neg (by simp), get, h]
  | true => rw [read, if_pos rfl, hsettle, get, h]

theorem read_cons {p : Page} {c : UInt8} {rest : List UInt8} (h : p.rest = c :: rest)
    (hc : ¬ (c = backslash ∧ rest.head? = some newline)) (joins : Bool) :
    p.read joins = (some c, { p with rest }.advance c) := by
  have hsettle : p.settle = p := by
    rw [settle, h]
    cases rest with
    | nil => simp [passPairs, ← h]
    | cons d rest =>
        have : ¬ (c = backslash ∧ d = newline) := by simpa using hc
        simp [passPairs, this, ← h]
  cases joins with
  | false => rw [read, if_neg (by simp), get, h]
  | true => rw [read, if_pos rfl, hsettle, get, h]

theorem read_false_cons {p : Page} {c : UInt8} {rest : List UInt8} (h : p.rest = c :: rest) :
    p.read false = (some c, { p with rest }.advance c) := by
  rw [read, if_neg (by simp), get, h]

theorem read_pair {p : Page} {rest : List UInt8} (h : p.rest = backslash :: newline :: rest) :
    p.read true = { p with rest, line := p.line + 1, column := 1 }.read true := by
  rw [read, read, if_pos rfl, if_pos rfl, settle, h]
  simp [passPairs, settle]

/-- The page after its next character has been looked at. A newline that has been put back is at
column one. -/
def look (p : Page) : Page :=
  if p.rest.head? = some newline then { p with column := 1 } else p

@[simp] theorem rest_look (p : Page) : p.look.rest = p.rest := by
  unfold look
  split <;> rfl

theorem putBack_advance_eq_look {p : Page} {c : UInt8} {rest : List UInt8}
    (h : p.rest = c :: rest) : ({ p with rest }.advance c).putBack c = p.look := by
  rcases p with ⟨name, text, line, column, tokens⟩
  simp only at h
  subst h
  by_cases hc : c = newline
  · simp [look, hc, advance, putBack]
  · simp [look, hc, advance, putBack]

theorem putBack_advance (p : Page) (rest : List UInt8) {c : UInt8} (hc : c ≠ newline) :
    ({ p with rest }.advance c).putBack c = { p with rest := c :: rest } := by
  simp [advance, putBack, hc]

@[simp] theorem rest_advance (p : Page) (c : UInt8) : (p.advance c).rest = p.rest := by
  unfold advance
  split <;> rfl

theorem length_passPairs_le (rest : List UInt8) (line column : Int) :
    (passPairs rest line column).1.length ≤ rest.length := by
  fun_induction passPairs rest line column with
  | case1 => exact Nat.le_refl _
  | case2 => exact Nat.le_refl _
  | case3 c d rest line column h ih =>
      rw [List.length_cons, List.length_cons]
      omega
  | case4 => exact Nat.le_refl _

theorem join_passPairs (rest : List UInt8) (line column : Int) :
    Lines.join (passPairs rest line column).1 = Lines.join rest := by
  fun_induction passPairs rest line column with
  | case1 => rfl
  | case2 => rfl
  | case3 c d rest line column h ih => rw [h.1, h.2, Lines.join_pair, ih]
  | case4 => rfl

theorem join_passPairs_cons {rest rest' : List UInt8} {line column : Int} {c : UInt8}
    (h : (passPairs rest line column).1 = c :: rest') :
    ¬ (c = backslash ∧ rest'.head? = some newline) := by
  fun_induction passPairs rest line column with
  | case1 => simp at h
  | case2 => simp_all
  | case3 d e rest line column hd ih => exact ih h
  | case4 d e rest line column hd =>
      obtain ⟨rfl, rfl⟩ := List.cons.inj h
      simpa using hd

theorem passPairs_spec (rest : List UInt8) {before : List UInt8} {line : Int} (column : Int)
    (hline : line = (Lines.placeAfter before).1) :
    ∃ mid, Lines.join mid = [] ∧ rest = mid ++ (passPairs rest line column).1 ∧
      (passPairs rest line column).2.1 = (Lines.placeAfter (before ++ mid)).1 ∧
      (passPairs rest line column).2.2 = if mid = [] then column else 1 := by
  fun_induction passPairs rest line column generalizing before with
  | case1 => exact ⟨[], rfl, rfl, by rw [List.append_nil, hline], rfl⟩
  | case2 => exact ⟨[], rfl, rfl, by rw [List.append_nil, hline], rfl⟩
  | case3 c d rest line column hcd ih =>
      rcases hcd with ⟨rfl, rfl⟩
      have hline' : line + 1 = (Lines.placeAfter (before ++ [backslash] ++ [newline])).1 := by
        rw [Lines.placeAfter_newline, Lines.placeAfter_append (by decide), hline]
      rcases ih hline' with ⟨mid, hmid, hrest, hl, hc⟩
      refine ⟨backslash :: newline :: mid, by rw [Lines.join_pair, hmid], ?_, ?_, ?_⟩
      · rw [List.cons_append, List.cons_append, ← hrest]
      · rw [hl]
        simp
      · rw [hc]
        simp
  | case4 => exact ⟨[], rfl, rfl, by rw [List.append_nil, hline], rfl⟩

theorem length_read_some {joins : Bool} {p p' : Page} {c : UInt8}
    (h : p.read joins = (some c, p')) : p'.rest.length < p.rest.length := by
  have get_lt : ∀ {q : Page}, q.get = (some c, p') → p'.rest.length < q.rest.length := by
    intro q hq
    unfold get at hq
    split at hq
    · simp at hq
    · next d rest hr =>
      simp only [Prod.mk.injEq, Option.some.injEq] at hq
      rw [hr, ← hq.2, advance]
      split <;> simp
  cases joins with
  | false => exact get_lt h
  | true => exact Nat.lt_of_lt_of_le (get_lt h) (length_passPairs_le _ _ _)

theorem length_read_none {joins : Bool} {p p' : Page} (h : p.read joins = (none, p')) :
    p'.rest = [] := by
  unfold read get at h
  split at h
  · next hr =>
    simp only [Prod.mk.injEq, true_and] at h
    rw [← h, hr]
  · simp at h

@[simp] theorem rest_putBack (p : Page) (c : UInt8) : (p.putBack c).rest = c :: p.rest := by
  unfold putBack
  split <;> rfl

end Page

structure Book where
  pages : List Page
  /-- Lines that end in a backslash are joined. -/
  joins : Bool := true
  /-- The warnings so far, the latest first. -/
  notes : List String := []
  deriving DecidableEq, Repr

namespace Book

open Character

/-- The next character of some pages. A page that has ended is dropped, unless it is the last. -/
def readPages (joins : Bool) : List Page → Option UInt8 × List Page
  | [] => (none, [])
  | [p] => ((p.read joins).1, [(p.read joins).2])
  | p :: q :: below =>
      match p.read joins with
      | (some c, p') => (some c, p' :: q :: below)
      | (none, _) => readPages joins (q :: below)

def read (b : Book) : Option UInt8 × Book :=
  let r := readPages b.joins b.pages
  (r.1, { b with pages := r.2 })

def unread (b : Book) (c : UInt8) : Except Failure Book :=
  match b.pages with
  | [] => .error .nothingThere
  | p :: below => .ok { b with pages := p.putBack c :: below }

def draw (b : Book) : Nat × Book :=
  match b.pages with
  | [] => (0, b)
  | p :: below => (p.tokens, { b with pages := { p with tokens := p.tokens + 1 } :: below })

def weight (b : Book) : Nat :=
  b.pages.foldr (fun p n => p.rest.length + n) 0

theorem read_cons {b : Book} {p : Page} {below : List Page} {c : UInt8} {rest : List UInt8}
    (hb : b.pages = p :: below) (hp : p.rest = c :: rest)
    (hc : b.joins = true → ¬ (c = backslash ∧ rest.head? = some newline)) :
    b.read = (some c, { b with pages := { p with rest }.advance c :: below }) := by
  have hread : p.read b.joins = (some c, { p with rest }.advance c) := by
    cases hj : b.joins with
    | false => exact Page.read_false_cons hp
    | true => exact Page.read_cons hp (hc hj) true
  rw [read, hb]
  cases below with
  | nil => rw [readPages, hread]
  | cons q below => rw [readPages, hread]

theorem weight_readPages (joins : Bool) (pages : List Page) :
    (readPages joins pages).2.foldr (fun p n => p.rest.length + n) 0 +
        (readPages joins pages).1.toList.length ≤
      pages.foldr (fun p n => p.rest.length + n) 0 := by
  fun_induction readPages joins pages with
  | case1 => simp
  | case2 p =>
      cases h : p.read joins with
      | mk c p' =>
          cases c with
          | none => simp [Page.length_read_none h]
          | some c =>
              have := Page.length_read_some h
              simp
              omega
  | case3 p q below c p' h =>
      have := Page.length_read_some h
      simp
      omega
  | case4 p q below p' h ih =>
      rw [List.foldr_cons]
      omega

end Book

instance : CharStream Book where
  read := Book.read
  unread := Book.unread
  place? b := b.pages.head?.map Page.location
  depth b := b.pages.length
  draw := Book.draw
  note b shown := { b with notes := shown :: b.notes }
  weight := Book.weight
  weight_read_some := by
    intro s s' c h
    have := Book.weight_readPages s.joins s.pages
    simp only [Book.read, Prod.mk.injEq] at h
    obtain ⟨hc, rfl⟩ := h
    rw [hc] at this
    exact this
  weight_read_none := by
    intro s s' h
    have := Book.weight_readPages s.joins s.pages
    simp only [Book.read, Prod.mk.injEq] at h
    obtain ⟨hc, rfl⟩ := h
    rw [hc] at this
    exact this
  weight_unread := by
    intro s s' c h
    unfold Book.unread at h
    split at h
    · simp at h
    · next p below hp =>
      simp only [Except.ok.injEq] at h
      subst h
      simp [Book.weight, hp]
      omega
  weight_draw := by
    intro s
    unfold Book.draw
    split
    · rfl
    · next p below hp => simp [Book.weight, hp]
  weight_note _ _ := rfl

end CLex
