import CLex.Proofs.Advancing
import CLex.Proofs.Grouping

namespace CLex

open Character Lexer Lines

namespace Nesting

/-- A line that is no directive and in which nothing begins that could run beyond it. -/
structure PlainLine where
  chars : List UInt8
  plain : ∀ c ∈ chars,
    c ∉ [newline, carriageReturn, backslash, singleQuote, doubleQuote, byte '/']
  not_directive : (chars.dropWhile fun c => isBlank c.toNat).head? ≠ some (byte '#')

/-- A `#` and a name, with blanks before and between them, and what else stands on the line. -/
structure DirectiveLine where
  indent : List UInt8 := []
  gap : List UInt8 := []
  name : String
  tail : List UInt8 := []
  indent_blank : ∀ b ∈ indent, isBlank b.toNat = true := by decide +kernel
  gap_blank : ∀ b ∈ gap, isBlank b.toNat = true := by decide +kernel
  name_ne : name ≠ "" := by decide +kernel
  name_letters : name.toList.all (isLetter ·.toNat) = true := by decide +kernel
  tail_blank : ∀ b ∈ tail.head?, isBlank b.toNat = true := by decide +kernel
  tail_plain : ∀ c ∈ tail, c ∉ [newline, carriageReturn, backslash] := by decide +kernel

inductive Line where
  | plain (line : PlainLine)
  | directive (line : DirectiveLine)

namespace Line

def text : Line → List UInt8
  | .plain line => line.chars ++ [newline]
  | .directive line =>
      line.indent ++ byte '#' :: (line.gap ++ (bytes line.name.toList ++ (line.tail ++ [newline])))

def isDirective : Line → Bool
  | .plain _ => false
  | .directive _ => true

end Line

mutual

/-- Lines and conditionals, one after the other. -/
inductive Group where
  | nil
  | line (line : PlainLine) (rest : Group)
  | directive (line : DirectiveLine) (other : opens line.name = false ∧ divides line.name = false)
      (rest : Group)
  | conditional (opening : DirectiveLine) (name_opens : opens opening.name = true) (body : Group)
      (branches : Branches) (rest : Group)

/-- What stands behind the first group of a conditional, up to its end. -/
inductive Branches where
  | close (line : DirectiveLine) (name_eq : line.name = "endif")
  | branch (line : DirectiveLine) (name_eq : line.name = "else" ∨ line.name = "elif")
      (body : Group) (more : Branches)

end

mutual

def Group.lines : Group → List Line
  | .nil => []
  | .line line rest => .plain line :: rest.lines
  | .directive line _ rest => .directive line :: rest.lines
  | .conditional opening _ body branches rest =>
      .directive opening :: (body.lines ++ (branches.lines ++ rest.lines))

def Branches.lines : Branches → List Line
  | .close line _ => [.directive line]
  | .branch line _ body more => .directive line :: (body.lines ++ more.lines)

end

def Group.text (group : Group) : List UInt8 :=
  group.lines.flatMap Line.text

theorem letters_of_divides {name : String} (h : divides name = true) :
    name ≠ "" ∧ name.toList.all (isLetter ·.toNat) = true := by
  simp only [divides, Bool.or_eq_true, beq_iff_eq] at h
  rcases h with (rfl | rfl) | rfl <;> decide

end Nesting

/-- The page behind some of its lines. -/
def Page.behind (p : Page) (lines : List Nesting.Line) (rest : List UInt8) : Page :=
  { p with
    rest
    line := p.line + lines.length
    column := 1
    tokens := p.tokens + lines.countP Nesting.Line.isDirective }

namespace Nesting

open Skipping

/-- From the beginning of these lines, with `depth` conditionals open, the rounds of an excluded
group come to the line behind them, with `deeper` open. -/
def Passes (lines : List Line) (depth deeper : Nat) : Prop :=
  ∀ ⦃t : Lexer Book⦄ ⦃p : Page⦄ ⦃below : List Page⦄ ⦃rest : List UInt8⦄, t.pending = [[]] →
    t.stream.pages = p :: below → p.column = 1 → p.rest = lines.flatMap Line.text ++ rest →
    ∃ mark, group depth t =
      group deeper (t.turnTo mark (p.behind lines rest :: below))

theorem passes_nil (depth : Nat) : Passes [] depth depth := by
  intro t p below rest hpending h hcolumn hp
  have hbehind : p.behind [] rest = p := by
    rcases p with ⟨name, text, line, column, tokens⟩
    cases hp
    cases hcolumn
    simp [Page.behind]
  refine ⟨t.mark, ?_⟩
  rw [hbehind, turnTo, withPages_self h]

theorem Passes.append {front back : List Line} {depth deeper deepest : Nat}
    (hfront : Passes front depth deeper) (hback : Passes back deeper deepest) :
    Passes (front ++ back) depth deepest := by
  intro t p below rest hpending h hcolumn hp
  rw [List.flatMap_append, List.append_assoc] at hp
  rcases hfront hpending h hcolumn hp with ⟨mark, hgroup⟩
  rcases hback (t := t.turnTo mark (p.behind front (back.flatMap Line.text ++ rest) :: below))
    hpending rfl rfl rfl with ⟨mark', hgroup'⟩
  refine ⟨mark', hgroup.trans (hgroup'.trans ?_)⟩
  have hbehind : (p.behind front (back.flatMap Line.text ++ rest)).behind back rest =
      p.behind (front ++ back) rest := by
    simp only [Page.behind, List.length_append, List.countP_append, Int.natCast_add, Int.add_assoc,
      Nat.add_assoc]
  rw [hbehind, turnTo_turnTo]

theorem Passes.cons {line : Line} {lines : List Line} {depth deeper deepest : Nat}
    (hline : Passes [line] depth deeper) (hlines : Passes lines deeper deepest) :
    Passes (line :: lines) depth deepest :=
  hline.append hlines

theorem blanks_cases (chars : List UInt8) :
    ∃ blanks, (∀ b ∈ blanks, isBlank b.toNat = true) ∧
      (chars = blanks ∨ ∃ c tail, chars = blanks ++ c :: tail ∧ isBlank c.toNat = false ∧
        (chars.dropWhile fun c => isBlank c.toNat).head? = some c) := by
  induction chars with
  | nil => exact ⟨[], List.forall_mem_nil _, Or.inl rfl⟩
  | cons c chars ih =>
      by_cases hc : isBlank c.toNat = true
      · rcases ih with ⟨blanks, hblanks, hchars⟩
        refine ⟨c :: blanks, List.forall_mem_cons.mpr ⟨hc, hblanks⟩, ?_⟩
        rw [List.dropWhile_cons, if_pos hc]
        refine hchars.imp (congrArg (c :: ·)) ?_
        rintro ⟨d, tail, heq, hd⟩
        exact ⟨d, tail, congrArg (c :: ·) heq, hd⟩
      · refine ⟨[], List.forall_mem_nil _, Or.inr ⟨c, chars, rfl, by simpa using hc, ?_⟩⟩
        rw [List.dropWhile_cons, if_neg hc, List.head?_cons]

theorem group_plain {chars : List UInt8}
    (hplain : ∀ c ∈ chars, c ∉ [newline, carriageReturn, backslash, singleQuote, doubleQuote,
      byte '/'])
    {t : Lexer Book} {p : Page} {below : List Page} {rest : List UInt8}
    (h : t.stream.pages = p :: below) (hp : p.rest = chars ++ newline :: rest)
    (hcolumn : 1 ≤ p.column)
    (hhash : p.column = 1 →
      (chars.dropWhile fun c => isBlank c.toNat).head? ≠ some (byte '#')) (depth : Nat) :
    group depth t =
      group depth (t.withPages ({ p with rest, line := p.line + 1, column := 1 } :: below)) := by
  induction hn : chars.length using Nat.strongRecOn generalizing chars t p with
  | ind n ih =>
      rcases blanks_cases chars with ⟨blanks, hblanks, hchars | ⟨c, tail, hchars, hblank, hfirst⟩⟩
      · exact group_newline hblanks h (hchars ▸ hp) depth
      · rw [hfirst] at hhash
        subst hchars
        have hp' : p.rest = blanks ++ c :: (tail ++ newline :: rest) := by
          rw [hp, List.append_assoc, List.cons_append]
        have hc : c ∉ [newline, backslash, byte '/', singleQuote, doubleQuote] := by
          have hmarks := hplain c (by simp)
          simp only [List.mem_cons, List.not_mem_nil, or_false] at hmarks ⊢
          tauto
        have hchar := group_char hblanks h hp' hblank hc
          (fun heq hstart => hhash hstart (congrArg some heq)) depth
        -- Behind the character, no other one is the first of the line.
        have hright : 1 < (p.along (blanks.length + 1) (tail ++ newline :: rest)).column := by
          show 1 < p.column + ((blanks.length + 1 : Nat) : Int)
          omega
        have hlength : tail.length < n := by
          rw [← hn, List.length_append, List.length_cons]
          omega
        have htail : ∀ d ∈ tail, d ∈ blanks ++ c :: tail := fun d hd =>
          List.mem_append_right _ (List.mem_cons_of_mem c hd)
        rw [hchar]
        exact ih tail.length hlength (fun d hd => hplain d (htail d hd))
          (p := p.along (blanks.length + 1) (tail ++ newline :: rest)) rfl rfl
          (Int.le_of_lt hright) (fun hstart => absurd hstart (Int.ne_of_gt hright)) rfl

theorem passes_plain (line : PlainLine) (depth : Nat) : Passes [.plain line] depth depth := by
  intro t p below rest hpending h hcolumn hp
  have hp' : p.rest = line.chars ++ newline :: rest := by
    rw [hp, List.flatMap_singleton, Line.text, List.append_assoc, List.singleton_append]
  exact ⟨t.mark, group_plain line.plain h hp' (Int.le_of_eq hcolumn.symm)
    (fun _ => line.not_directive) depth⟩

theorem DirectiveLine.tail_cases (line : DirectiveLine) (rest : List UInt8) :
    ∃ c text, line.tail ++ newline :: rest = c :: text ∧ EndsName c := by
  cases htail : line.tail with
  | nil => exact ⟨newline, rest, rfl, Or.inr rfl⟩
  | cons c tail => exact ⟨c, tail ++ newline :: rest, rfl,
      Or.inl (line.tail_blank c (by rw [htail]; rfl))⟩

theorem passes_directive (line : DirectiveLine) (depth : Nat)
    (hpass : ¬ (depth = 0 ∧ divides line.name)) :
    Passes [.directive line] depth (depthAfter line.name depth) := by
  intro t p below rest hpending h hcolumn hp
  rcases line.tail_cases rest with ⟨c, text, htail, hend⟩
  let named := line.gap ++ (bytes line.name.toList ++ c :: text)
  have hp' : p.rest = line.indent ++ byte '#' :: named := by
    rw [hp, List.flatMap_singleton, Line.text]
    simp only [named, ← htail, List.append_assoc, List.cons_append, List.nil_append]
  have hround := group_hash line.indent_blank h hp' hcolumn depth
  let behind := p.along (line.indent.length + 1) named
  have htoken := nextToken_name line.gap_blank line.name_ne line.name_letters hend
    (t := t.withPages (behind :: below)) hpending rfl rfl
  let mark := (behind.line, behind.column + (line.gap.length : Int))
  let q := (behind.along (line.gap.length + line.name.toList.length) (c :: text)).look.drawn
  have hq : q.rest = line.tail ++ newline :: rest := (Page.rest_look _).trans htail.symm
  have htail_plain : ∀ d ∈ line.tail, d ≠ newline ∧ d ≠ backslash := by
    intro d hd
    have hnot := line.tail_plain d hd
    simp only [List.mem_cons, List.not_mem_nil, or_false, not_or] at hnot
    exact ⟨hnot.1, hnot.2.2⟩
  have hskip := skipLine_run htail_plain (t := t.turnTo mark (q :: below)) rfl hq
  have hline := group_newline (List.forall_mem_nil _)
    (t := t.turnTo mark ({ q with rest := newline :: rest, column := 1 } :: below)) rfl rfl
    (depthAfter line.name depth)
  refine ⟨mark, (group_again (hround.trans (directive_pass htoken rfl hpass hskip))).trans
    (hline.trans ?_)⟩
  have hbehind : { { q with rest := newline :: rest, column := 1 } with
      rest, line := q.line + 1, column := 1 } = p.behind [.directive line] rest := by
    simp [q, behind, Page.behind, Page.drawn, Page.along, Line.isDirective]
  rw [withPages_turnTo, hbehind]

theorem depthAfter_other {name : String} (h : opens name = false ∧ divides name = false)
    (depth : Nat) : depthAfter name depth = depth := by
  have hend : name ≠ "endif" := by
    rintro rfl
    exact absurd h.2 (by decide)
  rw [depthAfter, h.1, if_neg (by simp), if_neg hend]

theorem divides_of_opens {name : String} (h : opens name = true) : divides name = false := by
  simp only [opens, Bool.or_eq_true, beq_iff_eq] at h
  rcases h with (rfl | rfl) | rfl <;> rfl

mutual

/-- A group leaves the depth as it was. -/
theorem passes_group : ∀ (group : Group) (depth : Nat), Passes group.lines depth depth
  | .nil, depth => passes_nil depth
  | .line line rest, depth => (passes_plain line depth).cons (passes_group rest depth)
  | .directive line other rest, depth => by
      have hline := passes_directive line depth (by simp [other.2])
      rw [depthAfter_other other] at hline
      exact hline.cons (passes_group rest depth)
  | .conditional opening name_opens body branches rest, depth => by
      have hopening := passes_directive opening depth fun h =>
        absurd h.2 (by simp [divides_of_opens name_opens])
      rw [depthAfter, if_pos name_opens] at hopening
      exact hopening.cons ((passes_group body (depth + 1)).append
        ((passes_branches branches depth).append (passes_group rest depth)))

theorem passes_branches : ∀ (branches : Branches) (depth : Nat),
    Passes branches.lines (depth + 1) depth
  | .close line name_eq, depth => by
      have hline := passes_directive line (depth + 1) (by simp)
      rwa [name_eq] at hline
  | .branch line name_eq body more, depth => by
      have hline := passes_directive line (depth + 1) (by simp)
      have hdepth : depthAfter line.name (depth + 1) = depth + 1 := by
        rcases name_eq with h | h <;> rw [h] <;> rfl
      rw [hdepth] at hline
      exact hline.cons ((passes_group body (depth + 1)).append (passes_branches more depth))

end

section

variable {t : Lexer Book} {p : Page} {below : List Page} {rest : List UInt8} {c : UInt8}

theorem hashToken_pages (h : t.stream.pages = p :: below) (hash : HashMark)
    (hdepth : hash.depth = below.length + 1) :
    hashToken hash t =
      .ok { lexeme := .punctuator .hash, file := some hash.place.file, line := hash.place.line,
            column := hash.place.column, index := p.tokens, startsLine := true }
        (t.withPages (p.drawn :: below)) := by
  have hdraw : CharStream.draw t.stream =
      (p.tokens, { t.stream with pages := p.drawn :: below }) := by
    show t.stream.draw = _
    rw [Book.draw, h]
    rfl
  have hstream : CharStream.depth t.stream = hash.depth := by
    show t.stream.pages.length = _
    rw [h, hdepth]
    rfl
  rw [hashToken]
  dsimp only
  rw [if_pos hstream, hdraw]
  rfl

/-- A directive at the beginning of a line that divides or ends the outer conditional becomes
pending. Its name has taken a number before its `#` does. -/
theorem group_stop (hpending : t.pending = [[]]) (h : t.stream.pages = p :: below)
    (hcolumn : p.column = 1) {name : String} (hname : divides name = true) (hend : EndsName c)
    (hp : p.rest = byte '#' :: (bytes name.toList ++ c :: rest)) :
    group 0 t =
      .ok ()
        { t.turnTo (p.line, 2)
            ((p.along (1 + name.toList.length) (c :: rest)).look.drawn.drawn :: below) with
          pending := [[
            { lexeme := .punctuator .hash, file := some p.name, line := p.line, column := 1,
              index := p.tokens + 1, startsLine := true },
            { lexeme := .ident name, file := some p.name, line := p.line, column := 2,
              index := p.tokens }]] } := by
  rcases letters_of_divides hname with ⟨hne, hletters⟩
  let q := (p.along (1 + name.toList.length) (c :: rest)).look
  have hround := group_hash (List.forall_mem_nil _) h hp hcolumn 0
  have hnext : nextToken (t.withPages (p.along 1 (bytes name.toList ++ c :: rest) :: below)) =
      .ok { lexeme := .ident name, file := some p.name, line := p.line, column := 2,
            index := p.tokens } (t.turnTo (p.line, 2) (q.drawn :: below)) := by
    have hname := nextToken_name (List.forall_mem_nil _) hne hletters hend
      (t := t.withPages (p.along 1 (bytes name.toList ++ c :: rest) :: below)) hpending rfl rfl
    have hplace : (p.along 1 (bytes name.toList ++ c :: rest)).column = 2 := by
      rw [Page.along, hcolumn]
      rfl
    rw [Page.along_along, turnTo_withPages, hplace, List.length_nil, Nat.zero_add] at hname
    exact hname
  have hhash := @hashToken_pages
    { t.turnTo (p.line, 2) (q.drawn :: below) with pending := [[
      { lexeme := .ident name, file := some p.name, line := p.line, column := 2,
        index := p.tokens }]] } q.drawn below rfl
    ⟨⟨p.name, p.line, p.column + 0⟩, p.tokens, below.length + 1⟩ rfl
  have hstop := hround.trans (directive_stop_of_hash hnext rfl ⟨rfl, hname⟩ hpending hhash rfl rfl)
  rw [group, LexM.loop_eq, hstop]
  have htokens : q.drawn.tokens = p.tokens + 1 := congrArg (· + 1) (Page.tokens_look _)
  simp only [hcolumn, htokens]
  rfl

end

theorem Line.not_mem_text (line : Line) : carriageReturn ∉ line.text := by
  have hblank : ∀ {blanks : List UInt8}, (∀ b ∈ blanks, isBlank b.toNat = true) →
      carriageReturn ∉ blanks := fun h hmem => absurd (h _ hmem) (by decide)
  cases line with
  | plain line =>
      intro hmem
      rcases List.mem_append.mp hmem with hmem | hmem
      · exact line.plain _ hmem (by simp)
      · exact absurd hmem (by decide)
  | directive line =>
      rcases bytes_name line.name_ne line.name_letters with ⟨first, letters, hname, hletters, -⟩
      simp only [text, hname, List.mem_append, List.mem_cons, List.not_mem_nil, or_false, not_or]
      refine ⟨hblank line.indent_blank, by decide, hblank line.gap_blank, ?_, ?_, by decide⟩
      · rw [← not_or, ← List.mem_cons]
        exact fun hmem => absurd (hletters _ hmem) (by decide)
      · exact fun hmem => line.tail_plain _ hmem (by simp)

theorem Group.not_mem_text (group : Group) : carriageReturn ∉ group.text := by
  intro hmem
  rcases List.mem_flatMap.mp hmem with ⟨line, -, hline⟩
  exact line.not_mem_text hline

open Skipping

theorem skipGroup_page {t : Lexer Book} {below : List Page} {file : String} {rest : List UInt8}
    {c : UInt8} (group : Group) {name : String} (hname : divides name = true) (hend : EndsName c)
    (hpending : t.pending = [[]])
    (h : t.stream.pages = { name := file, rest := group.text ++ byte '#' ::
      (bytes name.toList ++ c :: rest) } :: below) :
    let line : Int := 1 + group.lines.length
    let names := group.lines.countP Line.isDirective
    let column := if c = newline then 1 else 2 + (name.length : Int)
    skipGroup t =
      .ok ()
        { t.turnTo (line, 2)
            ({ name := file, rest := c :: rest, line, column, tokens := names + 2 } :: below) with
          pending := [[
            { lexeme := .punctuator .hash, file := some file, line, column := 1,
              index := names + 1, startsLine := true },
            { lexeme := .ident name, file := some file, line, column := 2, index := names }]] } := by
  intro line names column
  rcases passes_group group 0 hpending h rfl rfl with ⟨mark, hgroup⟩
  let q : Page := { name := file, rest := byte '#' :: (bytes name.toList ++ c :: rest), line,
                    column := 1, tokens := names }
  have hbehind : Page.behind { name := file, rest := group.text ++ byte '#' ::
      (bytes name.toList ++ c :: rest) } group.lines q.rest = q := by
    rw [Page.behind, Nat.zero_add]
  rw [hbehind] at hgroup
  have hstop := group_stop (t := t.turnTo mark (q :: below)) hpending rfl rfl hname hend rfl
  have hpage : (q.along (1 + name.toList.length) (c :: rest)).look.drawn.drawn =
      { name := file, rest := c :: rest, line, column, tokens := names + 2 } := by
    by_cases hc : c = newline
    · subst hc
      rw [Page.look_newline rfl, show column = 1 from if_pos rfl]
      rfl
    · have hcount : (1 : Int) + ((1 + name.toList.length : Nat) : Int) = column := by
        rw [show column = 2 + (name.length : Int) from if_neg hc, String.length_toList]
        omega
      rw [Page.look_of_ne rfl hc, ← hcount]
      rfl
  rw [turnTo_turnTo, hpage] at hstop
  rw [skipGroup, LexM.bind_of_ok (needSource_pages h)]
  exact hgroup.trans hstop

theorem canon_directive (group : Group) {name : String} (hname : divides name = true)
    (rest : List UInt8) :
    canon (group.text ++ byte '#' :: (bytes name.toList ++ rest)) =
      group.text ++ byte '#' :: (bytes name.toList ++ canon rest) := by
  rcases letters_of_divides hname with ⟨hne, hall⟩
  rcases bytes_name hne hall with ⟨first, letters, hbytes, hletters, -⟩
  have hlast : (group.text ++ byte '#' :: first :: letters).getLast? =
      some ((first :: letters).getLast (List.cons_ne_nil _ _)) := by
    rw [List.getLast?_append_cons, List.getLast?_cons_cons, List.getLast?_eq_some_getLast]
  have hletter := hletters _ (List.getLast_mem (List.cons_ne_nil first letters))
  have hreturn : carriageReturn ∉ group.text ++ byte '#' :: first :: letters := by
    rw [List.mem_append, List.mem_cons, not_or, not_or]
    exact ⟨group.not_mem_text, by decide, fun hmem => ne_of_isLetter (hletters _ hmem) rfl rfl⟩
  have happend := canon_append hreturn hlast (ne_of_isLetter hletter rfl) rest
  rw [hbytes]
  simpa only [List.append_assoc, List.cons_append] using happend

/-- A lexer that has come to `rest` behind a directive name, at the beginning of `line`. A newline
there has been looked at, which puts it at column one. -/
def onward (stream : Stream) (source : Source) (below : List Source) (options : Options)
    (line : Int) (name : String) (tokens : Nat) (rest : List UInt8) : Lexer :=
  let column := if (canon rest).head? = some newline then 1 else 2 + (name.length : Int)
  let top := { Source.ofBytes source.name rest with line, column, tokens }
  { Lexer.ofStream
      { stream with files := top :: below, console := source.leave stream.console } options with
    mark := (line, 2) }

theorem book_onward (stream : Stream) (source : Source) (below : List Source) (options : Options)
    (line : Int) (name : String) (tokens : Nat) (rest : List UInt8) :
    (onward stream source below options line name tokens rest).book =
      (Lexer.ofStream stream options).book.turnTo (line, 2)
        ({ name := source.name, rest := canon rest, line, tokens,
           column := if (canon rest).head? = some newline then 1 else 2 + (name.length : Int) } ::
          Stream.pagesOf (source.leave stream.console) below) :=
  rfl

end Nesting

open Nesting

/-- A group of lines and nested conditionals, to any depth, is passed over up to the directive behind
it that divides or ends the outer conditional. The tokens of that directive come next, and then
those of the rest of the text, read from behind its name. -/
theorem skipGroup_balanced {stream : Stream} {source : Source} {below : List Source}
    (hfiles : stream.files = source :: below) (hfresh : source.IsFresh)
    (hbelow : ∀ other ∈ below, other.pushback = []) (options : Options) (group : Nesting.Group)
    {name : String} (hname : divides name = true) {rest : List UInt8}
    (hrest : ∀ c ∈ (canon rest).head?, EndsName c)
    (htext : (source.lend stream.console).input.remaining =
      group.text ++ byte '#' :: (bytes name.toList ++ rest)) :
    let line : Int := 1 + group.lines.length
    let names := group.lines.countP Line.isDirective
    let behind := onward stream source below options line name (names + 2) rest
    ∃ lx₁ lx₂ lx₃, skipGroup (Lexer.ofStream stream options) = .ok () lx₁ ∧
      nextToken lx₁ =
        .ok { lexeme := .punctuator .hash, file := some source.name, line, column := 1,
              index := names + 1, startsLine := true } lx₂ ∧
      nextToken lx₂ =
        .ok { lexeme := .ident name, file := some source.name, line, column := 2,
              index := names } lx₃ ∧
      lx₃.listing.tokens = behind.listing.tokens ∧
      lx₃.listing.failure = behind.listing.failure := by
  intro line names behind
  have hroom : (Lexer.ofStream stream options).stream.HasRoom 0 := by
    refine ⟨source, below, hfiles, ?_, hbelow⟩
    rw [hfresh.pushback]
    exact Nat.zero_le 3
  have hcons : ∃ c text, canon rest = c :: text := by
    refine List.exists_cons_of_ne_nil fun hnil => ?_
    have hlast := getLast?_complete (uniform rest)
    rw [show complete false (uniform rest) = canon rest from rfl, hnil] at hlast
    cases hlast
  rcases hcons with ⟨c, text, hc⟩
  have hend : EndsName c := hrest c (by rw [hc]; rfl)
  have hpages : (Lexer.ofStream stream options).book.stream.pages =
      { name := source.name, rest := group.text ++ byte '#' :: (bytes name.toList ++ c :: text) } ::
        Stream.pagesOf (source.leave stream.console) below := by
    show Stream.pagesOf stream.console stream.files = _
    rw [hfiles, Stream.pagesOf, (hfresh.lend stream.console).page_eq, htext,
      canon_directive group hname, hc]
    rfl
  -- The group is passed on the page of the source; the stack does what its book does.
  have hskip := skipGroup_page group hname hend rfl hpages
  rcases Stack.skipGroup_book hroom hskip with ⟨lx₁, hlx₁, hbook, hroom₁⟩
  have hpending : lx₁.pending = _ := (congrArg Lexer.pending hbook).symm
  refine ⟨lx₁, _, { lx₁ with pending := [[]] }, hlx₁, by rw [nextToken, hpending], rfl, ?_⟩
  have hbehind : ({ lx₁ with pending := [[]] } : Lexer).book = behind.book := by
    have hnewline : (c :: text).head? = some newline ↔ c = newline := by simp
    show { lx₁.book with pending := [[]] } = _
    rw [← hbook, book_onward, hc]
    simp only [hnewline]
    rfl
  have hroom₂ : behind.stream.HasRoom 0 := ⟨_, below, rfl, Nat.zero_le 3, hbelow⟩
  have hlisting := Stack.listing_book { lx₁ with pending := [[]] } hroom₁
  rw [hbehind, Stack.listing_book behind hroom₂, Listing.mk.injEq] at hlisting
  exact ⟨hlisting.1.symm, hlisting.2.1.symm⟩

/-- A conditional with branches inside another one. A quote or a comment that is left open on the line
of a directive is no matter, and neither is a `#` in the middle of a line. -/
theorem skipGroup_balanced_deep :
    let text := "#ifdef A '\na # b\n#if B\n#elif C\n # define X /*\n#else\n#endif\n#endif\n#else y\n"
    let lx := Lexer.ofStream (Stream.ofSources
      [.ofFile "a.h" (bytes text.toList), .ofBytes "b.c" (bytes "z".toList)])
    ∃ lx₁ lx₂ lx₃ hash name, skipGroup lx = .ok () lx₁ ∧ nextToken lx₁ = .ok hash lx₂ ∧
      nextToken lx₂ = .ok name lx₃ ∧ hash.lexeme = .punctuator .hash ∧ hash.startsLine = true ∧
      hash.line = 9 ∧ hash.column = 1 ∧ name.lexeme = .ident "else" ∧
      lx₃.listing.tokens.map (·.lexeme) =
        [.ident "y", .newline, .ident "z", .newline, .eof] := by
  intro text lx
  let inner : Nesting.Group :=
    .conditional { name := "if", tail := bytes " B".toList } rfl .nil
      (.branch { name := "elif", tail := bytes " C".toList } (Or.inr rfl)
        (.directive
          { indent := [0x20], gap := [0x20], name := "define", tail := bytes " X /*".toList }
          (by decide +kernel) .nil)
        (.branch { name := "else" } (Or.inl rfl) .nil (.close { name := "endif" } rfl)))
      .nil
  let group : Nesting.Group :=
    .conditional { name := "ifdef", tail := bytes " A '".toList } rfl
      (.line ⟨bytes "a # b".toList, by decide +kernel, by decide +kernel⟩ inner)
      (.close { name := "endif" } rfl) .nil
  have hfiles : lx.stream.files =
      [.ofFile "a.h" (bytes text.toList), .ofBytes "b.c" (bytes "z".toList)] := rfl
  have hname : divides "else" = true := rfl
  have htext : ((Source.ofFile "a.h" (bytes text.toList)).lend []).input.remaining =
      group.text ++ byte '#' :: (bytes "else".toList ++ bytes " y\n".toList) := by
    decide +kernel
  rcases skipGroup_balanced hfiles (Source.isFresh_ofFile _ _) (by simp [Source.ofBytes]) {} group
    hname (by decide +kernel) htext with ⟨lx₁, lx₂, lx₃, hskip, hhash, hname, htokens, -⟩
  refine ⟨lx₁, lx₂, lx₃, _, _, hskip, hhash, hname, rfl, rfl, by decide +kernel, rfl, rfl, ?_⟩
  rw [htokens]
  decide +kernel

end CLex
