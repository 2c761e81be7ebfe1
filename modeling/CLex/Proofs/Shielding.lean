import CLex.Lexer.Header
import CLex.Proofs.Isolation

namespace CLex

open Character Lexer LexM

/-- What is asked of a lexer while tokens stand in for its stream. -/
inductive Command where
  | next
  | pushBack (t : Token)
  | headerName
  | tokenOfText (bytes : List UInt8) (shown : String)
  | stash (tokens : List Token)
  | unstash

/-- The lexer after a command, also after one that fails. -/
def Command.result (lx : Lexer) : Command → Lexer
  | .next => lx.after nextToken
  | .pushBack t => lx.after (Lexer.pushBack t)
  | .headerName => lx.after headerName?
  | .tokenOfText bytes shown => lx.after (Lexer.tokenOfText bytes shown)
  | .stash tokens => stashTokens tokens lx
  | .unstash => lx.after unstashTokens

/-- What the calls for the next token give, and the lexer after all commands. A call that fails
gives none, and no failure keeps the next command from being carried out. -/
def runCommands : List Command → Lexer → List (Option Token) × Lexer
  | [], lx => ([], lx)
  | .next :: commands, lx =>
    let given := match nextToken lx with
      | .ok t _ => some t
      | .error _ _ => none
    let run := runCommands commands (Command.next.result lx)
    (given :: run.1, run.2)
  | command :: commands, lx => runCommands commands (command.result lx)

/-- How many lists stand in at the end for one that did at the beginning and `depth` more. There is
no answer if the first one is taken out. -/
def nestingAfter : List Command → Nat → Option Nat
  | [], depth => some depth
  | .stash _ :: commands, depth => nestingAfter commands (depth + 1)
  | .unstash :: _, 0 => none
  | .unstash :: commands, depth + 1 => nestingAfter commands depth
  | _ :: commands, depth => nestingAfter commands depth

/-- The lists that stand in, the innermost first, and how many end tokens have been made behind
empty ones. -/
structure Shelf where
  lists : List (List Token)
  ends : Nat := 0

/-- The end token made at the place of a source, after `n` others. -/
def Source.endToken (source : Source) (n : Nat) : Token :=
  { lexeme := .eof, file := some source.name, line := source.line, column := source.column,
    index := (source.tokens + n : Nat) }

namespace Shelf

/-- The next token: the first of the innermost list, or an end token if the list is empty. -/
def next (source : Source) : Shelf → Token × Shelf
  | ⟨(t :: rest) :: outer, ends⟩ => (t, ⟨rest :: outer, ends⟩)
  | ⟨lists, ends⟩ => (source.endToken ends, ⟨lists, ends + 1⟩)

def step (source : Source) (shelf : Shelf) : Command → Shelf
  | .next => (shelf.next source).2
  | .pushBack t =>
    if t.isEnd then shelf
    else { shelf with lists := (t :: shelf.lists.headD []) :: shelf.lists.tail }
  | .stash tokens => { shelf with lists := tokens :: shelf.lists }
  | .unstash => { shelf with lists := shelf.lists.tail }
  | .headerName | .tokenOfText _ _ => shelf

/-- The tokens that the lists give, and what becomes of the lists. -/
def run (source : Source) : List Command → Shelf → List Token × Shelf
  | [], shelf => ([], shelf)
  | .next :: commands, shelf =>
    let rest := run source commands (shelf.step source .next)
    ((shelf.next source).1 :: rest.1, rest.2)
  | command :: commands, shelf => run source commands (shelf.step source command)

end Shelf

namespace Shielding

variable {main lx : Lexer} {top : Source} {below : List Source} {shelf : Shelf}

/-- The lists on the shelf stand in for the stream of `main`, which has given the numbers of the end
tokens that were made. -/
structure Shields (main : Lexer) (top : Source) (below : List Source) (shelf : Shelf) (lx : Lexer) :
    Prop where
  files : lx.stream.files = { top with tokens := top.tokens + shelf.ends } :: below
  stashed : lx.stream.stashed = main.stream.stashed
  console : lx.stream.console = main.stream.console
  pending : lx.pending = shelf.lists ++ main.pending

theorem Shields.same {lx' : Lexer} (h : Shields main top below shelf lx) (hsame : lx.SameInput lx') :
    Shields main top below shelf lx' :=
  ⟨hsame.files.trans h.files, hsame.stashed.trans h.stashed, hsame.console.trans h.console,
    hsame.pending.trans h.pending⟩

theorem stream_draw {stream : Stream} {n : Nat}
    (hfiles : stream.files = { top with tokens := n } :: below) :
    stream.draw = (n, { stream with files := { top with tokens := n + 1 } :: below }) := by
  rw [Stream.draw, hfiles]
  rfl

theorem nextToken_exhausted {inner : List Token} {outer : List (List Token)} {n : Nat}
    (hpending : lx.pending = [] :: inner :: outer)
    (hfiles : lx.stream.files = { top with tokens := top.tokens + n } :: below) :
    nextToken lx = .ok (top.endToken n)
      { lx with mark := (top.line, top.column),
                stream := { lx.stream with
                  files := { top with tokens := top.tokens + (n + 1) } :: below } } := by
  have hplace : CharStream.place? lx.stream = some top.location := by
    show (lx.stream.files.head?).map Source.location = _
    rw [hfiles]
    rfl
  have hmark : setMark lx = .ok () { lx with mark := (top.line, top.column) } := by
    rw [setMark, hplace]
    rfl
  have hdraw : CharStream.draw lx.stream = _ := stream_draw hfiles
  have hend : nextToken lx = endToken lx := by rw [nextToken, hpending]
  rw [hend, endToken, bind_of_ok hmark, finish]
  dsimp only
  rw [hplace, hdraw]
  rfl

theorem Shields.nextToken (h : Shields main top below shelf lx) (hlists : shelf.lists ≠ [])
    (hmain : main.pending ≠ []) :
    ∃ lx', Lexer.nextToken lx = .ok (shelf.next top).1 lx' ∧
      Shields main top below (shelf.next top).2 lx' := by
  rcases shelf with ⟨lists, ends⟩
  match lists, hlists with
  | (t :: rest) :: outer, _ =>
      refine ⟨{ lx with pending := rest :: (outer ++ main.pending) }, ?_, ?_⟩
      · rw [Lexer.nextToken, h.pending]
        rfl
      · exact ⟨h.files, h.stashed, h.console, rfl⟩
  | [] :: outer, _ =>
      rcases List.exists_cons_of_ne_nil (show outer ++ main.pending ≠ [] by simp [hmain]) with
        ⟨inner, more, hmore⟩
      have hpending : lx.pending = [] :: inner :: more := by
        rw [h.pending, ← hmore]
        rfl
      refine ⟨_, nextToken_exhausted hpending h.files, ?_⟩
      exact ⟨rfl, h.stashed, h.console, h.pending⟩

theorem Shields.pushBack (h : Shields main top below shelf lx) (hlists : shelf.lists ≠ [])
    (t : Token) :
    Shields main top below (shelf.step top (.pushBack t)) (lx.after (Lexer.pushBack t)) := by
  rcases shelf with ⟨lists, ends⟩
  match lists, hlists with
  | list :: outer, _ =>
      by_cases hend : t.isEnd = true
      · have hrun : Lexer.pushBack t lx = .ok () lx := by rw [Lexer.pushBack, if_pos hend]
        rw [Lexer.after, hrun, Shelf.step, if_pos hend]
        exact h
      · have hrun : Lexer.pushBack t lx =
            .ok () { lx with pending := (t :: list) :: (outer ++ main.pending) } := by
          rw [Lexer.pushBack, if_neg hend, h.pending]
          rfl
        rw [Lexer.after, hrun, Shelf.step, if_neg hend]
        exact ⟨h.files, h.stashed, h.console, rfl⟩

theorem Shields.headerName? (h : Shields main top below shelf lx) (hlists : shelf.lists ≠ [])
    (hmain : main.pending ≠ []) : Lexer.headerName? lx = .ok none lx := by
  have hpending : lx.pending ≠ [[]] := by
    intro hnil
    have hlength := congrArg List.length (h.pending.symm.trans hnil)
    have hinner := List.length_pos_of_ne_nil hlists
    have houter := List.length_pos_of_ne_nil hmain
    simp only [List.length_append, List.length_singleton] at hlength
    omega
  show (if lx.pending = [[]] then _ else pure none : LexM _) lx = _
  rw [if_neg hpending]
  rfl

theorem Shields.step (h : Shields main top below shelf lx) (hlists : shelf.lists ≠ [])
    (hmain : main.pending ≠ []) (command : Command) :
    Shields main top below (shelf.step top command) (command.result lx) := by
  cases command with
  | next =>
      rcases h.nextToken hlists hmain with ⟨lx', hnext, h'⟩
      unfold Command.result Lexer.after
      rw [hnext]
      exact h'
  | pushBack t => exact h.pushBack hlists t
  | headerName =>
      unfold Command.result Lexer.after
      rw [h.headerName? hlists hmain]
      exact h
  | tokenOfText bytes shown => exact h.same (sameInput_tokenOfText lx bytes shown)
  | stash tokens =>
      refine ⟨h.files, h.stashed, h.console, ?_⟩
      exact congrArg (tokens :: ·) h.pending
  | unstash =>
      rcases shelf with ⟨lists, ends⟩
      match lists, hlists with
      | list :: outer, _ =>
          have hrun : unstashTokens lx = .ok () { lx with pending := outer ++ main.pending } := by
            rw [unstashTokens, h.pending]
            rfl
          rw [Command.result, Lexer.after, hrun]
          exact ⟨h.files, h.stashed, h.console, rfl⟩

theorem length_next (source : Source) (shelf : Shelf) :
    (shelf.next source).2.lists.length = shelf.lists.length := by
  rcases shelf with ⟨lists, ends⟩
  match lists with
  | [] | [] :: _ | (_ :: _) :: _ => rfl

theorem length_pushBack (source : Source) (hlists : shelf.lists ≠ []) (t : Token) :
    (shelf.step source (.pushBack t)).lists.length = shelf.lists.length := by
  rcases shelf with ⟨lists, ends⟩
  match lists, hlists with
  | list :: outer, _ =>
      unfold Shelf.step
      dsimp only
      split
      · rfl
      · rfl

/-- The first list stays, so that there is always one that stands in. -/
theorem shields_run {commands : List Command} {depth depth' : Nat}
    (h : Shields main top below shelf lx) (hmain : main.pending ≠ [])
    (hlength : shelf.lists.length = depth + 1) (hdepth : nestingAfter commands depth = some depth') :
    (runCommands commands lx).1 = (shelf.run top commands).1.map some ∧
      Shields main top below (shelf.run top commands).2 (runCommands commands lx).2 ∧
      (shelf.run top commands).2.lists.length = depth' + 1 := by
  induction commands generalizing shelf lx depth with
  | nil =>
      cases hdepth
      exact ⟨rfl, h, hlength⟩
  | cons command commands ih =>
      have hlists : shelf.lists ≠ [] := List.ne_nil_of_length_eq_add_one hlength
      have hstep := h.step hlists hmain command
      cases command with
      | next =>
          rcases h.nextToken hlists hmain with ⟨lx', hnext, -⟩
          rcases ih hstep ((length_next top shelf).trans hlength) hdepth with ⟨hgiven, hrest⟩
          refine ⟨?_, hrest⟩
          rw [runCommands, Shelf.run]
          dsimp only
          rw [hnext, hgiven]
          rfl
      | pushBack t => exact ih hstep ((length_pushBack top hlists t).trans hlength) hdepth
      | headerName => exact ih hstep hlength hdepth
      | tokenOfText bytes shown => exact ih hstep hlength hdepth
      | stash tokens => exact ih hstep (congrArg (· + 1) hlength) hdepth
      | unstash =>
          cases depth with
          | zero => cases hdepth
          | succ depth =>
              refine ih hstep ?_ hdepth
              show shelf.lists.tail.length = _
              rw [List.length_tail, hlength]
              rfl

end Shielding

/-- Over a source and with the list of tokens put back in its place, any commands between a list put
in and the same list taken out leave the input and the pending tokens as they are. The calls for
tokens give what the lists give, and only the number of the source's next token goes up, by one for
each end token that was made behind an empty list. -/
theorem runCommands_shielded {lx : Lexer} {top : Source} {below : List Source}
    (hfiles : lx.stream.files = top :: below) (hpending : lx.pending ≠ []) (tokens : List Token)
    {commands : List Command} (hnested : nestingAfter commands 0 = some 0) :
    let run := runCommands commands (stashTokens tokens lx)
    let shelf := Shelf.run top commands { lists := [tokens] }
    run.1 = shelf.1.map some ∧
      ∃ lx', unstashTokens run.2 = .ok () lx' ∧ lx'.pending = lx.pending ∧
        lx'.stream.files = { top with tokens := top.tokens + shelf.2.ends } :: below ∧
        lx'.stream.stashed = lx.stream.stashed ∧ lx'.stream.console = lx.stream.console := by
  intro run shelf
  have hstart : Shielding.Shields lx top below { lists := [tokens] } (stashTokens tokens lx) :=
    ⟨hfiles, rfl, rfl, rfl⟩
  rcases Shielding.shields_run hstart hpending rfl hnested with ⟨hgiven, hrun, hlength⟩
  refine ⟨hgiven, ?_⟩
  rcases List.length_eq_one_iff.mp hlength with ⟨list, hlist⟩
  have hunstash : unstashTokens run.2 = .ok () { run.2 with pending := lx.pending } := by
    rw [unstashTokens, hrun.pending, hlist]
    rfl
  exact ⟨_, hunstash, rfl, hrun.files, hrun.stashed, hrun.console⟩

theorem runCommands_shielded_nested :
    let lx := Lexer.ofStream (Stream.ofSources [.ofBytes "t.c" (bytes "x y".toList)])
    let a : Token := { lexeme := .ident "a" }
    let b : Token := { lexeme := .ident "b" }
    let commands : List Command := [.next, .headerName, .next, .pushBack b, .stash [a],
      .tokenOfText (bytes "1 2".toList) "1 2", .next, .next, .unstash, .next]
    let run := runCommands commands (stashTokens [a] lx)
    nestingAfter commands 0 = some 0 ∧
      (run.1.map fun o => o.map Token.lexeme) =
        [some (.ident "a"), some .eof, some (.ident "a"), some .eof, some (.ident "b")] ∧
      ∃ lx', unstashTokens run.2 = .ok () lx' ∧ lx'.pending = [[]] ∧
        lx'.stream.files = [{ Source.ofBytes "t.c" (bytes "x y".toList) with tokens := 2 }] := by
  intro lx a b commands run
  rcases runCommands_shielded (show lx.stream.files = _ :: _ from rfl)
    (by simp [lx, Lexer.ofStream]) [a] (show nestingAfter commands 0 = some 0 from rfl) with
    ⟨hgiven, lx', hunstash, hpending, hfiles, -⟩
  refine ⟨rfl, ?_, lx', hunstash, hpending, hfiles⟩
  rw [show run.1 = _ from hgiven]
  rfl

/-- Once the list of the stream itself has been taken out there is nothing that tells a list put in
from it. An empty list does not stand in then, and the stream is read. -/
theorem runCommands_unshielded :
    let source := Source.ofBytes "t.c" (bytes ['a'])
    let lx := (Lexer.ofStream (Stream.ofSources [source])).after unstashTokens
    let run := runCommands [.next] (stashTokens [] lx)
    lx.stream.files = [source] ∧ nestingAfter [.next] 0 = some 0 ∧
      (run.1.map fun o => o.map Token.lexeme) = [some (.ident "a")] ∧
      (Shelf.run source [.next] { lists := [[]] }).1.map Token.lexeme = [.eof] ∧
      ((run.2.after unstashTokens).stream.files.map fun s => (s.input.remaining, s.pushback)) =
        [([], [newline])] := by
  decide +kernel

end CLex
