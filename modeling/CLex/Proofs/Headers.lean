import CLex.Lexer.Header
import CLex.Proofs.Leading
import CLex.Proofs.Transcoding
import Mathlib.Data.List.TakeWhile

namespace CLex

open Character Lexer LexM Lines

namespace HeaderName

def opening (system : Bool) : Char :=
  if system then '<' else '"'

def closing (system : Bool) : Char :=
  if system then '>' else '"'

theorem opening_notMem (system : Bool) :
    byte (opening system) ∉ [newline, carriageReturn, backslash] := by
  cases system <;> decide

theorem closing_notMem (system : Bool) :
    byte (closing system) ∉ [newline, carriageReturn, backslash] := by
  cases system <;> decide

theorem unblank_opening (system : Bool) (text : List UInt8) :
    Outlook.Unblank (byte (opening system) :: text) := by
  cases system
  · exact ⟨by decide, fun h => absurd h (by decide)⟩
  · exact ⟨by decide, fun h => absurd h (by decide)⟩

end HeaderName

open HeaderName

namespace Lexer

variable {σ : Type} [CharStream σ]

/-- The header name that comes next, when no tokens are pending. -/
def headerHere? : LexOn σ (Option HeaderName) := do
  needSource
  let _ ← skipBlanks
  let start ← here
  if ← skipIf doubleQuote then headerUpTo start doubleQuote false
  else if ← skipIf (byte '<') then headerUpTo start (byte '>') true
  else pure none

theorem headerName?_eq {lx : Lexer σ} (h : lx.pending = [[]]) : headerName? lx = headerHere? lx := by
  have hget : (get : LexOn σ (Lexer σ)) lx = .ok lx lx := rfl
  rw [headerName?, bind_of_ok hget, if_pos h]
  rfl

end Lexer

namespace Reading

variable {σ τ : Type} [CharStream σ] [CharStream τ] {R : Reading σ τ} {close : UInt8}
  {start start' : Location}

theorem same_headerRound (hplace : R.place start start') (hclose : close ≠ newline)
    (before : List UInt8) :
    R.Same (R.held []) (fun _ => R.held []) (headerRound start close before)
      (headerRound start' close before) := by
  refine same_bind (same_skipIf plain_nil close) fun closed => ?_
  cases closed with
  | true => exact same_pure fun _ _ h => R.keep h hclose
  | false =>
      simp only [Bool.false_eq_true, if_false]
      refine same_bind (same_next plain_nil) fun c => ?_
      cases c with
      | none => exact runs_throw (R.located hplace _) fun _ _ h => out_of_held h
      | some c =>
          dsimp only
          split
          · exact runs_throw (R.located hplace _) fun _ _ h => out_of_held h
          · next hc => exact same_pure fun _ _ h => R.keep h hc

theorem same_headerUpTo (hplace : R.place start start') (hclose : close ≠ newline)
    (system : Bool) :
    R.Same (R.held []) (fun _ => R.held []) (headerUpTo start close system)
      (headerUpTo start' close system) := by
  have hloop : R.Same (R.held []) (fun _ => R.held [])
      (loop (headerRound start close) (progress_headerRound start close) [])
      (loop (headerRound start' close) (progress_headerRound start' close) []) := by
    refine same_loop (I := fun _ => R.held []) (fun before => ?_) []
    refine (same_headerRound hplace hclose before).post ?_
    rintro (_ | _) _ _ h <;> exact h
  refine same_bind hloop fun name => ?_
  split
  · exact runs_throw (R.located hplace _) fun _ _ h => out_of_held h
  · exact same_pure fun _ _ h => h

end Reading

open Reading in
theorem FreshSimulation.same_headerHere? {σ τ : Type} [CharStream σ] [CharStream τ]
    {S : FreshSimulation σ τ} :
    S.Same (S.held []) (fun _ => S.held []) headerHere? headerHere? := by
  refine same_bind S.needSource fun _ => same_bind same_skipBlanks fun _ => ?_
  refine runs_bind (runs_here 0) fun start start' => runs_given fun hplace => ?_
  refine same_bind (same_skipIf plain_nil doubleQuote) fun quoted => ?_
  cases quoted with
  | true => exact (same_headerUpTo hplace (by decide) false).pre fun _ _ h => S.keep h (by decide)
  | false =>
      refine same_bind (same_skipIf plain_nil (byte '<')) fun angled => ?_
      cases angled with
      | true => exact (same_headerUpTo hplace (by decide) true).pre fun _ _ h => S.keep h (by decide)
      | false => exact same_pure fun _ _ h => h

namespace Outlook

variable {σ : Type} [CharStream σ] {O : Outlook σ} {text rest name : List UInt8} {close : UInt8}

theorem reads_headerRound {c : UInt8} (hclose : c ≠ close) (hline : c ≠ newline) (start : Location)
    (before : List UInt8) :
    O.Reads (c :: text) (headerRound start close before) (· = .again (c :: before)) text := by
  refine (reads_skipIf_other (by simpa using hclose)).bind_eq (reads_next.bind_eq ?_)
  dsimp only
  rw [if_neg hline]
  exact reads_pure rfl

theorem leads_headerLoop {E : Failure → Lexer σ → Prop} {Q : List UInt8 → Lexer σ → Prop}
    (hname : ∀ b ∈ name, b ≠ close ∧ b ≠ newline) (start : Location) (before : List UInt8)
    (h : Leads E (O.faces text)
      (loop (headerRound start close) (progress_headerRound start close) (name.reverse ++ before))
      Q) :
    Leads E (O.faces (name ++ text))
      (loop (headerRound start close) (progress_headerRound start close) before) Q := by
  induction name generalizing before with
  | nil => exact h
  | cons b name ih =>
      rw [List.forall_mem_cons] at hname
      refine leads_loop_again (reads_headerRound hname.1.1 hname.1.2 start before)
        (ih hname.2 (b :: before) ?_)
      rwa [List.reverse_cons, List.append_assoc] at h

theorem reads_headerUpTo (hname : ∀ b ∈ name, b ≠ close ∧ b ≠ newline) (hne : name ≠ [])
    (start : Location) (system : Bool) :
    O.Reads (name ++ close :: rest) (headerUpTo start close system)
      (· = some ⟨Utf8.decode name, system⟩) rest := by
  have hclosed : O.Reads (close :: rest) (headerRound start close (name.reverse ++ []))
      (· = .done name) rest := by
    refine reads_skipIf.bind_eq (reads_pure ?_)
    rw [List.append_nil, List.reverse_reverse]
  have hloop : O.Reads (name ++ close :: rest)
      (loop (headerRound start close) (progress_headerRound start close) []) (· = name) rest :=
    leads_headerLoop hname start [] (reads_loop_done hclosed)
  refine hloop.bind_eq ?_
  rw [if_neg hne]
  exact reads_pure rfl

theorem fails_headerUpTo_empty (start : Location) (system : Bool) :
    O.Fails (close :: rest) (headerUpTo start close system) .emptyHeader := by
  have hclosed : O.Reads (close :: rest) (headerRound start close []) (· = .done []) rest :=
    reads_skipIf.bind_eq (reads_pure rfl)
  exact (reads_loop_done hclosed).bind_fails_eq (fails_throw start)

theorem fails_headerUpTo_open (hclose : close ≠ newline)
    (hname : ∀ b ∈ name, b ≠ close ∧ b ≠ newline) (hrest : ∀ b ∈ rest.head?, b = newline)
    (start : Location) (system : Bool) :
    O.Fails (name ++ rest) (headerUpTo start close system) .unterminatedHeader := by
  refine Fails.bind (leads_headerLoop hname start [] (fails_loop ?_))
  cases rest with
  | nil =>
      refine (reads_skipIf_other (by simp)).bind_fails_eq (reads_next_end.bind_fails_eq ?_)
      exact fails_throw start
  | cons c rest =>
      obtain rfl : c = newline := hrest c rfl
      refine (reads_skipIf_other (by simpa using Ne.symm hclose)).bind_fails_eq
        (reads_next.bind_fails_eq ?_)
      dsimp only
      rw [if_pos rfl]
      exact fails_throw start

theorem leads_headerHere? {blanks : List UInt8} (hblanks : ∀ b ∈ blanks, isBlank b.toNat = true)
    {system : Bool} {E : Failure → Lexer σ → Prop} {Q : Option HeaderName → Lexer σ → Prop}
    (h : ∀ start, Leads E (O.faces text) (headerUpTo start (byte (closing system)) system) Q) :
    Leads E (O.faces (blanks ++ byte (opening system) :: text)) headerHere? Q := by
  refine reads_needSource.leads_bind fun _ _ => ?_
  refine (reads_skipBlanks hblanks (unblank_opening system text)).leads_bind fun _ _ => ?_
  refine (reads_here 0).leads_bind fun start _ => ?_
  cases system with
  | false => exact reads_skipIf.leads_bind_eq (h start)
  | true =>
      have hquoted : O.Reads (byte '<' :: text) (skipIf doubleQuote) (· = false) _ :=
        reads_skipIf_other (by rw [List.head?_cons]; decide)
      exact hquoted.leads_bind_eq (reads_skipIf.leads_bind_eq (h start))

end Outlook

open Outlook

theorem agrees_headerHere? : Stack.Agrees headerHere? headerHere? :=
  FreshSimulation.same_headerHere? (S := Stack.simulation)

theorem joining_headerHere? : Joining.simulation.Same (Joining.Held []) (fun _ => Joining.Held [])
    headerHere? headerHere? :=
  FreshSimulation.same_headerHere?

section Left

variable {lx : Lexer} {blanks chars rest : List UInt8} {system : Bool} (hlone : lx.stream.IsLone)
  (hpending : lx.pending = [[]]) (hblanks : ∀ b ∈ blanks, isBlank b.toNat = true)

include hlone hpending hblanks

theorem headerName?_closed {name : String} (hne : name ≠ "")
    (hname : ∀ b ∈ Utf8.encode name, b ≠ byte (closing system) ∧ b ≠ newline)
    (hleft : lx.stream.readToEnd.1 = blanks ++
      byte (opening system) :: (Utf8.encode name ++ byte (closing system) :: rest)) :
    ∃ lx', headerName? lx = .ok (some ⟨name, system⟩) lx' ∧ lx'.stream.readToEnd.1 = rest := by
  have hbytes : Utf8.encode name ≠ [] := by
    intro hnil
    rw [← Utf8.decode_encode name, hnil] at hne
    exact hne (by decide +kernel)
  rw [headerName?_eq hpending]
  obtain ⟨_, lx', hread, rfl, hrest⟩ :=
    ok_of_reads agrees_headerHere? joining_headerHere? hlone hpending
      (hleft ▸ leads_headerHere? hblanks fun start => reads_headerUpTo hname hbytes start system)
  rw [Utf8.decode_encode] at hread
  exact ⟨lx', hread, hrest⟩

theorem headerName?_unclosed
    (hleft : lx.stream.readToEnd.1 = blanks ++ byte (opening system) :: chars)
    (hopen : byte (closing system) ∉ chars.takeWhile (· != newline)) :
    ∃ d lx', headerName? lx = .error (.diagnostic d) lx' ∧ d.cause = .unterminatedHeader := by
  have hclose : byte (closing system) ≠ newline := List.ne_of_not_mem_cons (closing_notMem system)
  rw [headerName?_eq hpending]
  refine error_of_fails agrees_headerHere? joining_headerHere? hlone hpending ?_
  rw [hleft, ← List.takeWhile_append_dropWhile (p := (· != newline)) (l := chars)]
  refine leads_headerHere? hblanks fun start =>
    fails_headerUpTo_open hclose (fun b hb => ⟨?_, ?_⟩) (fun b hb => ?_) start system
  · rintro rfl
    exact hopen hb
  · simpa using List.mem_takeWhile_imp hb
  · have hhead := List.head?_dropWhile_not (· != newline) chars
    rw [show _ = some b from hb] at hhead
    simpa using hhead

theorem headerName?_empty
    (hleft : lx.stream.readToEnd.1 =
      blanks ++ byte (opening system) :: byte (closing system) :: rest) :
    ∃ d lx', headerName? lx = .error (.diagnostic d) lx' ∧ d.cause = .emptyHeader := by
  rw [headerName?_eq hpending]
  refine error_of_fails agrees_headerHere? joining_headerHere? hlone hpending ?_
  rw [hleft]
  exact leads_headerHere? hblanks fun start => fails_headerUpTo_empty start system

end Left

/-- What stands between its delimiters is the name of a header, whatever it holds but an end of line
and the closing delimiter, and behind it everything is left to be read. There is no name if, with
lines joined, no closing delimiter comes before the end of the line, or if one comes at once. -/
theorem headerName_literal {lx : Lexer} (hlone : lx.stream.IsLone) (hpending : lx.pending = [[]])
    (system : Bool) {blanks body : List UInt8} (hblanks : ∀ b ∈ blanks, isBlank b.toNat = true)
    (hleft : lx.stream.readToEnd.1 = join (canon (blanks ++ byte (opening system) :: body))) :
    (∀ name r, body = Utf8.encode name ++ byte (closing system) :: r → name ≠ "" →
      '\n' ∉ name.toList → '\r' ∉ name.toList → closing system ∉ name.toList →
        ∃ lx', headerName? lx = .ok (some ⟨name, system⟩) lx' ∧
          lx'.stream.readToEnd.1 = join (canon r)) ∧
      (byte (closing system) ∉ (join (canon body)).takeWhile (· != newline) →
        ∃ d lx', headerName? lx = .error (.diagnostic d) lx' ∧ d.cause = .unterminatedHeader) ∧
      ((join (canon body)).head? = some (byte (closing system)) →
        ∃ d lx', headerName? lx = .error (.diagnostic d) lx' ∧ d.cause = .emptyHeader) := by
  have hblank : ∀ c, isBlank c.toNat = false → c ∉ blanks := by
    intro c hc hmem
    rw [hblanks c hmem] at hc
    cases hc
  rw [join_canon_behind (hblank _ (by decide)) (hblank _ (by decide)) (opening_notMem system)]
    at hleft
  refine ⟨fun name r hbody hne hnewline hreturn hclose => ?_, fun hopen => ?_, fun hempty => ?_⟩
  · have hline : newline ∉ Utf8.encode name := Utf8.notMem_encode (by decide) hnewline
    have hmem : byte (closing system) ∉ Utf8.encode name :=
      Utf8.notMem_encode (by cases system <;> decide) hclose
    rw [hbody, join_canon_behind hline (Utf8.notMem_encode (by decide) hreturn)
      (closing_notMem system)] at hleft
    refine headerName?_closed hlone hpending hblanks hne (fun b hb => ⟨?_, ?_⟩) hleft
    · rintro rfl
      exact hmem hb
    · rintro rfl
      exact hline hb
  · exact headerName?_unclosed hlone hpending hblanks hleft hopen
  · rcases List.head?_eq_some_iff.mp hempty with ⟨rest, hrest⟩
    rw [hrest] at hleft
    exact headerName?_empty hlone hpending hblanks hleft

/-- Backslashes before a quote, next to each other and before the closing delimiter, and a pair that
joins lines behind it. -/
theorem headerName_literal_backslashes :
    let text := Utf8.encode " \t<a\\\"\\\\é\\>\\\n\"x"
    let lx := Lexer.ofStream (Stream.ofSources [.ofBytes "t.c" text])
    ∃ lx', headerName? lx = .ok (some ⟨"a\\\"\\\\é\\", true⟩) lx' ∧
      lx'.stream.readToEnd.1 = bytes ['"', 'x', '\n'] := by
  intro text lx
  let blanks := bytes [' ', '\t']
  let name := "a\\\"\\\\é\\"
  let r := bytes ['\\', '\n', '"', 'x']
  have hleft : lx.stream.readToEnd.1 =
      join (canon (blanks ++ byte (opening true) :: (Utf8.encode name ++ byte (closing true) :: r))) :=
    (Stream.readToEnd_ofBytes "t.c" text).trans (by decide +kernel)
  have hblanks : ∀ b ∈ blanks, isBlank b.toNat = true := by decide +kernel
  have hread := headerName_literal (Stream.isLone_ofBytes "t.c" text) rfl true hblanks hleft
  obtain ⟨lx', hname, hrest⟩ :=
    hread.1 name r rfl (by decide) (by decide) (by decide) (by decide)
  exact ⟨lx', hname, hrest.trans (by decide +kernel)⟩

/-- A newline that a backslash joins to the next line ends no name. -/
theorem headerName_continued :
    let text := Utf8.encode "\"a\\\nb\""
    let lx := Lexer.ofStream (Stream.ofSources [.ofBytes "t.c" text])
    text = doubleQuote :: (bytes ['a', '\\', '\n', 'b'] ++ [doubleQuote]) ∧
      headerName?.run' lx = some (some ⟨"ab", false⟩) := by
  decide +kernel

end CLex
