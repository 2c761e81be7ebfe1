import CLex.Proofs.Leading
import CLex.Proofs.Respelling
import CLex.Proofs.Stopping.Token

namespace CLex

open Character LexM

namespace Punctuator

theorem spelling_dot : ∀ e ∈ table, e.1.head? = some (byte '.') →
    e.1 = bytes ['.'] ∨ e.1 = bytes ['.', '.', '.'] := by
  decide +kernel

theorem prefix_dot {text : List UInt8} {e : List UInt8 × Punctuator} (he : e ∈ table)
    (h : e.1 <+: byte '.' :: text) : e.1 = bytes ['.'] ∨ e.1 = bytes ['.', '.', '.'] := by
  refine spelling_dot e he ?_
  rcases Outlook.first_spelling e he with ⟨c, hc, -⟩
  rcases List.head?_eq_some_iff.mp hc with ⟨more, hmore⟩
  rw [hmore, List.cons_prefix_cons] at h
  rw [hc, h.1]

theorem longest_ellipsis {text : List UInt8} (h : bytes ['.', '.', '.'] <+: byte '.' :: text) :
    Longest (byte '.' :: text) (bytes ['.', '.', '.'], .ellipsis) := by
  refine ⟨by decide, h, fun e he hpre => ?_⟩
  rcases prefix_dot he hpre with heq | heq
  · rw [heq]
    decide
  · rw [heq]

theorem longest_dot {text : List UInt8} (h : ¬ bytes ['.', '.', '.'] <+: byte '.' :: text) :
    Longest (byte '.' :: text) (bytes ['.'], .dot) := by
  refine ⟨by decide, ⟨text, rfl⟩, fun e he hpre => ?_⟩
  rcases prefix_dot he hpre with heq | heq
  · rw [heq]
  · exact absurd (heq ▸ hpre) h

end Punctuator

namespace Outlook

open Lexer

variable {σ : Type} [CharStream σ] {O : Outlook σ} {text rest : List UInt8}

/-- The text begins with two dots, and not with three. -/
def BeginsDots (text : List UInt8) : Prop :=
  [byte '.', byte '.'] <+: text ∧ ¬ [byte '.', byte '.', byte '.'] <+: text

instance (text : List UInt8) : Decidable (BeginsDots text) :=
  inferInstanceAs (Decidable (_ ∧ _))

theorem unblank_of_spelling (hbegins : ∃ e ∈ Punctuator.table, e.1.head? = text.head?)
    (hcomment : ¬ bytes ['/', '/'] <+: text ∧ ¬ bytes ['/', '*'] <+: text) : Unblank text := by
  rcases hbegins with ⟨e, he, hhead⟩
  rcases first_spelling e he with ⟨c, hc, -, hblank, -⟩
  rw [hc] at hhead
  rcases List.head?_eq_some_iff.mp hhead.symm with ⟨text, rfl⟩
  refine ⟨hblank, ?_⟩
  rintro rfl
  constructor
  · intro hstar
    rcases List.head?_eq_some_iff.mp hstar with ⟨tail, rfl⟩
    exact hcomment.2 ⟨tail, rfl⟩
  · intro hslash
    rcases List.head?_eq_some_iff.mp hslash with ⟨tail, rfl⟩
    exact hcomment.1 ⟨tail, rfl⟩

/-- What is read of a text that begins as some spelling does, and not as a number. -/
theorem reads_token_of_spelling (hbegins : ∃ e ∈ Punctuator.table, e.1.head? = text.head?)
    (hnumber : Lexeme.beginsNumber text = false) :
    if BeginsDots text then
      ∃ rest, text = [byte '.', byte '.'] ++ rest ∧
        O.Reads text token (fun t => t.gist = (.ident "..", .plain, false)) rest
    else
      ∃ e rest, text = e.1 ++ rest ∧ Punctuator.Longest text e ∧
        O.Reads text token (fun t => t.gist = (.punctuator e.2, .plain, false)) rest := by
  rcases hbegins with ⟨e, he, hhead⟩
  rcases first_spelling e he with ⟨c, hc, hsymbol, -, hbranch⟩
  rw [hc] at hhead
  rcases List.head?_eq_some_iff.mp hhead.symm with ⟨text, rfl⟩
  by_cases hdot : c = byte '.'
  · subst hdot
    have hdigit : text.head?.any (fun d => isDigit d.toNat) = false := by
      rw [Lexeme.beginsNumber, Bool.or_eq_false_iff] at hnumber
      simpa using hnumber.2
    split
    · next htwo =>
      rcases htwo with ⟨⟨rest, hrest⟩, hthree⟩
      cases hrest
      refine ⟨rest, rfl, reads_token_twoDots fun hhead => hthree ?_⟩
      rcases List.head?_eq_some_iff.mp hhead with ⟨tail, rfl⟩
      exact ⟨tail, rfl⟩
    · next htwo =>
      by_cases hthree : [byte '.', byte '.', byte '.'] <+: byte '.' :: text
      · have hhead := hthree
        rcases hthree with ⟨rest, hrest⟩
        cases hrest
        exact ⟨([byte '.', byte '.', byte '.'], .ellipsis), rest, rfl,
          Punctuator.longest_ellipsis hhead, reads_token_ellipsis⟩
      · refine ⟨([byte '.'], .dot), text, rfl, Punctuator.longest_dot hthree,
          reads_token_oneDot hdigit fun hhead => ?_⟩
        rcases List.head?_eq_some_iff.mp hhead with ⟨tail, rfl⟩
        exact htwo ⟨⟨tail, rfl⟩, hthree⟩
  · rw [if_neg fun htwo => hdot (List.cons_prefix_cons.mp htwo.1).1.symm]
    exact reads_token_longest hsymbol hdot (hbranch.resolve_left hdot) text

end Outlook

/-- Where a punctuator begins, and neither a comment nor a number, the longest spelling is read and
nothing else. Two dots without a third are a name. -/
theorem rawToken_longest {lx : Lexer} (h : lx.stream.IsLone)
    (hbegins : ∃ e ∈ Punctuator.table, e.1.head? = lx.stream.readToEnd.1.head?)
    (hcomment : ¬ bytes ['/', '/'] <+: lx.stream.readToEnd.1 ∧
      ¬ bytes ['/', '*'] <+: lx.stream.readToEnd.1)
    (hnumber : Lexeme.beginsNumber lx.stream.readToEnd.1 = false) :
    ∃ t lx', Lexer.rawToken lx = .ok t lx' ∧
      if Outlook.BeginsDots lx.stream.readToEnd.1 then
        t.gist = (.ident "..", .plain, false) ∧
          lx.stream.readToEnd.1 = bytes ['.', '.'] ++ lx'.stream.readToEnd.1
      else
        ∃ e, Punctuator.Longest lx.stream.readToEnd.1 e ∧
          t.gist = (.punctuator e.2, .plain, false) ∧
          lx.stream.readToEnd.1 = e.1 ++ lx'.stream.readToEnd.1 := by
  have hblank := Outlook.unblank_of_spelling hbegins hcomment
  have hread := Outlook.reads_token_of_spelling (O := Outlook.spliced) hbegins hnumber
  split at hread
  · next hdots =>
    rcases hread with ⟨rest, htext, hread⟩
    rcases rawToken_of_reads h (Outlook.reads_rawToken hblank hread) (by decide) with
      ⟨t, lx', hraw, hgist, hrest⟩
    refine ⟨t, lx', hraw, ?_⟩
    rw [if_pos hdots, hrest]
    exact ⟨hgist, htext⟩
  · next hdots =>
    rcases hread with ⟨e, rest, htext, hlongest, hread⟩
    rcases rawToken_of_reads h (Outlook.reads_rawToken hblank hread) rfl with
      ⟨t, lx', hraw, hgist, hrest⟩
    refine ⟨t, lx', hraw, ?_⟩
    rw [if_neg hdots, hrest]
    exact ⟨e, hlongest, hgist, htext⟩

/-- A digraph of four characters: two have been put back, and a line ends inside the others. -/
theorem rawToken_longest_digraph :
    let source := { Source.ofBytes "t.c" (bytes ['%', '\\', '\n', ':', 'x']) with
      pushback := bytes ['%', ':'] }
    let lx := Lexer.ofStream (Stream.ofSources [source])
    ∃ t lx', Lexer.rawToken lx = .ok t lx' ∧ t.gist = (.punctuator .hashHash, .plain, false) ∧
      lx'.stream.readToEnd.1 = bytes ['x', '\n'] := by
  intro source lx
  have htext : lx.stream.readToEnd.1 = bytes ['%', ':', '%', ':', 'x', '\n'] := by
    decide +kernel
  have hlone : lx.stream.IsLone := ⟨source, rfl, by decide⟩
  rcases rawToken_longest hlone (by rw [htext]; decide +kernel) (by rw [htext]; decide)
    (by rw [htext]; decide) with ⟨t, lx', hraw, hmunch⟩
  rw [htext, if_neg (by decide)] at hmunch
  rcases hmunch with ⟨e, hlongest, hgist, hrest⟩
  have hentry : Punctuator.Longest (bytes ['%', ':', '%', ':', 'x', '\n'])
      (bytes ['%', ':', '%', ':'], .hashHash) := by
    decide +kernel
  rw [hlongest.unique hentry] at hgist hrest
  have hleft : bytes ['%', ':', '%', ':'] ++ bytes ['x', '\n'] = _ := hrest
  exact ⟨t, lx', hraw, hgist, (List.append_cancel_left hleft).symm⟩

end CLex
