import CLex.Proofs.Footing.Token
import CLex.Proofs.Simulation.Leaf

/-!
Where a lexer stands in a text whose lines it joins. Line and column are those behind what has been
read, as long as no newline and no pair has been looked at and put back. A newline takes the column
with it when it is put back, and a pair is not put back at all: the character before either of them,
when it is put back as well, is no longer at its place.
-/

namespace CLex

open Character Lexer LexM Lines

namespace Tracking

/-- The page has this much of the text behind it. -/
structure Tracked (text before : List UInt8) (p : Page) : Prop where
  text_eq : text = before ++ p.rest
  whole : ¬ (before.getLast? = some backslash ∧ p.rest.head? = some newline)
  line : p.line = (placeAfter before).1
  column : p.column = (placeAfter before).2 ∨ p.column = 1 ∧ p.rest.head? = some newline

/-- The character `c` has just been read, behind this much of the text. -/
structure Passed (text before : List UInt8) (c : UInt8) (p : Page) : Prop where
  text_eq : text = before ++ c :: p.rest
  whole : ¬ (before.getLast? = some backslash ∧ c = newline)
  single : ¬ (c = backslash ∧ p.rest.head? = some newline)
  place : (p.line, p.column) = placeAfter (before ++ [c])

/-- The characters are the last ones of a text, the latest first, with nothing but pairs between and
behind them. -/
def Trail : List UInt8 → List UInt8 → Prop
  | [], _ => True
  | c :: cs, text => ∃ before mid, text = before ++ c :: mid ∧ join mid = [] ∧ Trail cs before

variable {text before mid : List UInt8} {c d : UInt8} {cs : List UInt8} {p p' q : Page}

theorem Trail.append (h : Trail cs before) (hmid : join mid = []) : Trail cs (before ++ mid) := by
  cases cs with
  | nil => trivial
  | cons c cs =>
      rcases h with ⟨b, w, rfl, hw, htrail⟩
      refine ⟨b, w ++ mid, by simp, ?_, htrail⟩
      rw [join_append hw, hmid]

theorem Trail.snoc (h : Trail cs before) (c : UInt8) : Trail (c :: cs) (before ++ [c]) :=
  ⟨before, [], rfl, rfl, h⟩

theorem Trail.single (h : Trail (c :: cs) before) : Trail [c] before := by
  rcases h with ⟨b, w, hbefore, hw, -⟩
  exact ⟨b, w, hbefore, hw, trivial⟩

theorem Passed.tracked (h : Passed text before c p) : Tracked text (before ++ [c]) p := by
  refine ⟨?_, ?_, ?_, Or.inl ?_⟩
  · rw [h.text_eq, List.append_assoc]
    rfl
  · rw [List.getLast?_concat, Option.some.injEq]
    exact h.single
  · rw [← h.place]
  · rw [← h.place]

theorem Passed.putBack (h : Passed text before c p) : Tracked text before (p.putBack c) := by
  have hplace := h.place
  rw [placeAfter_snoc, Lines.pass] at hplace
  refine ⟨?_, ?_, ?_, ?_⟩
  · rw [Page.rest_putBack]
    exact h.text_eq
  · rw [Page.rest_putBack, List.head?_cons, Option.some.injEq]
    exact h.whole
  · unfold Page.putBack
    split at hplace
    · next hc =>
      rw [if_pos hc]
      rw [Prod.mk.injEq] at hplace
      show p.line - 1 = _
      omega
    · next hc =>
      rw [if_neg hc]
      exact congrArg Prod.fst hplace
  · rw [Page.rest_putBack, List.head?_cons]
    unfold Page.putBack
    split at hplace
    · next hc =>
      rw [if_pos hc, hc]
      exact Or.inr ⟨rfl, rfl⟩
    · next hc =>
      rw [if_neg hc]
      rw [Prod.mk.injEq] at hplace
      refine Or.inl ?_
      show p.column - 1 = _
      omega

theorem Tracked.settle (h : Tracked text before p) :
    ∃ mid, join mid = [] ∧ Tracked text (before ++ mid) p.settle := by
  rcases Page.passPairs_spec p.rest p.column h.line with
    ⟨mid, hmid, hrest, hline, hcolumn⟩
  have hsettle : p.settle.rest = (Page.passPairs p.rest p.line p.column).1 := rfl
  have hcolumn' : p.settle.column = if mid = [] then p.column else 1 := hcolumn
  refine ⟨mid, hmid, ?_, ?_, hline, ?_⟩
  · rw [hsettle, List.append_assoc, ← hrest]
    exact h.text_eq
  · rcases pairs_cases hmid with rfl | ⟨-, w, -, rfl⟩
    · rw [List.append_nil, hsettle, show (Page.passPairs p.rest p.line p.column).1 = p.rest from
        hrest.symm]
      exact h.whole
    · rw [show before ++ (w ++ [backslash, newline]) = (before ++ w ++ [backslash]) ++ [newline] by
        simp, List.getLast?_concat]
      rintro ⟨hlast, -⟩
      exact absurd hlast (by decide)
  · by_cases hnil : mid = []
    · subst hnil
      rw [hcolumn', if_pos rfl, hsettle, List.append_nil,
        show (Page.passPairs p.rest p.line p.column).1 = p.rest from hrest.symm]
      exact h.column
    · rw [hcolumn', if_neg hnil]
      exact Or.inl (column_pairs hmid hnil before).symm

theorem Tracked.get (h : Tracked text before p) {rest : List UInt8} (hrest : p.rest = c :: rest)
    (hsingle : ¬ (c = backslash ∧ rest.head? = some newline)) :
    Passed text before c ({ p with rest }.advance c) := by
  refine ⟨?_, ?_, ?_, ?_⟩
  · rw [Page.rest_advance, h.text_eq, hrest]
  · have hwhole := h.whole
    rw [hrest, List.head?_cons, Option.some.injEq] at hwhole
    exact hwhole
  · rw [Page.rest_advance]
    exact hsingle
  · rw [placeAfter_snoc, Lines.pass, Page.advance]
    split
    · next hc => rw [h.line]
    · next hc =>
      rcases h.column with hcolumn | ⟨-, hhead⟩
      · rw [h.line, hcolumn]
      · rw [hrest, List.head?_cons, Option.some.injEq] at hhead
        exact absurd hhead hc

theorem Tracked.read_some (h : Tracked text before p) (hread : p.read true = (some c, p')) :
    ∃ mid, join mid = [] ∧ Passed text (before ++ mid) c p' := by
  rcases h.settle with ⟨mid, hmid, hsettle⟩
  rw [Page.read, if_pos rfl, Page.get] at hread
  split at hread
  · cases hread
  · next d rest hrest =>
    rw [Prod.mk.injEq, Option.some.injEq] at hread
    rcases hread with ⟨rfl, rfl⟩
    exact ⟨mid, hmid, hsettle.get hrest (Page.join_passPairs_cons hrest)⟩

theorem Tracked.read_none (h : Tracked text before p) (hread : p.read true = (none, p')) :
    p'.rest = [] ∧ ∃ mid, join mid = [] ∧ Tracked text (before ++ mid) p' := by
  rcases h.settle with ⟨mid, hmid, hsettle⟩
  have hend := Page.length_read_none hread
  rw [Page.read, if_pos rfl, Page.get] at hread
  split at hread
  · rw [Prod.mk.injEq] at hread
    rw [← hread.2] at hend ⊢
    exact ⟨hend, mid, hmid, hsettle⟩
  · cases hread

theorem advance_putBack (hc : c ≠ newline) :
    { p.putBack c with rest := p.rest }.advance c = p := by
  rcases p with ⟨name, rest, line, column, tokens⟩
  simp [Page.putBack, Page.advance, hc]

theorem Tracked.draw (h : Tracked text before p) (n : Nat) :
    Tracked text before { p with tokens := n } :=
  ⟨h.text_eq, h.whole, h.line, h.column⟩

def Loose (text : List UInt8) (p : Page) : Prop :=
  ∃ before, Tracked text before p

def Over (text : List UInt8) (p : Page) : Prop :=
  p.rest = [] ∧ Loose text p

def Looked (text cs : List UInt8) (p : Page) : Prop :=
  ∃ before, Tracked text before p ∧ Trail cs before

def Behind (text : List UInt8) (c : UInt8) (cs : List UInt8) (p : Page) : Prop :=
  c ≠ newline ∧ ∃ q, p = q.putBack c ∧ Looked text (c :: cs) q

/-- One of the characters `stray` has been put back in this way and read again. -/
def Again (text stray : List UInt8) (c : UInt8) (p : Page) : Prop :=
  (c ∈ stray ∧ c ≠ newline) ∧ ¬ (c = backslash ∧ p.rest.head? = some newline) ∧ Looked text [c] p

def Out (text stray : List UInt8) : List UInt8 → Page → Prop
  | [], _ => False
  | c :: cs, p => (∃ before, Passed text before c p ∧ Trail cs before) ∨ cs = [] ∧ Again text stray c p

def Front (text stray : List UInt8) (c : UInt8) (p : Page) : Prop :=
  (∃ before rest, Tracked text before p ∧ p.rest = c :: rest ∧
      ¬ (c = backslash ∧ rest.head? = some newline)) ∨
    ∃ q, p = q.putBack c ∧ Again text stray c q

variable {stray : List UInt8}

theorem Looked.loose (h : Looked text cs p) : Loose text p := by
  rcases h with ⟨before, h, -⟩
  exact ⟨before, h⟩

theorem Looked.single (h : Looked text (c :: cs) p) : Looked text [c] p := by
  rcases h with ⟨before, h, htrail⟩
  exact ⟨before, h, htrail.single⟩

theorem Out.looked (h : Out text stray (c :: cs) p) : Looked text (c :: cs) p := by
  rcases h with ⟨before, h, htrail⟩ | ⟨rfl, -, -, h⟩
  · exact ⟨before ++ [c], h.tracked, htrail.snoc c⟩
  · exact h

theorem Front.loose (h : Front text stray newline p) : Loose text p := by
  rcases h with ⟨before, rest, h, -⟩ | ⟨q, -, ⟨-, hne⟩, -⟩
  · exact ⟨before, h⟩
  · exact absurd rfl hne

theorem Behind.front (h : Behind text c cs p) (hstray : c ∈ stray) (hc : c ≠ backslash) :
    Front text stray c p := by
  rcases h with ⟨hne, q, hp, h⟩
  exact Or.inr ⟨q, hp, ⟨hstray, hne⟩, fun hpair => hc hpair.1, h.single⟩

def Next (text : List UInt8) (P : UInt8 → Page → Prop) (r : Option UInt8 × Page) : Prop :=
  r.1.elim (Over text r.2) fun d => P d r.2

theorem Loose.next (h : Loose text p) : Next text (fun d => Out text stray [d]) (p.read true) := by
  rcases h with ⟨before, h⟩
  rcases hread : p.read true with ⟨_ | d, p'⟩
  · rcases h.read_none hread with ⟨hend, mid, -, h'⟩
    exact ⟨hend, before ++ mid, h'⟩
  · rcases h.read_some hread with ⟨mid, -, h'⟩
    exact Or.inl ⟨before ++ mid, h', trivial⟩

theorem Looked.next (h : Looked text (c :: cs) p) :
    (p.read true).1.elim (Looked text (c :: cs) (p.read true).2)
      fun d => Out text stray (d :: c :: cs) (p.read true).2 := by
  rcases h with ⟨before, h, htrail⟩
  rcases hread : p.read true with ⟨_ | d, p'⟩
  · rcases h.read_none hread with ⟨-, mid, hmid, h'⟩
    exact ⟨before ++ mid, h', htrail.append hmid⟩
  · rcases h.read_some hread with ⟨mid, hmid, h'⟩
    exact Or.inl ⟨before ++ mid, h', htrail.append hmid⟩

theorem read_putBack (hc : c ≠ newline) (hpair : ¬ (c = backslash ∧ q.rest.head? = some newline)) :
    (q.putBack c).read true = (some c, q) := by
  rw [Page.read_cons (Page.rest_putBack q c) hpair, advance_putBack hc]

theorem Looked.next_pair (h : Looked text cs q) (hhead : q.rest.head? = some newline) :
    Next text (fun d => Out text stray [d]) ((q.putBack backslash).read true) := by
  rcases h with ⟨before, h, -⟩
  cases hrest : q.rest with
  | nil =>
      rw [hrest] at hhead
      cases hhead
  | cons e rest =>
      rw [hrest, List.head?_cons, Option.some.injEq] at hhead
      subst hhead
      have hpair : (q.putBack backslash).rest = backslash :: newline :: rest := by
        rw [Page.rest_putBack, hrest]
      rw [Page.read_pair hpair]
      -- The newline is now the end of a pair: the line begins where it would have begun behind it.
      apply Loose.next
      refine ⟨before ++ [newline], ?_, ?_, ?_, Or.inl ?_⟩
      · rw [h.text_eq, hrest, List.append_assoc]
        rfl
      · rw [List.getLast?_concat]
        rintro ⟨hlast, -⟩
        exact absurd hlast (by decide)
      · rw [placeAfter_newline]
        show q.line + 1 = _
        rw [h.line]
      · rw [placeAfter_newline]

theorem Behind.next (h : Behind text c cs p) :
    Next text (fun d => Looked text [d]) (p.read true) := by
  rcases h with ⟨hc, q, rfl, h⟩
  by_cases hpair : c = backslash ∧ q.rest.head? = some newline
  · rcases hpair with ⟨rfl, hhead⟩
    have hnext : Next text (fun d => Out text [] [d]) _ := h.next_pair hhead
    unfold Next at hnext ⊢
    cases hd : ((q.putBack backslash).read true).1 with
    | none => simpa [hd] using hnext
    | some d =>
        rw [hd] at hnext
        exact Out.looked hnext
  · rw [read_putBack hc hpair]
    exact h.single

theorem Behind.next_stray (h : Behind text c cs p) (hstray : c ∈ stray) :
    Next text (fun d => Out text stray [d]) (p.read true) := by
  rcases h with ⟨hc, q, rfl, h⟩
  by_cases hpair : c = backslash ∧ q.rest.head? = some newline
  · rcases hpair with ⟨rfl, hhead⟩
    exact h.next_pair hhead
  · rw [read_putBack hc hpair]
    exact Or.inr ⟨rfl, ⟨hstray, hc⟩, hpair, h.single⟩

theorem Front.read (h : Front text stray c p) : ∃ p', p.read true = (some c, p') ∧
    Out text stray [c] p' := by
  rcases h with ⟨before, rest, h, hrest, hsingle⟩ | ⟨q, rfl, h⟩
  · exact ⟨_, Page.read_cons hrest hsingle true, Or.inl ⟨before, h.get hrest hsingle, trivial⟩⟩
  · exact ⟨q, read_putBack h.1.2 h.2.1, Or.inr ⟨rfl, h⟩⟩

theorem Out.front (h : Out text stray [c] p) : Front text stray c (p.putBack c) := by
  rcases h with ⟨before, h, -⟩ | ⟨-, h⟩
  · exact Or.inl ⟨before, p.rest, h.putBack, Page.rest_putBack p c, h.single⟩
  · exact Or.inr ⟨p, rfl, h⟩

theorem Out.putBack (h : Out text stray (d :: c :: cs) p) :
    Looked text (c :: cs) (p.putBack d) := by
  rcases h with ⟨before, h, htrail⟩ | ⟨hnil, -⟩
  · exact ⟨before, h.putBack, htrail⟩
  · cases hnil

/-- The line ends here, with a newline or with a pair. -/
def EndsLine (after : List UInt8) : Prop :=
  after.head? = some newline ∨ ∃ rest, after = backslash :: newline :: rest

/-- Where a character comes next, its place is right, unless it has been put back at the end of its
line. -/
theorem Front.place (h : Front text stray c p) (hc : c ≠ newline) :
    ∃ before after, text = before ++ c :: after ∧ join (c :: after) = c :: join after ∧
      join p.rest = c :: join after ∧
      ((p.line, p.column) = placeAfter before ∨ p.column = 0 ∧ EndsLine after ∧ c ∈ stray) := by
  rcases h with ⟨before, rest, h, hrest, hsingle⟩ |
    ⟨q, rfl, ⟨hstray, -⟩, hsingle, _, h, before, mid, rfl, hmid, -⟩
  · refine ⟨before, rest, hrest ▸ h.text_eq, join_cons hsingle, ?_, Or.inl ?_⟩
    · rw [hrest, join_cons hsingle]
    · rcases h.column with hcolumn | ⟨-, hhead⟩
      · rw [h.line, hcolumn]
      · rw [hrest, List.head?_cons, Option.some.injEq] at hhead
        exact absurd hhead hc
  · have hrest : join (q.putBack c).rest = c :: join (mid ++ q.rest) := by
      rw [Page.rest_putBack, join_cons hsingle, join_append hmid]
    have htext : text = before ++ c :: (mid ++ q.rest) := by
      rw [h.text_eq, List.append_assoc]
      rfl
    have hback : q.putBack c = { q with rest := c :: q.rest, column := q.column - 1 } :=
      if_neg hc
    -- Without pairs behind the character the column is lost only with a newline that was put back.
    by_cases hnil : mid = []
    · subst hnil
      refine ⟨before, q.rest, htext, join_cons hsingle, hrest, ?_⟩
      rw [hback]
      rcases h.column with hcolumn | ⟨hone, hhead⟩
      · refine Or.inl ?_
        have hline := h.line
        rw [placeAfter_snoc, Lines.pass, if_neg hc] at hline hcolumn
        refine Prod.ext hline ?_
        show q.column - 1 = _
        rw [hcolumn]
        exact Int.add_sub_cancel _ 1
      · refine Or.inr ⟨?_, Or.inl hhead, hstray⟩
        show q.column - 1 = 0
        rw [hone, Int.sub_self]
    · rcases pairs_cases hmid with hmid' | ⟨⟨w, rfl⟩, -⟩
      · exact absurd hmid' hnil
      · refine ⟨before, backslash :: newline :: w ++ q.rest, htext, join_cons ?_, hrest, Or.inr ?_⟩
        · exact fun hpair => absurd hpair.2 (by simp; decide)
        · refine ⟨?_, Or.inr ⟨w ++ q.rest, rfl⟩, hstray⟩
          have hone : q.column = 1 := by
            rcases h.column with hcolumn | ⟨hone, -⟩
            · rw [hcolumn, show before ++ c :: backslash :: newline :: w =
                (before ++ [c]) ++ backslash :: newline :: w by simp, column_pairs hmid hnil]
            · exact hone
          rw [hback]
          show q.column - 1 = 0
          rw [hone, Int.sub_self]

end Tracking

end CLex
