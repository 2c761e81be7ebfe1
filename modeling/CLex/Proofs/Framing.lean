import CLex.Proofs.Simulation.Leaf

namespace CLex

open Character Lexer Lines Reading

namespace Framing

/-- What has been read and what comes, up to the newline at the end of the page. -/
def Ends (cs rest : List UInt8) : Prop :=
  Unjoined (cs.reverse ++ rest) ∧ (cs.reverse ++ rest).getLast? = some newline

/-- What a page stands above, and the options of both lexers. -/
structure Frame where
  options : Options
  below : List Page

/-- A lexer of one page, and one that has the pages of a frame under it. The marks are related by
`M`. -/
structure Framed (M : Int × Int → Int × Int → Prop) (frame : Frame) (cs : List UInt8)
    (s t : Lexer Book) (p : Page) : Prop where
  left : s.stream.pages = [p]
  right : t.stream.pages = p :: frame.below
  joins : s.stream.joins = true ∧ t.stream.joins = true
  options : s.options = frame.options ∧ t.options = frame.options
  pending : s.pending = [[]] ∧ t.pending = [[]]
  mark : M s.mark t.mark
  ends : Ends cs p.rest
  column : cs.head? = some newline → p.column = 1

def Held (M : Int × Int → Int × Int → Prop) (frame : Frame) (cs : List UInt8)
    (s t : Lexer Book) : Prop :=
  ∃ p, Framed M frame cs s t p

/-- The page has come to its end, at the beginning of a line. -/
def Over (frame : Frame) (s t : Lexer Book) : Prop :=
  ∃ p, s.stream.pages = [p] ∧ t.stream.pages = p :: frame.below ∧
    (s.stream.joins = true ∧ t.stream.joins = true) ∧
    (s.options = frame.options ∧ t.options = frame.options) ∧
    (s.pending = [[]] ∧ t.pending = [[]]) ∧ s.mark = t.mark ∧ p.rest = [] ∧ p.column = 1

def After (frame : Frame) : Lexeme → Lexer Book → Lexer Book → Prop
  | .newline, s, t => Held Eq frame [] s t ∨ Over frame s t
  | .eof, _, _ => False
  | _, s, t => Held Eq frame [] s t

theorem Ends.rest_ne_nil {cs rest : List UInt8} (h : Ends cs rest)
    (hcs : cs.head? ≠ some newline) : rest ≠ [] := by
  rintro rfl
  rw [Ends, List.append_nil, List.getLast?_reverse] at h
  exact hcs h.2

theorem Ends.no_pair {cs rest : List UInt8} {c : UInt8} (h : Ends cs (c :: rest)) :
    ¬ (c = backslash ∧ rest.head? = some newline) := by
  have hchain := (List.isChain_append.mp h.1).2.1
  rw [List.isChain_cons] at hchain
  exact fun hc => hchain.1 newline (by simpa using hc.2) ⟨hc.1, rfl⟩

theorem Ends.drop (cs : List UInt8) {ds rest : List UInt8} (h : Ends (cs ++ ds) rest)
    (hne : cs.reverse ++ rest ≠ []) : Ends cs rest := by
  rw [Ends, List.reverse_append, List.append_assoc] at h
  refine ⟨(List.isChain_append.mp h.1).2.1, ?_⟩
  rw [List.getLast?_append_of_ne_nil _ hne] at h
  exact h.2

variable {M : Int × Int → Int × Int → Prop} {frame : Frame} {cs : List UInt8}
  {s t : Lexer Book} {p : Page}

theorem Framed.turn {p' : Page} {ds : List UInt8} (h : Framed M frame cs s t p)
    (hends : Ends ds p'.rest) (hcolumn : ds.head? = some newline → p'.column = 1) :
    Framed M frame ds (s.withPages [p']) (t.withPages (p' :: frame.below)) p' :=
  ⟨rfl, rfl, h.joins, h.options, h.pending, h.mark, hends, hcolumn⟩

theorem Framed.next (h : Framed M frame cs s t p) {c : UInt8} {rest : List UInt8}
    (hp : p.rest = c :: rest) :
    ∃ s' t', next? s = .ok (some c) s' ∧ next? t = .ok (some c) t' ∧
      Held M frame (c :: cs) s' t' := by
  have hpair : ¬ (c = backslash ∧ rest.head? = some newline) := (hp ▸ h.ends).no_pair
  refine ⟨_, _, next?_cons h.left hp fun _ => hpair, next?_cons h.right hp fun _ => hpair,
    { p with rest }.advance c, h.turn ?_ ?_⟩
  · have hends := h.ends
    rw [hp] at hends
    rw [Page.rest_advance, Ends, List.reverse_cons, List.append_assoc]
    exact hends
  · intro hc
    rw [Page.advance, if_pos (by simpa using hc)]

theorem Framed.mono {ds : List UInt8} (h : Framed M frame cs s t p) (hends : Ends ds p.rest)
    (hds : ds.head? ≠ some newline) : Held M frame ds s t :=
  ⟨p, h.left, h.right, h.joins, h.options, h.pending, h.mark, hends, fun hd => absurd hd hds⟩

theorem head?_ne_newline (plain : Plain cs) : cs.head? ≠ some newline := by
  cases cs with
  | nil => simp
  | cons c cs => simpa using (plain.2 c List.mem_cons_self).1

theorem Held.keep {c : UInt8} (h : Held M frame (c :: cs) s t) (hc : c ≠ newline) :
    Held M frame [] s t := by
  rcases h with ⟨p, h⟩
  have hne : p.rest ≠ [] := h.ends.rest_ne_nil (by simpa using hc)
  exact h.mono (Ends.drop [] h.ends (by simpa using hne)) (by simp)

theorem Held.unread {c : UInt8} (h : Held M frame (c :: cs) s t)
    (hcs : cs.head? ≠ some newline) :
    ∃ s' t', Lexer.unread c s = .ok () s' ∧ Lexer.unread c t = .ok () t' ∧ Held M frame cs s' t' ∧
      (c ≠ backslash → ∃ s'', next? s' = .ok (some c) s'') := by
  rcases h with ⟨p, h⟩
  have hends : Ends cs (p.putBack c).rest := by
    have hends := h.ends
    rw [Ends, List.reverse_cons, List.append_assoc] at hends
    rw [Page.rest_putBack]
    exact hends
  refine ⟨_, _, unread_pages h.left c, unread_pages h.right c,
    ⟨_, h.turn hends fun hhead => absurd hhead hcs⟩, fun hne => ?_⟩
  exact ⟨_, next?_cons rfl (Page.rest_putBack p c) fun _ hpair => hne hpair.1⟩

def reading (M : Int × Int → Int × Int → Prop) (frame : Frame) : Reading Book Book where
  held := Held M frame
  place := Eq
  failure := Eq
  lax := True
  next := by
    rintro cs s t ⟨p, h⟩ plain
    rcases List.exists_cons_of_ne_nil (h.ends.rest_ne_nil (head?_ne_newline plain)) with
      ⟨c, rest, hp⟩
    rcases h.next hp with ⟨s', t', hs, ht, h'⟩
    exact ⟨some c, s', t', hs, ht, h'⟩
  nextLine := by
    rintro cs s t ⟨p, h⟩
    cases hp : p.rest with
    | nil => exact Or.inl ⟨trivial, s, next?_end h.left hp⟩
    | cons c rest =>
        rcases h.next hp with ⟨s', t', hs, ht, p', h'⟩
        refine Or.inr ⟨some c, s', t', hs, ht, p', h'.left, h'.right, h'.joins, h'.options,
          h'.pending, h'.mark, Ends.drop [c] h'.ends (by simp), h'.column⟩
  keep := Held.keep
  unread := fun h plain => h.unread (head?_ne_newline plain)
  here := by
    rintro cs s t ⟨p, h⟩
    rw [location_pages h.left, location_pages h.right]
  back := fun h count => by rw [h]
  located := fun h cause => by rw [h]

theorem Held.next (h : Held M frame cs s t) (hcs : cs.head? ≠ some newline) :
    ∃ c s' t', next? s = .ok (some c) s' ∧ next? t = .ok (some c) t' ∧
      Held M frame (c :: cs) s' t' := by
  rcases h with ⟨p, h⟩
  rcases List.exists_cons_of_ne_nil (h.ends.rest_ne_nil hcs) with ⟨c, rest, hp⟩
  exact ⟨c, h.next hp⟩

theorem Held.next_ne_none {s' : Lexer Book} (h : Held M frame [] s t)
    (hs : next? s = .ok none s') : False := by
  rcases h.next (by simp) with ⟨c, s₁, t₁, hs₁, -⟩
  rw [hs₁] at hs
  cases hs

theorem word_retreat {s' t' : Lexer Book} (h : Held M frame [backslash] s t)
    (hs : peekIs (fun c => isUniversalMark c.toNat) s = .ok false s')
    (ht : peekIs (fun c => isUniversalMark c.toNat) t = .ok false t') :
    ∃ s'' t'', Lexer.unread backslash s' = .ok () s'' ∧ Lexer.unread backslash t' = .ok () t'' ∧
      Held M frame [] s'' t'' := by
  refine retreat (R := reading M frame) ?_ hs ht
  rcases h.next (by decide) with ⟨c, s₁, t₁, hs₁, ht₁, h₁⟩
  rcases h₁.unread (by decide) with ⟨s₂, t₂, hs₂, ht₂, h₂, -⟩
  exact ⟨some c, s₁, t₁, hs₁, ht₁, s₂, t₂, hs₂, ht₂, h₂⟩

theorem After.finish {lexeme : Lexeme} (h : After frame lexeme s t) (encoding : Encoding) :
    ∃ a s' t', Lexer.finish lexeme encoding s = .ok a s' ∧
      Lexer.finish lexeme encoding t = .ok a t' ∧ After frame lexeme s' t' := by
  have alike : ∀ {p : Page}, s.stream.pages = [p] → t.stream.pages = p :: frame.below →
      s.mark = t.mark → ∃ a, Lexer.finish lexeme encoding s =
          .ok a (s.withPages [{ p with tokens := p.tokens + 1 }]) ∧
        Lexer.finish lexeme encoding t =
          .ok a (t.withPages ({ p with tokens := p.tokens + 1 } :: frame.below)) := by
    intro p hleft hright hmark
    rw [finish_pages hleft, finish_pages hright, hmark]
    exact ⟨_, rfl, rfl⟩
  have held : Held Eq frame [] s t → ∃ a s' t', Lexer.finish lexeme encoding s = .ok a s' ∧
      Lexer.finish lexeme encoding t = .ok a t' ∧ Held Eq frame [] s' t' := by
    rintro ⟨p, h⟩
    rcases alike h.left h.right h.mark with ⟨a, hs, ht⟩
    exact ⟨a, _, _, hs, ht, _, h.turn h.ends (by simp)⟩
  cases lexeme with
  | newline =>
      rcases h with h | ⟨p, hleft, hright, hjoins, hoptions, hpending, hmark, hrest, hcolumn⟩
      · rcases held h with ⟨a, s', t', hs, ht, h'⟩
        exact ⟨a, s', t', hs, ht, Or.inl h'⟩
      · rcases alike hleft hright hmark with ⟨a, hs, ht⟩
        exact ⟨a, _, _, hs, ht, Or.inr ⟨_, rfl, rfl, hjoins, hoptions, hpending, hmark, hrest,
          hcolumn⟩⟩
  | eof => exact h.elim
  | _ => exact held h

def simulation (frame : Frame) : Simulation Book Book where
  toReading := reading Eq frame
  word := Held Eq frame []
  after := After frame
  token := Eq
  failure_refl := fun _ => rfl
  warn := by
    intro cs l l' hl text
    refine same_warn_of_options ?_ ?_ (fun s t h => ⟨cs, h⟩) hl text
    · rintro s t ⟨p, h⟩
      exact h.options.1.trans h.options.2.symm
    · rintro s t notes notes' collector collector' ⟨p, h⟩
      exact ⟨p, h.left, h.right, h.joins, h.options, h.pending, h.mark, h.ends, h.column⟩
  marked := by
    rintro cs s t ⟨p, h⟩
    rw [marked_pages h.left, marked_pages h.right, h.mark]
    exact ⟨rfl, p, h⟩
  finish := by
    intro lexeme encoding s t h
    rcases After.finish h encoding with ⟨a, s', t', hs, ht, h'⟩
    rw [hs, ht]
    exact ⟨rfl, h'⟩
  word_none := fun h hs _ => (h.next_ne_none hs).elim
  word_unread := fun _ => same_unread plain_nil
  word_retreat := word_retreat
  after_word := fun h _ _ => h
  after_held := by
    intro s t h lexeme hend _
    cases lexeme with
    | newline => exact Or.inl h
    | eof => exact absurd rfl hend
    | _ => exact h
  after_end := fun h hs _ => (h.next_ne_none hs).elim
  after_newline := by
    rintro s t ⟨p, h⟩
    cases hp : p.rest with
    | nil =>
        exact Or.inr ⟨p, h.left, h.right, h.joins, h.options, h.pending, h.mark, hp,
          h.column rfl⟩
    | cons c rest =>
        exact Or.inl (h.mono (Ends.drop [] h.ends (by simp [hp])) (by simp))

end Framing

end CLex
