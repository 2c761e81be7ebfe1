import CLex.Proofs.Simulation.Leaf

/-!
Two lexers that stand at the same character of one text, with different readings behind them. A
lexer knows the line and the column of the character that comes next, unless it has looked at a
newline and put it back: the column is one then, and it is one less if another character has been
put back before the newline. No `#` is put back in this way, so its place is always known.
-/

namespace CLex

open Character Lexer Lines Reading

namespace Placing

structure Sheet where
  text : List UInt8
  unjoined : Unjoined text
  options : Options

/-- A newline comes next, or is the next character but one. No more than one character stands
before it, also of those that may be put back, and that is no `#`. -/
def Near (cs rest : List UInt8) : Prop :=
  ∃ w tail, rest = w ++ newline :: tail ∧ (cs ++ w).length ≤ 1 ∧ byte '#' ∉ cs ++ w

/-- A page of the text, of which `read` has been read. The characters `cs` are the latest ones, the
last one first, and may be put back. -/
structure Placed (text read cs : List UInt8) (p : Page) : Prop where
  text_eq : text = read ++ p.rest
  latest : cs.reverse <:+ read
  line : p.line = (placeAfter read).1
  column : p.column = (placeAfter read).2 ∨ Near cs p.rest

/-- A lexer that stands in the text. -/
structure Stands (sheet : Sheet) (read cs : List UInt8) (s : Lexer Book) (p : Page) : Prop where
  pages : s.stream.pages = [p]
  joins : s.stream.joins = true
  options : s.options = sheet.options
  pending : s.pending = [[]]
  placed : Placed sheet.text read cs p

variable {sheet : Sheet} {text read cs ds rest : List UInt8} {s t : Lexer Book} {p : Page} {c : UInt8}

theorem Near.mono (h : Near ds rest) (hcs : cs <+: ds) : Near cs rest := by
  rcases h with ⟨w, tail, hrest, hlen, hhash⟩
  rcases hcs with ⟨more, rfl⟩
  refine ⟨w, tail, hrest, ?_, ?_⟩
  · simp only [List.length_append] at hlen ⊢
    omega
  · simp only [List.mem_append, not_or] at hhash ⊢
    exact ⟨hhash.1.1, hhash.2⟩

theorem Near.cons (h : Near cs (c :: rest)) (hc : c ≠ newline) : Near (c :: cs) rest := by
  rcases h with ⟨w, tail, hrest, hlen, hhash⟩
  cases w with
  | nil => exact absurd (List.cons.inj hrest).1 hc
  | cons d w =>
      rcases List.cons.inj hrest with ⟨rfl, rfl⟩
      refine ⟨w, tail, rfl, ?_, ?_⟩
      · simp only [List.length_append, List.length_cons] at hlen ⊢
        omega
      · simp only [List.mem_append, List.mem_cons, not_or] at hhash ⊢
        exact ⟨⟨hhash.2.1, hhash.1⟩, hhash.2.2⟩

theorem Near.putBack (h : Near (c :: cs) rest) : Near cs (c :: rest) := by
  rcases h with ⟨w, tail, rfl, hlen, hhash⟩
  refine ⟨c :: w, tail, rfl, ?_, ?_⟩
  · simp only [List.length_append, List.length_cons] at hlen ⊢
    omega
  · simp only [List.mem_append, List.mem_cons, not_or] at hhash ⊢
    exact ⟨hhash.1.2, hhash.1.1, hhash.2⟩

theorem not_near_hash : ¬ Near cs (byte '#' :: rest) := by
  rintro ⟨w, tail, hrest, -, hhash⟩
  cases w with
  | nil => exact absurd (List.cons.inj hrest).1 (by decide)
  | cons d w =>
      rcases List.cons.inj hrest with ⟨rfl, -⟩
      simp at hhash

theorem Placed.mono (h : Placed text read ds p) (hcs : cs <+: ds) : Placed text read cs p := by
  refine ⟨h.text_eq, ?_, h.line, h.column.imp_right fun hnear => hnear.mono hcs⟩
  rcases hcs with ⟨more, rfl⟩
  have hlatest := h.latest
  rw [List.reverse_append] at hlatest
  exact (List.suffix_append _ _).trans hlatest

theorem Placed.advance (h : Placed text read cs p) (hp : p.rest = c :: rest) :
    Placed text (read ++ [c]) (c :: cs) ({ p with rest }.advance c) := by
  have htext := h.text_eq
  rw [hp] at htext
  refine ⟨by rw [Page.rest_advance, List.append_assoc]; exact htext, ?_, ?_, ?_⟩
  · rw [List.reverse_cons]
    rcases h.latest with ⟨before, rfl⟩
    exact ⟨before, (List.append_assoc _ _ _).symm⟩
  · rw [placeAfter_snoc, Lines.pass, Page.advance]
    split
    · simp [h.line]
    · simp [h.line]
  · rw [placeAfter_snoc, Lines.pass, Page.rest_advance, Page.advance]
    split
    · exact Or.inl rfl
    · next hc =>
      refine h.column.imp (fun hcolumn => ?_) fun hnear => (hp ▸ hnear).cons hc
      simp [hcolumn]

theorem Placed.putBack (h : Placed text read (c :: cs) p) (hcs : cs.length ≤ 1 ∧ byte '#' ∉ cs) :
    ∃ before, read = before ++ [c] ∧ Placed text before cs (p.putBack c) := by
  rcases h.latest with ⟨before, hread⟩
  rw [List.reverse_cons, ← List.append_assoc] at hread
  subst hread
  have hline := h.line
  have hcolumn := h.column
  rw [placeAfter_snoc, Lines.pass] at hline hcolumn
  refine ⟨_, rfl, ?_, List.suffix_append _ _, ?_, ?_⟩
  · rw [Page.rest_putBack, h.text_eq, List.append_assoc]
    rfl
  · unfold Page.putBack
    split
    · next hc =>
      rw [if_pos hc] at hline
      simp [hline]
    · next hc =>
      rw [if_neg hc] at hline
      exact hline
  · rw [Page.rest_putBack]
    by_cases hc : c = newline
    · exact Or.inr ⟨[], p.rest, by rw [hc]; rfl, by simpa using hcs⟩
    · rw [if_neg hc] at hcolumn
      refine hcolumn.imp (fun hcolumn => ?_) Near.putBack
      simp [Page.putBack, hc, hcolumn]

theorem Stands.settled (h : Stands sheet read cs s p) : s.Settled p := by
  intro _
  have hchain := sheet.unjoined
  rw [h.placed.text_eq] at hchain
  exact (List.isChain_append.mp hchain).2.1

theorem Stands.turn {p' : Page} {read' : List UInt8} (h : Stands sheet read cs s p)
    (placed : Placed sheet.text read' ds p') : Stands sheet read' ds (s.withPages [p']) p' :=
  ⟨rfl, h.joins, h.options, h.pending, placed⟩

theorem Stands.mono (h : Stands sheet read ds s p) (hcs : cs <+: ds) :
    Stands sheet read cs s p :=
  ⟨h.pages, h.joins, h.options, h.pending, h.placed.mono hcs⟩

theorem Stands.next (h : Stands sheet read cs s p) (hp : p.rest = c :: rest) :
    next? s = .ok (some c) (s.withPages [{ p with rest }.advance c]) ∧
      Stands sheet (read ++ [c]) (c :: cs) (s.withPages [{ p with rest }.advance c])
        ({ p with rest }.advance c) :=
  ⟨next?_settled h.pages h.settled hp, h.turn (h.placed.advance hp)⟩

theorem Stands.unread (h : Stands sheet read (c :: cs) s p)
    (hcs : cs.length ≤ 1 ∧ byte '#' ∉ cs) :
    ∃ before, read = before ++ [c] ∧ Lexer.unread c s = .ok () (s.withPages [p.putBack c]) ∧
      Stands sheet before cs (s.withPages [p.putBack c]) (p.putBack c) := by
  rcases h.placed.putBack hcs with ⟨before, hread, placed⟩
  exact ⟨before, hread, unread_pages h.pages c, h.turn placed⟩

/-- Two lexers stand at the same character, with these marks. -/
def Level (sheet : Sheet) (marks : (Int × Int) × (Int × Int)) (cs : List UInt8)
    (s t : Lexer Book) : Prop :=
  ∃ read p q, Stands sheet read cs s p ∧ Stands sheet read cs t q ∧ s.mark = marks.1 ∧
    t.mark = marks.2

variable {marks : (Int × Int) × (Int × Int)}

theorem Stands.rest_eq {q : Page} (h : Stands sheet read cs s p) (h' : Stands sheet read ds t q) :
    p.rest = q.rest :=
  List.append_cancel_left (h.placed.text_eq.symm.trans h'.placed.text_eq)

theorem Level.mono (h : Level sheet marks ds s t) (hcs : cs <+: ds) :
    Level sheet marks cs s t := by
  rcases h with ⟨read, p, q, hs, ht, hmarks⟩
  exact ⟨read, p, q, hs.mono hcs, ht.mono hcs, hmarks⟩

theorem Level.next (h : Level sheet marks cs s t) :
    ∃ c s' t', next? s = .ok c s' ∧ next? t = .ok c t' ∧
      c.elim (Level sheet marks cs s' t') fun c => Level sheet marks (c :: cs) s' t' := by
  rcases h with ⟨read, p, q, hs, ht, hmarks⟩
  have hq := hs.rest_eq ht
  cases hp : p.rest with
  | nil =>
      exact ⟨none, s, t, next?_end hs.pages hp, next?_end ht.pages (hq ▸ hp), read, p, q, hs, ht,
        hmarks⟩
  | cons c rest =>
      rcases hs.next hp with ⟨hs₁, hs'⟩
      rcases ht.next (hq ▸ hp) with ⟨ht₁, ht'⟩
      exact ⟨some c, _, _, hs₁, ht₁, read ++ [c], _, _, hs', ht', hmarks⟩

theorem Level.unread (h : Level sheet marks (c :: cs) s t)
    (hcs : cs.length ≤ 1 ∧ byte '#' ∉ cs) :
    ∃ s' t', Lexer.unread c s = .ok () s' ∧ Lexer.unread c t = .ok () t' ∧
      Level sheet marks cs s' t' ∧ ∃ s'', next? s' = .ok (some c) s'' := by
  rcases h with ⟨read, p, q, hs, ht, hmarks⟩
  rcases hs.unread hcs with ⟨before, rfl, hs₁, hs'⟩
  rcases ht.unread hcs with ⟨before', hbefore, ht₁, ht'⟩
  rcases List.append_inj' hbefore rfl with ⟨rfl, -⟩
  exact ⟨_, _, hs₁, ht₁, ⟨before, _, _, hs', ht', hmarks⟩, _, (hs'.next (Page.rest_putBack p c)).1⟩

theorem hash_notMem (plain : Plain cs) : byte '#' ∉ cs :=
  fun h => (plain.2 _ h).2.2 rfl

def reading (sheet : Sheet) (marks : (Int × Int) × (Int × Int)) : Reading Book Book where
  held := Level sheet marks
  place := fun _ _ => True
  failure := fun _ _ => True
  lax := False
  next := fun h _ => h.next
  nextLine := by
    intro cs s t h
    rcases h.next with ⟨c, s', t', hs, ht, h'⟩
    refine Or.inr ⟨c, s', t', hs, ht, ?_⟩
    cases c with
    | none => exact Level.mono h' List.nil_prefix
    | some c => exact Level.mono h' ⟨_, rfl⟩
  keep := fun h _ => h.mono List.nil_prefix
  unread := by
    intro c cs s t h plain
    rcases h.unread ⟨plain.1, hash_notMem plain⟩ with ⟨s', t', hs, ht, h', hnext⟩
    exact ⟨s', t', hs, ht, h', fun _ => hnext⟩
  here := fun _ => trivial
  back := fun _ _ => trivial
  located := fun _ _ => trivial

theorem word_retreat {s' t' : Lexer Book} (h : Level sheet marks [backslash] s t)
    (hs : peekIs (fun c => isUniversalMark c.toNat) s = .ok false s')
    (ht : peekIs (fun c => isUniversalMark c.toNat) t = .ok false t') :
    ∃ s'' t'', Lexer.unread backslash s' = .ok () s'' ∧ Lexer.unread backslash t' = .ok () t'' ∧
      Level sheet marks [] s'' t'' := by
  refine retreat (R := reading sheet marks) ?_ hs ht
  rcases h.next with ⟨c, s₁, t₁, hs₁, ht₁, h₁⟩
  refine ⟨c, s₁, t₁, hs₁, ht₁, ?_⟩
  cases c with
  | none => exact h₁
  | some c =>
      rcases Level.unread h₁ (by decide) with ⟨s₂, t₂, hs₂, ht₂, h₂, -⟩
      exact ⟨s₂, t₂, hs₂, ht₂, h₂⟩

/-- Lexing one text in two ways. The tokens begin at the marks. -/
def simulation (sheet : Sheet) (marks : (Int × Int) × (Int × Int)) : Simulation Book Book where
  toReading := reading sheet marks
  word := Level sheet marks []
  after := fun _ => Level sheet marks []
  token := fun a b => (a.line, a.column) = marks.1 ∧ (b.line, b.column) = marks.2
  failure_refl := fun _ => trivial
  warn := by
    intro cs l l' hl text
    refine same_warn_of_options ?_ ?_ (fun s t h => ⟨cs, h⟩) hl text
    · rintro s t ⟨read, p, q, hs, ht, -⟩
      exact hs.options.trans ht.options.symm
    · rintro s t notes notes' collector collector' ⟨read, p, q, hs, ht, hmarks⟩
      exact ⟨read, p, q, ⟨hs.pages, hs.joins, hs.options, hs.pending, hs.placed⟩,
        ⟨ht.pages, ht.joins, ht.options, ht.pending, ht.placed⟩, hmarks⟩
  marked := by
    rintro cs s t ⟨read, p, q, hs, ht, hmarks⟩
    rw [marked_pages hs.pages, marked_pages ht.pages]
    exact ⟨trivial, read, p, q, hs, ht, hmarks⟩
  finish := by
    rintro lexeme encoding s t ⟨read, p, q, hs, ht, hmarks⟩
    rw [finish_pages hs.pages, finish_pages ht.pages]
    have count : ∀ {p : Page}, Placed sheet.text read [] p →
        Placed sheet.text read [] { p with tokens := p.tokens + 1 } :=
      fun h => ⟨h.text_eq, h.latest, h.line, h.column⟩
    exact ⟨hmarks, read, _, _, hs.turn (count hs.placed), ht.turn (count ht.placed), hmarks⟩
  word_none := next_none (R := reading sheet marks)
  word_unread := fun _ => same_unread plain_nil
  word_retreat := word_retreat
  after_word := fun h _ _ => h
  after_held := fun h _ _ _ => h
  after_end := next_none (R := reading sheet marks)
  after_newline := fun h => h.mono List.nil_prefix

end Placing

end CLex
