import CLex.Proofs.Lexemes
import CLex.Proofs.Placing
import CLex.Proofs.Writing

namespace CLex.Placing

open Character Lexer Lines Reading

variable {sheet : Sheet} {read blanks w cs : List UInt8} {s t s' t' : Lexer Book}
  {p q p' first : Page} {a b : Token} {c : UInt8}

/-- The token `a` is read on the page `p`: `blanks` are passed over, and from the page `first` on the
token takes the characters `w`. -/
structure Taken (sheet : Sheet) (read blanks w : List UInt8) (s : Lexer Book) (a : Token)
    (s' : Lexer Book) (p first p' : Page) : Prop where
  start : Stands sheet read [] s p
  begins : ∃ spaced s₁, skipBlanks s = .ok spaced s₁ ∧ Stands sheet (read ++ blanks) [] s₁ first
  stop : Stands sheet (read ++ blanks ++ w) [] s' p'
  startsLine : a.startsLine = (p.column == 1)
  line : a.line = first.line
  column : a.column = first.column
  written : first.rest = [] ∧ a.lexeme = .eof ∨ ∃ c text, first.rest = c :: text ∧
    Fits c a.lexeme ∧ Written c text a.lexeme p'.rest

theorem Stands.weight_eq (h : Stands sheet read cs s p) : s.weight = p.rest.length := by
  rw [Lexer.weight, h.pending, show CharStream.weight s.stream = s.stream.weight from rfl,
    Book.weight, h.pages]
  simp

theorem Stands.grows {ds read' : List UInt8} (h : Stands sheet read cs s p)
    (h' : Stands sheet read' ds s' p') (hle : s'.weight ≤ s.weight) : ∃ w, read' = read ++ w := by
  rw [h.weight_eq, h'.weight_eq] at hle
  have htext := h.placed.text_eq
  have htext' := h'.placed.text_eq
  have hlen := congrArg List.length (htext.symm.trans htext')
  simp only [List.length_append] at hlen
  rcases List.prefix_of_prefix_length_le ⟨_, htext.symm⟩ ⟨_, htext'.symm⟩ (by omega) with ⟨w, hw⟩
  exact ⟨w, hw.symm⟩

theorem Stands.opens (h : Stands sheet read cs s p) : Opens p.rest s := by
  refine ⟨p, h.pages, rfl, ?_⟩
  have hchain := sheet.unjoined
  rw [h.placed.text_eq] at hchain
  exact (List.isChain_append.mp hchain).2.1

theorem Stands.page_eq (h : Stands sheet read cs s p) (hopens : Opens w s) : p.rest = w := by
  rcases hopens with ⟨p', hpages, rfl, -⟩
  rw [h.pages] at hpages
  rw [(List.cons.inj hpages).1]

theorem blanks_level {spaced : Bool} {s₁ : Lexer Book} (hs : Stands sheet read [] s p)
    (ht : Stands sheet read [] t q) (h : skipBlanks s = .ok spaced s₁) :
    ∃ blanks p₁ t₁ q₁, skipBlanks t = .ok spaced t₁ ∧ Stands sheet (read ++ blanks) [] s₁ p₁ ∧
      Stands sheet (read ++ blanks) [] t₁ q₁ := by
  have hrun := same_skipBlanks (R := reading sheet (s.mark, t.mark)) s t
    ⟨read, p, q, hs, ht, rfl, rfl⟩
  rw [h] at hrun
  rcases hrun.exists_ok with ⟨spaced', t₁, hb, rfl, read', p₁, q₁, hs₁, ht₁, -⟩
  rcases hs.grows hs₁ (keeps_skipBlanks _ _ _ h) with ⟨blanks, rfl⟩
  exact ⟨blanks, p₁, t₁, q₁, hb, hs₁, ht₁⟩

theorem token_level (hs : Stands sheet read [] s p) (ht : Stands sheet read [] t q)
    (h : Lexer.token s = .ok a s') :
    ∃ w p' b t' q', Lexer.token t = .ok b t' ∧ b.lexeme = a.lexeme ∧
      Stands sheet (read ++ w) [] s' p' ∧ Stands sheet (read ++ w) [] t' q' ∧
      ((a.line, a.column) = (p.line, p.column) ∧ (b.line, b.column) = (q.line, q.column)) ∧
      (p.rest = [] ∧ a.lexeme = .eof ∨ ∃ c text, p.rest = c :: text ∧ Fits c a.lexeme ∧
        Written c text a.lexeme p'.rest) := by
  -- That the first lexer has moved on is known by its weight; the second one stands where it does.
  have hle : s'.weight ≤ s.weight := (weight_token h).1
  have mark : ∀ {s : Lexer Book} {p : Page}, Stands sheet read [] s p →
      Stands sheet read [] { s with mark := (p.line, p.column) } p :=
    fun h => ⟨h.pages, h.joins, h.options, h.pending, h.placed⟩
  let marks := ((p.line, p.column), (q.line, q.column))
  have hrest := hs.rest_eq ht
  rw [Lexer.token, LexM.bind_of_ok (setMark_pages hs.pages)] at h
  rw [Lexer.token, LexM.bind_of_ok (setMark_pages ht.pages)]
  cases hp : p.rest with
  | nil =>
      have hrun := Simulation.runs_finish (S := simulation sheet marks) .eof .plain _ _
        ⟨read, p, q, mark hs, mark ht, rfl, rfl⟩
      rw [LexM.bind_of_ok (next?_end (mark hs).pages hp)] at h
      rw [LexM.bind_of_ok (next?_end (mark ht).pages (hrest ▸ hp))]
      dsimp only at h ⊢
      rw [h] at hrun
      rcases hrun.exists_ok with ⟨b, t', hb, hmarks, hlexeme, read', p', q', hs', ht', -⟩
      rcases hs.grows hs' hle with ⟨w, rfl⟩
      exact ⟨w, p', b, t', q', hb, hlexeme.symm, hs', ht', hmarks,
        Or.inl ⟨rfl, lexeme_finish h⟩⟩
  | cons c text =>
      rcases (mark hs).next hp with ⟨hnext, hs₂⟩
      rcases (mark ht).next (hrest ▸ hp) with ⟨hnext', ht₂⟩
      have hrun := Simulation.runs_tokenFrom (S := simulation sheet marks) c _ _
        ⟨_, _, _, hs₂, ht₂, rfl, rfl⟩
      rw [LexM.bind_of_ok hnext] at h
      rw [LexM.bind_of_ok hnext']
      dsimp only at h ⊢
      rw [h] at hrun
      rcases hrun.exists_ok with ⟨b, t', hb, hmarks, hlexeme, read', p', q', hs', ht', -⟩
      rcases hs.grows hs' hle with ⟨w, rfl⟩
      rcases leaves_tokenFrom c _ _ (Page.rest_advance _ _) hs₂.opens a s' h with
        ⟨rest, written, hopens⟩
      rw [← hs'.page_eq hopens] at written
      exact ⟨w, p', b, t', q', hb, hlexeme.symm, hs', ht', hmarks,
        Or.inr ⟨c, text, rfl, begins_tokenFrom c _ _ _ h, written⟩⟩

/-- Two lexers at the same character read the same token. -/
theorem nextToken_level (hs : Stands sheet read [] s p) (ht : Stands sheet read [] t q)
    (h : nextToken s = .ok a s') :
    ∃ blanks w b t' first first' p' q', Taken sheet read blanks w s a s' p first p' ∧
      nextToken t = .ok b t' ∧ b.lexeme = a.lexeme ∧
      Taken sheet read blanks w t b t' q first' q' := by
  rw [nextToken, hs.pending] at h
  dsimp only at h
  rw [freshToken, LexM.bind_of_ok (needSource_pages hs.pages),
    LexM.bind_of_ok (isAtLineStart_pages hs.pages)] at h
  rcases LexM.bind_eq_ok.mp h with ⟨spaced, s₁, hblanks, h⟩
  rcases LexM.bind_eq_ok.mp h with ⟨a₁, s₂, htoken, h⟩
  rcases LexM.pure_eq_ok.mp h with ⟨rfl, rfl⟩
  rcases blanks_level hs ht hblanks with ⟨blanks, first, t₁, first', hblanks', hs₁, ht₁⟩
  rcases token_level hs₁ ht₁ htoken with
    ⟨w, p', b, t', q', htoken', hlexeme, hs', ht', ⟨hmark, hmark'⟩, written⟩
  have hnext : nextToken t =
      .ok { b with spaced, startsLine := q.column == 1 } t' := by
    rw [nextToken, ht.pending]
    dsimp only
    rw [freshToken, LexM.bind_of_ok (needSource_pages ht.pages),
      LexM.bind_of_ok (isAtLineStart_pages ht.pages), LexM.bind_of_ok hblanks',
      LexM.bind_of_ok htoken']
    rfl
  refine ⟨blanks, w, _, t', first, first', p', q', ?_, hnext, hlexeme, ?_⟩
  · exact ⟨hs, ⟨spaced, s₁, hblanks, hs₁⟩, hs', rfl, (Prod.ext_iff.mp hmark).1,
      (Prod.ext_iff.mp hmark).2, written⟩
  · refine ⟨ht, ⟨spaced, t₁, hblanks', ht₁⟩, ht', rfl, (Prod.ext_iff.mp hmark').1,
      (Prod.ext_iff.mp hmark').2, ?_⟩
    rw [← hs₁.rest_eq ht₁, ← hs'.rest_eq ht', hlexeme]
    exact written

theorem Taken.rest_eq (h : Taken sheet read blanks w s a s' p first p') :
    p.rest = blanks ++ first.rest := by
  rcases h.begins with ⟨spaced, s₁, -, hs₁⟩
  have htext := h.start.placed.text_eq.symm.trans hs₁.placed.text_eq
  rw [List.append_assoc] at htext
  exact List.append_cancel_left htext

theorem Taken.first_eq (h : Taken sheet read blanks w s a s' p first p') :
    first.rest = w ++ p'.rest := by
  rcases h.begins with ⟨spaced, s₁, -, hs₁⟩
  have htext := hs₁.placed.text_eq.symm.trans h.stop.placed.text_eq
  rw [List.append_assoc (read ++ blanks) w] at htext
  exact List.append_cancel_left htext

theorem Taken.ended (h : Taken sheet read blanks w s a s' p first p') (hend : a.lexeme = .eof) :
    first.rest = [] ∧ p'.rest = [] := by
  have hfirst := h.first_eq
  rcases h.written with ⟨hrest, -⟩ | ⟨c, text, -, fits, -⟩
  · rw [hrest] at hfirst
    exact ⟨hrest, (List.append_eq_nil_iff.mp hfirst.symm).2⟩
  · rw [hend] at fits
    exact fits.elim

theorem Taken.begun (h : Taken sheet read blanks w s a s' p first p') (hne : a.lexeme ≠ .eof) :
    ∃ c text, first.rest = c :: text ∧ Written c text a.lexeme p'.rest := by
  rcases h.written with ⟨-, hend⟩ | ⟨c, text, hfirst, -, written⟩
  · exact absurd hend hne
  · exact ⟨c, text, hfirst, written⟩

theorem Taken.newline (h : Taken sheet read blanks w s a s' p first p')
    (hlexeme : a.lexeme = .newline) :
    w = [Character.newline] ∧ first.rest = Character.newline :: p'.rest := by
  have hfirst : first.rest = [Character.newline] ++ p'.rest := by
    rcases h.written with ⟨-, hend⟩ | ⟨c, text, hfirst, fits, written⟩
    · rw [hlexeme] at hend
      cases hend
    · rw [hlexeme] at fits written
      have hc : c = Character.newline := fits
      rw [hfirst, hc]
      cases written with
      | newline => rfl
      | word hfree => exact absurd hfree (by rw [hc]; decide)
      | literal hliteral => simp at hliteral
  exact ⟨(List.append_cancel_right (hfirst.symm.trans h.first_eq)).symm, hfirst⟩

theorem Near.newline_of {c d : UInt8} {rest : List UInt8} (h : Near [] (c :: d :: rest)) :
    c = newline ∨ d = newline := by
  rcases h with ⟨w, tail, hrest, hlen, -⟩
  match w with
  | [] => exact Or.inl (List.cons.inj hrest).1
  | [_] => exact Or.inr (List.cons.inj (List.cons.inj hrest).2).1
  | _ :: _ :: _ => simp at hlen

theorem leaves_skipBlanks_near : Leaves (Near []) skipBlanks (fun _ => Near []) := by
  refine leaves_loop (I := fun _ => Near []) (Q := fun _ => Near []) (fun skipped => ?_) false
  refine leaves_bind (Q := fun _ => Near []) ?_ fun skipped => ?_
  · refine leaves_unjoined (leaves_bind leaves_next fun c => ?_)
    cases c with
    | none => exact leaves_pure fun rest h => h.2.2
    | some c =>
        have put : Leaves (fun rest => Unjoined (c :: rest) ∧ Near [] (c :: rest))
            (do unread c; pure false) (fun _ => Near []) :=
          leaves_bind leaves_unread fun _ => leaves_pure fun _ h => h
        dsimp only
        split
        · next hblank =>
          refine leaves_pure fun rest h => (h.2.cons ?_).mono List.nil_prefix
          rintro rfl
          exact absurd hblank (by decide)
        · split
          · next hc =>
            subst hc
            refine leaves_bind (leaves_skipIf (byte '*')) fun star => ?_
            cases star with
            | true => exact fun rest lx h => absurd h.2.newline_of (by decide)
            | false =>
                refine leaves_bind (leaves_skipIf (byte '/')) fun slash => ?_
                cases slash with
                | true => exact fun rest lx h => absurd h.2.newline_of (by decide)
                | false => exact put
          · exact put
  · cases skipped with
    | true => exact leaves_pure fun _ h => h
    | false => exact leaves_pure fun _ h => h

theorem Taken.column_of_hash (h : Taken sheet read blanks w s a s' p first p') {text : List UInt8}
    (hhash : first.rest = byte '#' :: text) :
    p.column = (placeAfter read).2 ∧ first.column = (placeAfter (read ++ blanks)).2 := by
  rcases h.begins with ⟨spaced, s₁, hblanks, hs₁⟩
  constructor
  · rcases h.start.placed.column with hcolumn | hnear
    · exact hcolumn
    · rcases leaves_skipBlanks_near p.rest s hnear h.start.opens spaced s₁ hblanks with
        ⟨rest, hnear, hopens⟩
      rw [← hs₁.page_eq hopens, hhash] at hnear
      exact absurd hnear not_near_hash
  · rcases hs₁.placed.column with hcolumn | hnear
    · exact hcolumn
    · rw [hhash] at hnear
      exact absurd hnear not_near_hash

theorem Taken.blanks_eq (h : Taken sheet read blanks w s a s' p first p') {text : List UInt8}
    (hp : p.rest = byte '#' :: text) : blanks = [] ∧ first.rest = byte '#' :: text := by
  have hrest := h.rest_eq
  rcases h.begins with ⟨spaced, s₁, hblanks, hs₁⟩
  rw [skipBlanks_cons h.start.pages h.start.settled hp (by decide) (by decide)] at hblanks
  cases hblanks
  have hpages := hs₁.pages
  rw [pages_withPages, List.cons.injEq] at hpages
  rw [← hpages.1, Page.rest_look] at hrest ⊢
  exact ⟨List.self_eq_append_left.mp hrest, hp⟩

theorem Taken.hash (h : Taken sheet read blanks w s a s' p first p') {text : List UInt8}
    (hfirst : first.rest = byte '#' :: text) :
    a.lexeme = .punctuator .hash ∧ w = [byte '#'] ∧ p'.rest = text ∨
      a.lexeme = .punctuator .hashHash ∧ w = [byte '#', byte '#'] ∧
        text = byte '#' :: p'.rest := by
  have htake := h.first_eq
  rw [hfirst] at htake
  rcases h.written with ⟨hrest, -⟩ | ⟨c, text', hfirst', -, written⟩
  · rw [hrest] at hfirst
    cases hfirst
  · rw [hfirst] at hfirst'
    rcases List.cons.inj hfirst' with ⟨rfl, rfl⟩
    rcases written_hash written with ⟨hlexeme, hrest⟩ | ⟨hlexeme, hrest⟩
    · refine Or.inl ⟨hlexeme, ?_, hrest⟩
      rw [hrest] at htake
      have hw : [byte '#'] ++ text = w ++ text := htake
      exact (List.append_cancel_right hw).symm
    · refine Or.inr ⟨hlexeme, ?_, hrest⟩
      rw [hrest] at htake
      have hw : [byte '#', byte '#'] ++ p'.rest = w ++ p'.rest := htake
      exact (List.append_cancel_right hw).symm

end CLex.Placing
