import CLex.Proofs.Advancing
import CLex.Proofs.Leading
import CLex.Proofs.Position
import CLex.Proofs.Splicing

namespace CLex

open Character Lexer Lines Reading

namespace Page

/-- The same characters are to come, and the columns are the same, or neither is among the first
`n + 1`. -/
def Level (n : Nat) (p q : Page) : Prop :=
  p.rest = q.rest ∧ (p.column = q.column ∨ 2 + (n : Int) ≤ p.column ∧ 2 + (n : Int) ≤ q.column)

variable {p q : Page} {m n : Nat} {c : UInt8}

theorem Level.mono (h : Level n p q) (hle : m ≤ n) : Level m p q :=
  ⟨h.1, h.2.imp_right fun h => by omega⟩

theorem Level.advance (h : Level n p q) (rest : List UInt8) (c : UInt8) :
    Level (n + 1) ({ p with rest }.advance c) ({ q with rest }.advance c) := by
  refine ⟨by rw [rest_advance, rest_advance], ?_⟩
  unfold Page.advance
  split
  · exact Or.inl rfl
  · rcases h.2 with hsame | ⟨hp, hq⟩
    · exact Or.inl (by simp only [hsame])
    · exact Or.inr ⟨by dsimp only; omega, by dsimp only; omega⟩

theorem Level.putBack (h : Level (n + 1) p q) (c : UInt8) :
    Level n (p.putBack c) (q.putBack c) := by
  refine ⟨by rw [rest_putBack, rest_putBack, h.1], ?_⟩
  unfold Page.putBack
  split
  · exact Or.inl rfl
  · rcases h.2 with hsame | ⟨hp, hq⟩
    · exact Or.inl (by simp only [hsame])
    · exact Or.inr ⟨by dsimp only; omega, by dsimp only; omega⟩

theorem passPairs_level (rest : List UInt8) (line column line' column' : Int) :
    (passPairs rest line column).1 = (passPairs rest line' column').1 ∧
      ((passPairs rest line column).2.2 = (passPairs rest line' column').2.2 ∨
        (passPairs rest line column).2.2 = column ∧
          (passPairs rest line' column').2.2 = column') := by
  fun_induction passPairs rest line column generalizing line' column' with
  | case1 => exact ⟨rfl, Or.inr ⟨rfl, rfl⟩⟩
  | case2 => exact ⟨rfl, Or.inr ⟨rfl, rfl⟩⟩
  | case3 c d rest line column hpair ih =>
      rw [passPairs, if_pos hpair]
      rcases ih (line' + 1) 1 with ⟨hrest, hcolumn⟩
      exact ⟨hrest, Or.inl (hcolumn.elim id fun h => h.1.trans h.2.symm)⟩
  | case4 c d rest line column hpair =>
      rw [passPairs, if_neg hpair]
      exact ⟨rfl, Or.inr ⟨rfl, rfl⟩⟩

theorem Level.settle (h : Level n p q) : Level n p.settle q.settle := by
  unfold Page.settle
  rw [h.1]
  rcases passPairs_level q.rest p.line p.column q.line q.column with ⟨hrest, hcolumn⟩
  refine ⟨hrest, ?_⟩
  dsimp only
  rcases hcolumn with hsame | ⟨hp, hq⟩
  · exact Or.inl hsame
  · rw [hp, hq]
    exact h.2

theorem Level.read (h : Level n p q) (joins : Bool) :
    (p.read joins).1 = (q.read joins).1 ∧
      Level (n + (p.read joins).1.elim 0 fun _ => 1) (p.read joins).2 (q.read joins).2 := by
  have hget : ∀ {p q : Page}, Level n p q → p.get.1 = q.get.1 ∧
      Level (n + p.get.1.elim 0 fun _ => 1) p.get.2 q.get.2 := by
    intro p q h
    unfold Page.get
    rw [h.1]
    cases q.rest with
    | nil => exact ⟨rfl, h⟩
    | cons c rest => exact ⟨rfl, h.advance rest c⟩
  unfold Page.read
  cases joins with
  | false => exact hget h
  | true => exact hget h.settle

end Page

namespace Token

/-- What a token says, and whether it starts a line. -/
def features (t : Token) : Gist × Bool :=
  (t.gist, t.startsLine)

end Token

/-- What the tokens of a listing say, and which of them start a line. -/
def Listing.features {σ : Type} (l : Listing σ) : List (Gist × Bool) :=
  l.tokens.map Token.features

namespace Commenting

/-- Two lexers of the same text at two places, after these characters have been read. -/
structure Beside (cs : List UInt8) (s t : Lexer Book) (p q : Page) : Prop where
  left : s.stream.pages = [p]
  right : t.stream.pages = [q]
  joins : s.stream.joins = t.stream.joins
  options : s.options = t.options
  pending : s.pending = [[]] ∧ t.pending = [[]]
  level : p.Level cs.length q

def Held (cs : List UInt8) (s t : Lexer Book) : Prop :=
  ∃ p q, Beside cs s t p q

variable {cs : List UInt8} {s t : Lexer Book} {p q : Page}

theorem Beside.turn {ds : List UInt8} {p' q' : Page} (h : Beside cs s t p q)
    (hlevel : p'.Level ds.length q') : Held ds (s.withPages [p']) (t.withPages [q']) :=
  ⟨p', q', rfl, rfl, h.joins, h.options, h.pending, hlevel⟩

theorem Held.mono {ds : List UInt8} (h : Held cs s t) (hle : ds.length ≤ cs.length) :
    Held ds s t := by
  rcases h with ⟨p, q, h⟩
  exact ⟨p, q, h.left, h.right, h.joins, h.options, h.pending, h.level.mono hle⟩

theorem Held.next (h : Held cs s t) :
    ∃ c s' t', next? s = .ok c s' ∧ next? t = .ok c t' ∧
      c.elim (Held cs s' t') fun c => Held (c :: cs) s' t' := by
  rcases h with ⟨p, q, h⟩
  have hs := next?_single h.left
  have ht := next?_single h.right
  rcases h.level.read s.stream.joins with ⟨hsame, hlevel⟩
  rw [← h.joins, ← hsame] at ht
  refine ⟨_, _, _, hs, ht, ?_⟩
  cases hc : (p.read s.stream.joins).1 with
  | none =>
      rw [hc] at hlevel
      exact h.turn hlevel
  | some c =>
      rw [hc] at hlevel
      exact h.turn hlevel

theorem Held.unread {c : UInt8} (h : Held (c :: cs) s t) :
    ∃ s' t', Lexer.unread c s = .ok () s' ∧ Lexer.unread c t = .ok () t' ∧ Held cs s' t' ∧
      (c ≠ backslash → ∃ s'', next? s' = .ok (some c) s'') := by
  rcases h with ⟨p, q, h⟩
  refine ⟨_, _, unread_pages h.left c, unread_pages h.right c, h.turn (h.level.putBack c),
    fun hc => ?_⟩
  exact ⟨_, next?_cons rfl (Page.rest_putBack p c) fun _ hpair => hc hpair.1⟩

def reading : Reading Book Book where
  held := Held
  place := fun _ _ => True
  failure := fun f g => f.unplaced = g.unplaced
  lax := False
  next := fun h _ => h.next
  nextLine := by
    intro cs s t h
    have h₀ : Held [] s t := h.mono (Nat.zero_le _)
    rcases h₀.next with ⟨c, s', t', hs, ht, h'⟩
    exact Or.inr ⟨c, s', t', hs, ht, h'⟩
  keep := fun h _ => h.mono (Nat.zero_le _)
  unread := fun h _ => h.unread
  here := fun _ => trivial
  back := fun _ _ => trivial
  located := fun _ cause => Failure.unplaced_located cause

theorem Beside.finish (h : Beside cs s t p q) (lexeme : Lexeme) (encoding : Encoding) :
    ∃ a b s' t', Lexer.finish lexeme encoding s = .ok a s' ∧
      Lexer.finish lexeme encoding t = .ok b t' ∧ a.features = b.features ∧ Held cs s' t' :=
  ⟨_, _, _, _, finish_pages h.left lexeme encoding, finish_pages h.right lexeme encoding, rfl,
    h.turn h.level⟩

theorem word_retreat {s' t' : Lexer Book} (h : Held [backslash] s t)
    (hs : peekIs (fun c => isUniversalMark c.toNat) s = .ok false s')
    (ht : peekIs (fun c => isUniversalMark c.toNat) t = .ok false t') :
    ∃ s'' t'', Lexer.unread backslash s' = .ok () s'' ∧ Lexer.unread backslash t' = .ok () t'' ∧
      Held [] s'' t'' := by
  refine retreat (R := reading) ?_ hs ht
  rcases h.next with ⟨c, s₁, t₁, hs₁, ht₁, h₁⟩
  refine ⟨c, s₁, t₁, hs₁, ht₁, ?_⟩
  cases c with
  | none => exact h₁
  | some c =>
      rcases Held.unread h₁ with ⟨s₂, t₂, hs₂, ht₂, h₂, -⟩
      exact ⟨s₂, t₂, hs₂, ht₂, h₂⟩

theorem Beside.lineStart (h : Beside [] s t p q) : (p.column == 1) = (q.column == 1) := by
  rcases h.level.2 with hsame | ⟨hp, hq⟩
  · rw [hsame]
  · rw [List.length_nil] at hp hq
    rw [beq_eq_false_iff_ne.mpr (by omega), beq_eq_false_iff_ne.mpr (by omega)]

def simulation : FreshSimulation Book Book where
  toReading := reading
  word := Held []
  after := fun _ => Held []
  token := fun a b => a.features = b.features
  lineStart := Eq
  failure_refl := Failure.unplaced_refl
  warn := by
    intro cs l l' hl text
    refine same_warn_of_options ?_ ?_ (fun s t h => ⟨cs, h⟩) hl text
    · rintro s t ⟨p, q, h⟩
      exact h.options
    · rintro s t notes notes' collector collector' ⟨p, q, h⟩
      exact ⟨p, q, h.left, h.right, h.joins, h.options, h.pending, h.level⟩
  marked := by
    rintro cs s t ⟨p, q, h⟩
    rw [marked_pages h.left, marked_pages h.right]
    exact ⟨trivial, p, q, h⟩
  setMark := by
    rintro s t ⟨p, q, h⟩
    rw [setMark_pages h.left, setMark_pages h.right]
    exact ⟨rfl, p, q, h.left, h.right, h.joins, h.options, h.pending, h.level⟩
  needSource := by
    rintro s t ⟨p, q, h⟩
    rw [needSource_pages h.left, needSource_pages h.right]
    exact ⟨rfl, p, q, h⟩
  isAtLineStart := by
    rintro s t ⟨p, q, h⟩
    rw [isAtLineStart_pages h.left, isAtLineStart_pages h.right]
    exact ⟨h.lineStart, p, q, h⟩
  finish := by
    rintro lexeme encoding s t ⟨p, q, h⟩
    rcases h.finish lexeme encoding with ⟨a, b, s', t', hs, ht, hfeatures, h'⟩
    rw [hs, ht]
    exact ⟨hfeatures, h'⟩
  flag := by
    rintro a b h x _ rfl spaced
    simp only [Token.features, Token.gist, Prod.mk.injEq] at h ⊢
    exact ⟨⟨h.1.1, h.1.2.1, trivial⟩, trivial⟩
  word_none := next_none (R := reading)
  word_unread := fun _ => same_unread (R := reading) plain_nil
  word_retreat := word_retreat
  after_word := fun h _ _ => h
  after_held := fun h _ _ _ => h
  after_end := next_none (R := reading)
  after_newline := fun h => h.mono (Nat.zero_le _)

/-- A comment, and the blanks in its place. -/
inductive Replaces : List UInt8 → List UInt8 → Prop
  | block {body : List UInt8} (hbody : backslash ∉ body) (hend : ¬ [byte '*', byte '/'] <:+: body) :
      Replaces (byte '/' :: byte '*' :: (body ++ [byte '*', byte '/'])) [byte ' ']
  | line {text : List UInt8} (htext : backslash ∉ text) (hend : newline ∉ text) :
      Replaces (byte '/' :: byte '/' :: (text ++ [newline])) [byte ' ', newline]

theorem one_le_advance (hp : 1 ≤ p.column) (rest : List UInt8) (c : UInt8) :
    1 ≤ ({ p with rest }.advance c).column := by
  unfold Page.advance
  split
  · exact Int.le_refl 1
  · dsimp only
    omega

theorem skipComment_body {body rest : List UInt8} (hbody : backslash ∉ body)
    (hend : ¬ [byte '*', byte '/'] <:+: body) (start : Location) {afterStar : Bool}
    (hstar : afterStar = true → body.head? ≠ some (byte '/')) (hs : s.stream.pages = [p])
    (hp : p.rest = body ++ byte '*' :: byte '/' :: rest) (hcolumn : 1 ≤ p.column) :
    ∃ p', LexM.loop (commentRound start) (progress_commentRound start) afterStar s =
        .ok () (s.withPages [p']) ∧ p'.rest = rest ∧ 2 ≤ p'.column := by
  induction body generalizing s p afterStar with
  | nil =>
      -- The star and the slash that end the comment.
      have hp' : p.rest = byte '*' :: byte '/' :: rest := hp
      have hnext := next?_along hs hp' (by decide) (by decide)
      have hnext' := next?_along (t := s.withPages [p.along 1 (byte '/' :: rest)]) rfl
        (p := p.along 1 (byte '/' :: rest)) rfl (by decide) (by decide)
      refine ⟨(p.along 1 (byte '/' :: rest)).along 1 rest, ?_, rfl, ?_⟩
      · rw [LexM.loop_eq, commentRound, LexM.bind_of_ok hnext]
        dsimp only
        rw [if_neg (by rintro ⟨h, -⟩; revert h; decide)]
        show LexM.loop _ _ (byte '*' == byte '*') _ = _
        rw [LexM.loop_eq, commentRound, LexM.bind_of_ok hnext']
        rfl
      · simp only [Page.along]
        omega
  | cons c body ih =>
      rw [List.mem_cons, not_or] at hbody
      have hnext := next?_cons hs hp fun _ hpair => hbody.1 hpair.1.symm
      have hopen : ¬ (c = byte '/' ∧ afterStar = true) := by
        rintro ⟨rfl, hafter⟩
        exact hstar hafter rfl
      have hstar' : (c == byte '*') = true → body.head? ≠ some (byte '/') := by
        intro hc hhead
        rcases List.head?_eq_some_iff.mp hhead with ⟨more, rfl⟩
        rw [eq_of_beq hc] at hend
        exact hend ⟨[], more, rfl⟩
      have hend' : ¬ [byte '*', byte '/'] <:+: body :=
        fun h => hend (h.trans (List.suffix_cons c body).isInfix)
      rcases ih hbody.2 hend' hstar' (pages_withPages _) (Page.rest_advance _ _)
        (one_le_advance hcolumn _ _) with ⟨p', hloop, hrest, hcolumn'⟩
      refine ⟨p', ?_, hrest, hcolumn'⟩
      rw [LexM.loop_eq, commentRound, LexM.bind_of_ok hnext]
      dsimp only
      rw [if_neg hopen]
      exact hloop

theorem skipIf_mark {mark : UInt8} {rest : List UInt8} (hmark : mark ≠ newline ∧ mark ≠ backslash)
    (hs : s.stream.pages = [p]) (hp : p.rest = mark :: rest) (c : UInt8) :
    skipIf c s = if mark = c then .ok true (s.withPages [p.along 1 rest]) else .ok false s := by
  rw [skipIf_single hs hp (fun _ hpair => hmark.2 hpair.1), Page.advance_eq_along hmark.1,
    Page.look_of_ne hp hmark.1, withPages_self hs]

theorem skipBlank_star {rest : List UInt8} (hs : s.stream.pages = [p])
    (hp : p.rest = byte '/' :: byte '*' :: rest) :
    skipBlank s = (skipComment >>= fun _ => pure true) (s.withPages [p.along 2 rest]) := by
  have hstar := skipIf_mark (by decide) (s := s.withPages [p.along 1 (byte '*' :: rest)]) rfl
    (p := p.along 1 (byte '*' :: rest)) rfl (byte '*')
  rw [if_pos rfl, Page.along_along, withPages_withPages] at hstar
  rw [skipBlank, LexM.bind_of_ok (next?_along hs hp (by decide) (by decide))]
  dsimp only
  rw [if_neg (by decide), if_pos rfl, LexM.bind_of_ok hstar]
  rfl

theorem skipBlank_slashes {rest : List UInt8} (hs : s.stream.pages = [p])
    (hp : p.rest = byte '/' :: byte '/' :: rest) :
    skipBlank s = (skipLine >>= fun _ => pure true) (s.withPages [p.along 2 rest]) := by
  have hskip := skipIf_mark (by decide) (s := s.withPages [p.along 1 (byte '/' :: rest)]) rfl
    (p := p.along 1 (byte '/' :: rest)) rfl
  have hstar := hskip (byte '*')
  have hslash := hskip (byte '/')
  rw [if_neg (by decide)] at hstar
  rw [if_pos rfl, Page.along_along, withPages_withPages] at hslash
  rw [skipBlank, LexM.bind_of_ok (next?_along hs hp (by decide) (by decide))]
  dsimp only
  rw [if_neg (by decide), if_pos rfl, LexM.bind_of_ok hstar, if_neg (by simp),
    LexM.bind_of_ok hslash]
  rfl

theorem skipBlank_block {body rest : List UInt8} (hbody : backslash ∉ body)
    (hend : ¬ [byte '*', byte '/'] <:+: body) (hs : s.stream.pages = [p])
    (hp : p.rest = byte '/' :: byte '*' :: (body ++ byte '*' :: byte '/' :: rest))
    (hcolumn : 1 ≤ p.column) :
    ∃ p', skipBlank s = .ok true (s.withPages [p']) ∧ p'.rest = rest ∧ 2 ≤ p'.column := by
  let opened := s.withPages [p.along 2 (body ++ byte '*' :: byte '/' :: rest)]
  have hhere : here 2 opened = .ok ((CharStream.location opened.stream).back 2) opened := rfl
  have hcolumn' : 1 ≤ (p.along 2 (body ++ byte '*' :: byte '/' :: rest)).column := by
    simp only [Page.along]
    omega
  have hfirst : false = true → body.head? ≠ some (byte '/') := fun h => absurd h (by decide)
  rcases skipComment_body hbody hend ((CharStream.location opened.stream).back 2) hfirst
    (s := opened) rfl rfl hcolumn' with ⟨p', hloop, hrest, hclosed⟩
  have hcomment : skipComment opened = .ok () (s.withPages [p']) := by
    rw [skipComment, LexM.bind_of_ok hhere]
    exact hloop
  refine ⟨p', ?_, hrest, hclosed⟩
  rw [skipBlank_star hs hp, LexM.bind_of_ok hcomment]
  rfl

theorem skipBlank_line {text rest : List UInt8} (htext : backslash ∉ text) (hend : newline ∉ text)
    (hs : s.stream.pages = [p]) (hp : p.rest = byte '/' :: byte '/' :: (text ++ newline :: rest)) :
    ∃ p', skipBlank s = .ok true (s.withPages [p']) ∧ p'.rest = newline :: rest := by
  have hchars : ∀ c ∈ text, c ≠ newline ∧ c ≠ backslash := by
    intro c hc
    exact ⟨fun h => hend (h ▸ hc), fun h => htext (h ▸ hc)⟩
  have hline := skipLine_run hchars (t := s.withPages [p.along 2 (text ++ newline :: rest)]) rfl rfl
  rw [withPages_withPages] at hline
  refine ⟨{ p.along 2 (text ++ newline :: rest) with rest := newline :: rest, column := 1 },
    ?_, rfl⟩
  rw [skipBlank_slashes hs hp, LexM.bind_of_ok hline]
  rfl

theorem skipBlanks_eq_loop {lx lx' : Lexer Book} (h : skipBlank lx = .ok true lx') :
    skipBlanks lx = LexM.loop blankRound progress_blankRound true lx' := by
  rw [skipBlanks, LexM.loop_eq, blankRound, LexM.bind_of_ok h]
  rfl

theorem skipBlank_space {rest : List UInt8} (hs : s.stream.pages = [p])
    (hp : p.rest = byte ' ' :: rest) :
    skipBlank s = .ok true (s.withPages [p.along 1 rest]) := by
  rw [skipBlank, LexM.bind_of_ok (next?_along hs hp (by decide) (by decide))]
  rfl

/-- The comment and the blanks in its place have been passed over, and the same text is left. -/
theorem skipBlanks_replaced {comment blank rest : List UInt8} (hreplaces : Replaces comment blank)
    (hs : s.stream.pages = [p]) (hp : p.rest = comment ++ rest) (ht : t.stream.pages = [q])
    (hq : q.rest = blank ++ rest) (hpcolumn : 1 ≤ p.column) (hqcolumn : 1 ≤ q.column)
    (hjoins : s.stream.joins = t.stream.joins) (hoptions : s.options = t.options)
    (hpending : s.pending = [[]] ∧ t.pending = [[]]) :
    Alike False (fun a s b t => a = b ∧ Held [] s t)
      (fun f s g t => f.unplaced = g.unplaced ∧ reading.Out s t) (skipBlanks s) (skipBlanks t) := by
  have held : ∀ {p' q' : Page}, p'.Level 0 q' → Held [] (s.withPages [p']) (t.withPages [q']) :=
    fun {p' q'} h => ⟨p', q', rfl, rfl, hjoins, hoptions, hpending, h⟩
  cases hreplaces with
  | block hbody hend =>
      rw [List.cons_append, List.cons_append, List.append_assoc] at hp
      rcases skipBlank_block hbody hend hs hp hpcolumn with ⟨p', hblank, hrest, hcolumn⟩
      rw [skipBlanks_eq_loop hblank, skipBlanks_eq_loop (skipBlank_space ht hq)]
      refine same_blanks (R := reading) true _ _ (held ⟨hrest, Or.inr ⟨hcolumn, ?_⟩⟩)
      simp only [Page.along]
      omega
  | line htext hend =>
      rw [List.cons_append, List.cons_append, List.append_assoc] at hp
      rcases skipBlank_line htext hend hs hp with ⟨p', hblank, hrest⟩
      -- The columns differ until the newline has been looked at.
      have hlast : ∀ {lx : Lexer Book} {p : Page},
          lx.stream.pages = [p] → p.rest = newline :: rest →
          LexM.loop blankRound progress_blankRound true lx =
            .ok true (lx.withPages [{ p with column := 1 }]) := by
        intro lx p hlx hp
        rw [LexM.loop_eq, blankRound, LexM.bind_of_ok (skipBlank_single hlx hp
          (fun _ hpair => absurd hpair.1 (by decide)) (by decide) (by decide)),
          Page.look_newline hp]
        rfl
      rw [skipBlanks_eq_loop hblank, skipBlanks_eq_loop (skipBlank_space ht hq), hlast rfl hrest,
        hlast rfl rfl]
      exact ⟨rfl, held ⟨hrest, Or.inl rfl⟩⟩

/-- Up to the place of the failure the listings are the same. -/
def Agree (s t : Lexer Book) : Prop :=
  s.listing.features = t.listing.features ∧
    s.listing.failure.map Failure.unplaced = t.listing.failure.map Failure.unplaced

/-- The outcomes of a call for a token are the same. -/
abbrev AlikeTokens : EStateM.Result Failure (Lexer Book) Token →
    EStateM.Result Failure (Lexer Book) Token → Prop :=
  Alike False simulation.Read fun f s g t => f.unplaced = g.unplaced ∧ reading.Out s t

theorem agree_of_alike (halike : AlikeTokens (nextToken s) (nextToken t))
    (hrest : ∀ {s' t' : Lexer Book}, Held [] s' t' → t'.weight < t.weight → Agree s' t') :
    Agree s t := by
  cases hs : nextToken s with
  | error f s' =>
      rw [hs] at halike
      cases ht : nextToken t with
      | ok => rw [ht] at halike; exact halike.elim
      | error g t' =>
          rw [ht] at halike
          rcases halike with hlax | ⟨hfailure, -⟩
          · exact hlax.elim
          · rw [Agree, listing_of_error hs, listing_of_error ht]
            exact ⟨rfl, congrArg some hfailure⟩
  | ok a s' =>
      rw [hs] at halike
      cases ht : nextToken t with
      | error => rw [ht] at halike; exact halike.elim
      | ok b t' =>
          rw [ht] at halike
          rcases halike with ⟨hfeatures, hlexeme, hafter⟩
          have hends : a.isEnd = b.isEnd := by rw [Token.isEnd, hlexeme, Token.isEnd]
          cases hend : b.isEnd with
          | true =>
              rw [Agree, listing_of_end hs (hends.trans hend), listing_of_end ht hend]
              exact ⟨congrArg (fun f => [f]) hfeatures, rfl⟩
          | false =>
              rw [Agree, listing_of_more hs (hends.trans hend), listing_of_more ht hend]
              rcases hrest hafter (advances_nextToken _ _ _ ht hend) with ⟨hmore, hfailure⟩
              exact ⟨congrArg₂ List.cons hfeatures hmore, hfailure⟩

theorem agree_of_held (h : Held [] s t) : Agree s t := by
  induction hn : t.weight using Nat.strongRecOn generalizing s t with
  | ind n ih =>
      refine agree_of_alike ?_ fun h' hlt => ih _ (hn ▸ hlt) h' rfl
      have hpending : s.pending = [[]] ∧ t.pending = [[]] := by
        rcases h with ⟨p, q, h⟩
        exact h.pending
      rw [nextToken_fresh hpending.1, nextToken_fresh hpending.2]
      exact FreshSimulation.runs_freshToken (S := simulation) s t h

theorem alike_freshToken (hs : s.stream.pages = [p]) (ht : t.stream.pages = [q])
    (hstart : (p.column == 1) = (q.column == 1))
    (hblanks : Alike False (fun a s b t => a = b ∧ Held [] s t)
      (fun f s g t => f.unplaced = g.unplaced ∧ reading.Out s t) (skipBlanks s) (skipBlanks t)) :
    AlikeTokens (freshToken s) (freshToken t) := by
  have hskip : simulation.Same (fun s' t' => s' = s ∧ t' = t) (fun _ => Held []) skipBlanks
      skipBlanks := by
    rintro _ _ ⟨rfl, rfl⟩
    exact hblanks
  rw [freshToken, LexM.bind_of_ok (needSource_pages hs), LexM.bind_of_ok (isAtLineStart_pages hs),
    LexM.bind_of_ok (needSource_pages ht), LexM.bind_of_ok (isAtLineStart_pages ht)]
  refine same_bind hskip (fun spaced => runs_bind FreshSimulation.runs_token fun a b => ?_) s t
    ⟨rfl, rfl⟩
  exact runs_pure fun s' t' h => ⟨simulation.flag h.1 hstart spaced, h.2⟩

theorem alike_nextToken {comment blank rest : List UInt8} (hreplaces : Replaces comment blank)
    (hs : s.stream.pages = [p]) (hp : p.rest = comment ++ rest) (ht : t.stream.pages = [q])
    (hq : q.rest = blank ++ rest) (hpcolumn : 1 ≤ p.column) (hcolumn : q.column = p.column)
    (hjoins : s.stream.joins = t.stream.joins) (hoptions : s.options = t.options)
    (hpending : s.pending = [[]] ∧ t.pending = [[]]) :
    AlikeTokens (nextToken s) (nextToken t) := by
  rw [nextToken_fresh hpending.1, nextToken_fresh hpending.2]
  exact alike_freshToken hs ht (by rw [hcolumn]) (skipBlanks_replaced hreplaces hs hp ht hq hpcolumn
    (hcolumn ▸ hpcolumn) hjoins hoptions hpending)

theorem Replaces.head?_eq {comment blank : List UInt8} (h : Replaces comment blank)
    (rest : List UInt8) : (comment ++ rest).head? = some (byte '/') := by
  cases h <;> rfl

theorem one_le_column_between {text : List UInt8} {last : Option (Option Token)}
    (h : Position.Between text last p) (hslash : p.rest.head? = some (byte '/')) :
    1 ≤ p.column := by
  have htracked : ∀ {before : List UInt8}, Tracking.Tracked text before p → 1 ≤ p.column := by
    intro before h
    rcases h.column with hplace | ⟨hone, -⟩
    · rw [hplace]
      exact one_le_column before
    · omega
  have hbehind : ∀ {c : UInt8} {cs : List UInt8}, c ≠ byte '/' → ¬ Tracking.Behind text c cs p := by
    rintro c cs hc ⟨-, q, rfl, -⟩
    rw [Page.rest_putBack, List.head?_cons, Option.some.injEq] at hslash
    exact hc hslash
  cases last with
  | none => exact Int.le_of_eq h.1.symm
  | some last =>
      cases last with
      | none =>
          rcases h with ⟨before, h⟩
          exact htracked h
      | some t =>
          rcases h with hstood | ⟨-, hnil, -⟩
          · cases hstood with
            | newline _ looked => exact looked.elim fun _ h => htracked h.1
            | kept _ _ looked => exact looked.elim fun _ h => htracked h.1
            | hash _ _ behind => exact (hbehind (by decide) behind).elim
            | name _ _ behind => exact (hbehind (by decide) behind).elim
          · rw [hnil] at hslash
            cases hslash

end Commenting

open Commenting

/-- The characters that are left, those put back among them. Their lines end alike and are not
joined yet. -/
def Stream.textAhead (s : Stream) : List UInt8 :=
  s.book.pages.flatMap Page.rest

/-- A lexer of one source between two tokens, none of which has been put back: one that stands in a
column of its line, or that calls for tokens have brought to where it stands. -/
inductive Lexer.Poised : Lexer → Prop
  | placed {lx : Lexer} (lone : lx.stream.IsLone) (pending : lx.pending = [[]])
      (column : 1 ≤ (CharStream.location lx.stream).column) : Poised lx
  | called {stream : Stream} {source : Source} (hfiles : stream.files = [source])
      (hfresh : source.IsFresh) (options : Options) (n : Nat) :
      Poised (nextTokens (Lexer.ofStream stream options) n).2

theorem Lexer.column_book {lx : Lexer} {p : Page} (hpages : lx.book.stream.pages = [p]) :
    (CharStream.location lx.stream).column = p.column := by
  have hplace := location_pages hpages
  rw [show CharStream.location lx.book.stream = _ from Stream.location_book _] at hplace
  rw [hplace]
  rfl

theorem Lexer.Poised.page {lx : Lexer} (h : lx.Poised) :
    lx.stream.HasRoom 0 ∧ lx.pending = [[]] ∧ ∃ p, lx.book.stream.pages = [p] ∧
      (p.rest.head? = some (byte '/') → 1 ≤ p.column) := by
  cases h with
  | placed lone pending column =>
      obtain ⟨p, hpages, -⟩ : ∃ p, lx.book.stream.pages = [p] ∧ _ := lone.page
      rw [Lexer.column_book hpages] at column
      exact ⟨lone.hasRoom, pending, p, hpages, fun _ => column⟩
  | called hfiles hfresh options n =>
      rcases between_nextTokens hfiles hfresh options n with
        ⟨hroom, mark, p, hpages, -, hpending, -, hbetween⟩
      exact ⟨hroom, hpending, p, hpages, one_le_column_between hbetween⟩

/-- A comment is one blank. Where it comes next, between any two tokens, everything from there on is
as with blanks in its place: what the tokens are, whether blanks stand before them, which of them
start a line, and how they end. -/
theorem listing_comment {read other : Lexer} {comment blank rest : List UInt8}
    (hreplaces : Replaces comment blank) (hpoised : read.Poised)
    (hread : read.stream.textAhead = comment ++ rest) (hlone : other.stream.IsLone)
    (hpending : other.pending = [[]]) (hoptions : other.options = read.options)
    (hcolumn : (CharStream.location other.stream).column = (CharStream.location read.stream).column)
    (hother : other.stream.textAhead = blank ++ rest) :
    read.listing.features = other.listing.features ∧
      read.listing.failure.map Failure.unplaced = other.listing.failure.map Failure.unplaced := by
  rcases hpoised.page with ⟨hroom, hpending', p, hpages, hone⟩
  obtain ⟨q, hpages', -⟩ : ∃ q, other.book.stream.pages = [q] ∧ _ := hlone.page
  have hp : p.rest = comment ++ rest := by
    rw [← hread, Stream.textAhead, show read.stream.book.pages = [p] from hpages]
    simp
  have hq : q.rest = blank ++ rest := by
    rw [← hother, Stream.textAhead, show other.stream.book.pages = [q] from hpages']
    simp
  rw [Lexer.column_book hpages, Lexer.column_book hpages'] at hcolumn
  have halike := alike_nextToken hreplaces hpages hp (t := other.book) hpages' hq
    (hone (hp ▸ hreplaces.head?_eq rest)) hcolumn rfl hoptions.symm ⟨hpending', hpending⟩
  have hagree := agree_of_alike halike fun h _ => agree_of_held h
  rw [Agree, Stack.listing_book read hroom, Stack.listing_book other hlone.hasRoom] at hagree
  exact hagree

/-- A comment over two lines with stars and slashes in it, behind a line that has been read. -/
theorem listing_comment_stars :
    let behind := Utf8.encode "*/y /**///\n\'"
    let comment := Utf8.encode "/*/ a\n**/"
    let stream := Stream.ofSources [.ofBytes "t.c" (Utf8.encode "x\n" ++ comment ++ behind)]
    let other := Lexer.ofStream (Stream.ofSources [.ofBytes "t.c" (byte ' ' :: behind)])
    let read := (nextTokens (Lexer.ofStream stream) 2).2
    read.listing.features = other.listing.features ∧
      read.listing.features =
        [((.punctuator .star, .plain, true), true), ((.punctuator .slash, .plain, false), false),
          ((.ident "y", .plain, false), false), ((.newline, .plain, true), false)] := by
  intro behind comment stream other read
  let body := Utf8.encode "/ a\n*"
  have hreplaces : Replaces (byte '/' :: byte '*' :: (body ++ [byte '*', byte '/'])) [byte ' '] :=
    .block (by decide +kernel) (by decide +kernel)
  have hfiles : stream.files = [.ofBytes "t.c" (Utf8.encode "x\n" ++ comment ++ behind)] := rfl
  have hread : read.stream.textAhead =
      byte '/' :: byte '*' :: (body ++ [byte '*', byte '/']) ++ (behind ++ [newline]) := by
    decide +kernel
  have hother : other.stream.textAhead = [byte ' '] ++ (behind ++ [newline]) := by decide +kernel
  have hpoised : read.Poised := .called hfiles (Source.isFresh_ofBytes _ _) {} 2
  have hfeatures := (listing_comment hreplaces hpoised hread (Stream.isLone_ofBytes _ _) rfl
    (by decide +kernel) (by decide +kernel) hother).1
  exact ⟨hfeatures, hfeatures.trans (by decide +kernel)⟩

end CLex
