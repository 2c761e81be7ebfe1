import CLex.Proofs.Reading
import CLex.Proofs.Simulation.Leaf
import CLex.Proofs.Simulation.Stack

/-!
Joining lines while reading, and joining them before. The lexer of a source reads the tokens that it
would read if the text had been joined first, but for one thing: after a name it looks behind a
backslash, and when a newline is there it puts back both, which makes a pair that is then passed
over. In the joined text these two are tokens.
-/

namespace CLex

open Character Lexer Lines Reading

namespace Token

def gist (t : Token) : Lexeme × Encoding × Bool :=
  (t.lexeme, t.encoding, t.spaced)

end Token

namespace Failure

/-- A failure, wherever it happened. -/
def unplaced : Failure → Failure
  | .diagnostic d => .diagnostic { d with location := none }
  | f => f

theorem unplaced_refl (f : Failure) : f.unplaced = f.unplaced :=
  rfl

theorem unplaced_located {l l' : Location} (cause : Cause) :
    (located cause l).unplaced = (located cause l').unplaced :=
  rfl

end Failure

namespace Lexeme

/-- A name made of characters of identifiers. -/
def isName : Lexeme → Bool
  | .ident name => name != ".."
  | _ => false

end Lexeme

namespace Joining

/-- A lexer of one page that joins lines, and one of a page that does not, with texts related by
`P`. -/
structure Beside (P : List UInt8 → List UInt8 → Prop) (s t : Lexer Book) (p q : Page) : Prop where
  left : s.stream.pages = [p]
  joins : s.stream.joins = true
  right : t.stream.pages = [q]
  plain : t.stream.joins = false
  options : s.options = t.options
  pending : s.pending = [[]] ∧ t.pending = [[]]
  texts : P p.rest q.rest

def Texts (P : List UInt8 → List UInt8 → Prop) (s t : Lexer Book) : Prop :=
  ∃ p q, Beside P s t p q

/-- The second text is the first one, joined; what has been read last begins no pair. -/
def Held (cs : List UInt8) : Lexer Book → Lexer Book → Prop :=
  Texts fun text joined => joined = join text ∧
    (cs.head? = some backslash → text.head? ≠ some newline)

/-- After a name: a backslash and a newline may have been put back that were no pair before. -/
def Word : Lexer Book → Lexer Book → Prop :=
  Texts fun text joined =>
    (∃ rest, text = backslash :: newline :: rest ∧ joined = backslash :: newline :: join rest) ∨
      joined = join text ∧ ¬ [backslash, newline] <+: joined

def After (lexeme : Lexeme) : Lexer Book → Lexer Book → Prop :=
  if lexeme.isName then Word else Held []

variable {P : List UInt8 → List UInt8 → Prop} {s t : Lexer Book}

theorem Texts.mono {Q : List UInt8 → List UInt8 → Prop} (h : Texts P s t)
    (hPQ : ∀ a b, P a b → Q a b) : Texts Q s t := by
  rcases h with ⟨p, q, h⟩
  exact ⟨p, q, h.left, h.joins, h.right, h.plain, h.options, h.pending, hPQ _ _ h.texts⟩

theorem Beside.turn {p q p' q' : Page} (h : Beside P s t p q)
    {Q : List UInt8 → List UInt8 → Prop} (hQ : Q p'.rest q'.rest) :
    Texts Q (s.withPages [p']) (t.withPages [q']) :=
  ⟨p', q', rfl, h.joins, rfl, h.plain, h.options, h.pending, hQ⟩

theorem next_joined {p q : Page} (h : Beside P s t p q) (htexts : q.rest = join p.rest) :
    ∃ c p' q', next? s = .ok c (s.withPages [p']) ∧ next? t = .ok c (t.withPages [q']) ∧
      q'.rest = join p'.rest ∧
      c.elim (p'.rest = []) fun c =>
        q.rest = c :: q'.rest ∧ ¬ (c = backslash ∧ p'.rest.head? = some newline) := by
  have hs := next?_single h.left
  have ht := next?_single h.right
  rw [h.joins] at hs
  rw [h.plain] at ht
  cases hp : p.read true with
  | mk c p' =>
      rw [hp] at hs
      cases c with
      | none =>
          have hend := Page.length_read_none hp
          rw [Page.join_read_none hp] at htexts
          rw [Page.read_nil htexts] at ht
          exact ⟨none, p', q, hs, ht, by rw [htexts, hend]; rfl, hend⟩
      | some c =>
          rcases Page.read_true_some hp with ⟨hjoin, hpair⟩
          rw [hjoin] at htexts
          rw [Page.read_false_cons htexts] at ht
          refine ⟨some c, p', _, hs, ht, Page.rest_advance _ _, ?_, hpair⟩
          rw [Page.rest_advance, htexts]

theorem Held.next {cs : List UInt8} (h : Held cs s t) :
    ∃ c s' t', next? s = .ok c s' ∧ next? t = .ok c t' ∧
      c.elim (Held [] s' t') fun c => ∀ ds, Held (c :: ds) s' t' := by
  rcases h with ⟨p, q, h⟩
  rcases next_joined h h.texts.1 with ⟨c, p', q', hs, ht, hjoin, hc⟩
  refine ⟨c, _, _, hs, ht, ?_⟩
  cases c with
  | none => exact h.turn ⟨hjoin, by simp⟩
  | some c =>
      intro ds
      refine h.turn ⟨hjoin, fun hb hhead => hc.2 ⟨?_, hhead⟩⟩
      simpa using hb

theorem Held.mono {cs ds : List UInt8} (h : Held cs s t) (hds : ds.head? ≠ some backslash) :
    Held ds s t :=
  Texts.mono h fun _ _ htexts => ⟨htexts.1, fun hb => absurd hb hds⟩

theorem head?_of_plain {cs : List UInt8} (plain : Plain cs) : cs.head? ≠ some backslash := by
  cases cs with
  | nil => simp
  | cons c cs => simpa using (plain.2 c List.mem_cons_self).2.1

theorem unread_joined {p q : Page} (h : Beside P s t p q) (htexts : q.rest = join p.rest)
    {c : UInt8} (hc : c = backslash → p.rest.head? ≠ some newline) :
    Lexer.unread c s = .ok () (s.withPages [p.putBack c]) ∧
      Lexer.unread c t = .ok () (t.withPages [q.putBack c]) ∧
      (q.putBack c).rest = join (p.putBack c).rest := by
  refine ⟨unread_pages h.left c, unread_pages h.right c, ?_⟩
  rw [Page.rest_putBack, Page.rest_putBack, htexts, join_cons fun hpair => hc hpair.1 hpair.2]

theorem Held.unread {c : UInt8} {cs ds : List UInt8} (h : Held (c :: cs) s t)
    (hds : ds.head? ≠ some backslash) :
    ∃ s' t', Lexer.unread c s = .ok () s' ∧ Lexer.unread c t = .ok () t' ∧ Held ds s' t' ∧
      (c ≠ backslash → ∃ s'', next? s' = .ok (some c) s'') := by
  rcases h with ⟨p, q, h⟩
  have hc : c = backslash → p.rest.head? ≠ some newline := by
    rintro rfl
    exact h.texts.2 rfl
  rcases unread_joined h h.texts.1 hc with ⟨hs, ht, hjoin⟩
  refine ⟨_, _, hs, ht, h.turn ⟨hjoin, fun hb => absurd hb hds⟩, fun hne => ?_⟩
  exact ⟨_, next?_cons rfl (Page.rest_putBack p c) fun _ hpair => hne hpair.1⟩

def reading : Reading Book Book where
  held := Held
  place := fun _ _ => True
  failure := fun f g => f.unplaced = g.unplaced
  lax := False
  next := by
    intro cs s t h plain
    rcases h.next with ⟨c, s', t', hs, ht, h'⟩
    refine ⟨c, s', t', hs, ht, ?_⟩
    cases c with
    | none => exact Held.mono h' (head?_of_plain plain)
    | some c => exact h' cs
  nextLine := by
    intro cs s t h
    rcases h.next with ⟨c, s', t', hs, ht, h'⟩
    refine Or.inr ⟨c, s', t', hs, ht, ?_⟩
    cases c with
    | none => exact h'
    | some c => exact h' []
  keep := fun h _ => h.mono (by simp)
  unread := fun h plain => h.unread (head?_of_plain plain)
  here := fun _ => trivial
  back := fun _ _ => trivial
  located := fun _ cause => Failure.unplaced_located cause

theorem Texts.finish (h : Texts P s t) (lexeme : Lexeme) (encoding : Encoding) :
    ∃ a b s' t', Lexer.finish lexeme encoding s = .ok a s' ∧
      Lexer.finish lexeme encoding t = .ok b t' ∧ a.gist = b.gist ∧ Texts P s' t' := by
  rcases h with ⟨p, q, h⟩
  exact ⟨_, _, _, _, finish_pages h.left lexeme encoding, finish_pages h.right lexeme encoding,
    rfl, h.turn h.texts⟩

theorem word_retreat {s s' t t' : Lexer Book} (h : Held [backslash] s t)
    (hs : peekIs (fun c => isUniversalMark c.toNat) s = .ok false s')
    (ht : peekIs (fun c => isUniversalMark c.toNat) t = .ok false t') :
    ∃ s'' t'', Lexer.unread backslash s' = .ok () s'' ∧ Lexer.unread backslash t' = .ok () t'' ∧
      Word s'' t'' := by
  rcases h with ⟨p, q, h⟩
  rcases next_joined h h.texts.1 with ⟨c, p', q', hs₁, ht₁, hjoin, hc⟩
  rw [peekIs, LexM.bind_of_ok hs₁] at hs
  rw [peekIs, LexM.bind_of_ok ht₁] at ht
  cases c with
  | none =>
      cases hs
      cases ht
      refine ⟨_, _, unread_pages rfl _, unread_pages rfl _, h.turn (Or.inr ?_)⟩
      rw [Page.rest_putBack, Page.rest_putBack, hjoin, show p'.rest = [] from hc]
      exact ⟨rfl, by decide⟩
  | some d =>
      dsimp only at hs ht
      rw [LexM.bind_of_ok (unread_pages rfl d)] at hs ht
      rcases LexM.pure_eq_ok.mp hs with ⟨-, rfl⟩
      rcases LexM.pure_eq_ok.mp ht with ⟨-, rfl⟩
      refine ⟨_, _, unread_pages rfl _, unread_pages rfl _, h.turn ?_⟩
      rw [Page.rest_putBack, Page.rest_putBack, Page.rest_putBack, Page.rest_putBack, hjoin]
      by_cases hd : d = newline
      · exact Or.inl ⟨p'.rest, by rw [hd], by rw [hd]⟩
      · refine Or.inr ⟨?_, ?_⟩
        · rw [join_cons (by simpa using hd), join_cons hc.2]
        · simpa [List.cons_prefix_cons, eq_comm] using hd

def simulation : FreshSimulation Book Book where
  toReading := reading
  word := Word
  after := After
  token := fun a b => a.gist = b.gist
  lineStart := fun _ _ => True
  failure_refl := Failure.unplaced_refl
  warn := by
    intro cs l l' hl text
    refine same_warn_of_options ?_ ?_ (fun s t h => ⟨cs, h⟩) hl text
    · rintro s t ⟨p, q, h⟩
      exact h.options
    · rintro s t notes notes' collector collector' ⟨p, q, h⟩
      exact ⟨p, q, h.left, h.joins, h.right, h.plain, h.options, h.pending, h.texts⟩
  marked := by
    rintro cs s t ⟨p, q, h⟩
    rw [marked_pages h.left, marked_pages h.right]
    exact ⟨trivial, p, q, h⟩
  setMark := by
    rintro s t ⟨p, q, h⟩
    rw [setMark_pages h.left, setMark_pages h.right]
    exact ⟨rfl, p, q, h.left, h.joins, h.right, h.plain, h.options, h.pending, h.texts⟩
  needSource := by
    rintro s t ⟨p, q, h⟩
    rw [needSource_pages h.left, needSource_pages h.right]
    exact ⟨rfl, p, q, h⟩
  isAtLineStart := by
    rintro s t ⟨p, q, h⟩
    rw [isAtLineStart_pages h.left, isAtLineStart_pages h.right]
    exact ⟨trivial, p, q, h⟩
  finish := by
    intro lexeme encoding s t h
    by_cases hn : lexeme.isName = true
    · rw [After, if_pos hn] at h ⊢
      rcases h.finish lexeme encoding with ⟨a, b, s', t', hs, ht, hgist, h'⟩
      rw [hs, ht]
      exact ⟨hgist, h'⟩
    · rw [After, if_neg hn] at h ⊢
      rcases h.finish lexeme encoding with ⟨a, b, s', t', hs, ht, hgist, h'⟩
      rw [hs, ht]
      exact ⟨hgist, h'⟩
  flag := by
    intro a b h x y _ spaced
    simp only [Token.gist, Prod.mk.injEq] at h ⊢
    exact ⟨h.1, h.2.1, trivial⟩
  word_none := by
    rintro s s' t t' ⟨p, q, h⟩ hs ht
    rcases next_joined h h.texts.1 with ⟨c, p', q', hs₁, ht₁, hjoin, hc⟩
    rw [hs₁] at hs
    rw [ht₁] at ht
    cases hs
    cases ht
    refine h.turn (Or.inr ⟨hjoin, ?_⟩)
    rw [hjoin, show p'.rest = [] from hc]
    decide
  word_unread := by
    rintro c hc s t ⟨p, q, h⟩
    rcases unread_joined h h.texts.1 fun hb => absurd hb hc with ⟨hs, ht, hjoin⟩
    rw [hs, ht]
    refine ⟨rfl, h.turn (Or.inr ⟨hjoin, ?_⟩)⟩
    rw [Page.rest_putBack, List.cons_prefix_cons]
    exact fun hpre => hc hpre.1.symm
  word_retreat := word_retreat
  after_word := by
    intro s t h name hn
    rw [After, if_pos (by simpa [Lexeme.isName] using hn)]
    exact h
  after_held := by
    intro s t h lexeme _ hl
    rw [After, if_neg ?_]
    · exact h
    · cases lexeme with
      | ident name => simpa [Lexeme.isName] using hl name rfl
      | _ => simp [Lexeme.isName]
  after_end := by
    intro s s' t t' h hs ht
    rcases h.next with ⟨c, s₁, t₁, hs₁, ht₁, h₁⟩
    rw [hs₁] at hs
    rw [ht₁] at ht
    cases hs
    cases ht
    rw [After, if_neg (by decide)]
    exact h₁
  after_newline := by
    intro s t h
    rw [After, if_neg (by decide)]
    exact h.mono (by simp)

end Joining

end CLex
