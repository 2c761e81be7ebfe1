import CLex.Proofs.Metering
import CLex.Proofs.Position
import CLex.Proofs.Room
import CLex.Proofs.Stacking
import Mathlib.Algebra.GroupWithZero.Nat

namespace CLex

open Character Lexer LexM Lines

namespace Waning

/-- No token is pending, and the characters left, with `out` more that may come back, are no more
than `n`. -/
def Within (n out : Nat) (lx : Lexer Book) : Prop :=
  lx.pending = [[]] ∧ CharStream.weight lx.stream + out ≤ n

variable {n out : Nat} {lx : Lexer Book} {E : Failure → Lexer Book → Prop}

theorem Within.mono {less : Nat} (h : Within n out lx) (hle : less ≤ out) : Within n less lx :=
  ⟨h.1, Nat.le_trans (Nat.add_le_add_left hle _) h.2⟩

theorem leads_next :
    Leads E (Within n out) next? fun c => c.elim (Within n out) fun _ => Within n (out + 1) := by
  refine leads_of_ok fun lx h => ?_
  rcases hread : CharStream.read lx.stream with ⟨c, stream⟩
  refine ⟨c, { lx with stream }, by simp only [next?, hread], ?_⟩
  have hweight := h.2
  cases c with
  | none =>
      have := CharStream.weight_read_none hread
      exact ⟨h.1, by dsimp only; omega⟩
  | some c =>
      have := CharStream.weight_read_some hread
      exact ⟨h.1, by dsimp only; omega⟩

theorem leads_unread (hE : ∀ f lx, Within n 0 lx → E f lx) (c : UInt8) :
    Leads E (Within n (out + 1)) (unread c)
      fun _ lx => Within n out lx ∧ (c ≠ backslash → lx.Ahead c) := by
  intro lx h
  cases hpages : lx.stream.pages with
  | nil =>
      have hrun : unread c lx = .error .nothingThere lx := by
        have hstream : CharStream.unread lx.stream c = .error .nothingThere := by
          show lx.stream.unread c = _
          rw [Book.unread, hpages]
        rw [Lexer.unread, hstream]
      rw [hrun]
      exact hE _ lx (h.mono (Nat.zero_le _))
  | cons p below =>
      have hrun := unread_pages hpages c
      have hweight := weight_unread hrun
      have hle := h.2
      rw [hrun]
      refine ⟨⟨h.1, ?_⟩, fun hc => ?_⟩
      · simp only [Lexer.weight, pending_withPages] at hweight
        omega
      · exact ⟨_, next?_cons rfl (Page.rest_putBack p c) fun _ hpair => hc hpair.1⟩

theorem leads_warn (hE : ∀ f lx, Within n 0 lx → E f lx) (location : Location) (text : String) :
    Leads E (Within n out) (warn location text) fun _ => Within n out :=
  leads_warn_of (fun lx h _ _ => hE _ lx (h.mono (Nat.zero_le _))) fun _ _ _ h => h

theorem leads_finish (lexeme : Lexeme) (encoding : Encoding) :
    Leads E (Within n out) (finish lexeme encoding) fun _ lx => True ∧ Within n out lx := by
  refine (leads_finish_of fun lx h => ⟨h.1, ?_⟩).post fun _ _ h => ⟨trivial, h⟩
  rw [CharStream.weight_draw]
  exact h.2

def stance (n : Nat) : Stance Book where
  loose := Within n 0
  ended := Within n 0
  front := fun _ => Within n 0
  out := fun cs => Within n (Room.spare cs)
  looked := fun _ => Within n 1
  behind := fun _ _ => Within n 0
  stray := fun _ => True
  token := fun _ => True
  failure := fun _ => True

theorem failed (n : Nat) : ∀ f lx, Within n 0 lx → (stance n).Failed f lx :=
  fun _ _ h => ⟨trivial, h⟩

theorem leads_next_zero :
    Leads E (Within n 0) next? fun d => d.elim (Within n 0) fun d => Within n (Room.spare [d]) :=
  leads_next

def footing (n : Nat) : Footing Book where
  toStance := stance n
  loose_of_ended := fun h => h
  loose_of_front := fun h => h
  loose_of_looked := fun h => h.mono (Nat.zero_le 1)
  looked_of_out := fun h => h.mono (Room.one_le_spare _ _)
  looked_single := fun h => h
  front_of_behind := fun _ _ h => h
  stray_slash := trivial
  next_loose := leads_next_zero
  next_front := fun _ => leads_next_zero
  next_looked := fun _ _ => leads_next
  next_behind := fun _ _ => leads_next_zero
  next_stray := fun _ _ => leads_next_zero
  unread_front := fun c => (leads_unread (failed n) c).post fun _ _ h => h.1
  unread_out := fun d _ _ => leads_unread (failed n) d
  unread_looked := fun {c} _ _ => leads_unread (failed n) c
  warn_loose := leads_warn (failed n)
  warn_looked := fun _ => leads_warn (failed n)
  finish_ended := leads_finish
  finish_looked := fun _ => leads_finish
  finish_behind := fun _ _ => leads_finish
  located := fun _ _ => trivial
  tooLarge := fun _ => trivial

theorem level (n : Nat) : (footing n).Level where
  front := fun h => h
  behind := fun h => h
  setMark := leads_setMark_of fun _ _ h => h
  needSource := leads_needSource_of fun _ h => ⟨trivial, h⟩

theorem leads_nextToken (n : Nat) :
    Leads (footing n).Failed (Within n 0) nextToken fun _ => Within n 0 := by
  intro lx h
  simp only [nextToken, h.1]
  exact (level n).leads_freshToken lx h

end Waning

namespace Lexer

/-- The number of characters that the sources still have to give. -/
def left (lx : Lexer) : Nat :=
  CharStream.weight lx.stream.book

/-- A lexer between two tokens, none of which has been put back. -/
structure Standing (lx : Lexer) : Prop where
  room : lx.stream.HasRoom 0
  pending : lx.pending = [[]]

structure AtEnd (lx : Lexer) : Prop extends Standing lx where
  ended : ∃ p, lx.stream.book.pages = [p] ∧ p.rest = []

variable {lx lx' : Lexer} {t : Token} {f : Failure}

theorem Standing.within (h : lx.Standing) : Waning.Within lx.left 0 lx.book :=
  ⟨h.pending, Nat.le_refl _⟩

theorem Standing.error (h : lx.Standing) (hnext : nextToken lx = .error f lx') :
    lx'.Standing ∧ lx'.left ≤ lx.left := by
  rcases Stack.agrees_nextToken.error h.room hnext with ⟨hbook, hroom⟩
  obtain ⟨-, hpending, hle⟩ := (Waning.leads_nextToken _).error h.within hbook
  exact ⟨⟨hroom, hpending⟩, hle⟩

theorem Standing.ok (h : lx.Standing) (hnext : nextToken lx = .ok t lx') :
    lx'.Standing ∧ lx'.left ≤ lx.left ∧ (t.isEnd = false → lx'.left < lx.left) := by
  rcases Stack.agrees_nextToken.ok h.room hnext with ⟨hbook, hroom⟩
  obtain ⟨hpending, hle⟩ := (Waning.leads_nextToken _).ok h.within hbook
  refine ⟨⟨hroom, hpending⟩, hle, fun hend => ?_⟩
  have hlt := (weight_nextToken hbook).2 hend
  have hpending₀ : lx.book.pending = [[]] := h.pending
  simp only [Lexer.weight, hpending, hpending₀] at hlt
  exact Nat.lt_of_add_lt_add_right hlt

theorem ended_of_next {lx lx' : Lexer} (h : next? lx = .ok none lx') :
    lx'.stream.book.pages.length ≤ 1 ∧ ∀ p ∈ lx'.stream.book.pages, p.rest = [] := by
  cases hread : lx.stream.readAcross with
  | mk c stream =>
      have hnext : next? lx = .ok c { lx with stream } := by
        rw [next?, show CharStream.read lx.stream = (c, stream) from hread]
      cases h.symm.trans hnext
      have hbook := lx.stream.readPages_book
      rw [hread] at hbook
      exact (Book.textOf_readPages_none hbook).2

theorem ended_finish {lexeme : Lexeme} {encoding : Encoding}
    (h : finish lexeme encoding lx = .ok t lx')
    (hended : lx.stream.book.pages.length ≤ 1 ∧ ∀ p ∈ lx.stream.book.pages, p.rest = []) :
    lx'.stream.book.pages.length ≤ 1 ∧ ∀ p ∈ lx'.stream.book.pages, p.rest = [] := by
  unfold finish at h
  split at h
  · cases h
    exact hended
  · cases h
    have hdraw : lx.stream.draw.2.book = lx.stream.book.draw.2 :=
      (congrArg Prod.snd lx.stream.draw_book).symm
    show lx.stream.draw.2.book.pages.length ≤ 1 ∧ ∀ p ∈ lx.stream.draw.2.book.pages, p.rest = []
    rw [hdraw, Book.draw]
    cases hpages : lx.stream.book.pages with
    | nil => simp [hpages]
    | cons p below =>
        rw [hpages] at hended
        simpa using hended

theorem Standing.atEnd (h : lx.Standing) (hnext : nextToken lx = .ok t lx')
    (hend : t.isEnd = true) : lx'.AtEnd := by
  obtain ⟨hstanding, -⟩ := h.ok hnext
  have hended : lx'.stream.book.pages.length ≤ 1 ∧ ∀ p ∈ lx'.stream.book.pages, p.rest = [] := by
    have hfresh : freshToken lx = .ok t lx' := by simpa only [nextToken, h.pending] using hnext
    rcases bind_eq_ok.mp hfresh with ⟨_, _, -, hfresh⟩
    rcases bind_eq_ok.mp hfresh with ⟨startsLine, _, -, hfresh⟩
    rcases bind_eq_ok.mp hfresh with ⟨spaced, _, -, hfresh⟩
    rcases bind_eq_ok.mp hfresh with ⟨u, _, htoken, hflags⟩
    obtain ⟨rfl, rfl⟩ := pure_eq_ok.mp hflags
    rcases bind_eq_ok.mp htoken with ⟨_, _, -, htoken⟩
    rcases bind_eq_ok.mp htoken with ⟨c, _, hc, htoken⟩
    cases c with
    | none => exact ended_finish htoken (ended_of_next hc)
    | some c =>
        have hfits : Fits c u.lexeme := begins_tokenFrom c _ _ _ htoken
        rw [show u.lexeme = .eof by simpa [Token.isEnd] using hend] at hfits
        exact hfits.elim
  rcases hstanding.room with ⟨top, below, hfiles, -⟩
  rcases hpages : lx'.stream.book.pages with _ | ⟨p, _ | ⟨q, rest⟩⟩
  · rw [show lx'.stream.book.pages = Stream.pagesOf lx'.stream.console lx'.stream.files from rfl,
      hfiles] at hpages
    cases hpages
  · exact ⟨hstanding, p, hpages, hended.2 p (by rw [hpages]; exact List.mem_cons_self)⟩
  · rw [hpages] at hended
    exact absurd hended.1 (by simp)

theorem AtEnd.nextToken (h : lx.AtEnd) :
    ∃ t lx', Lexer.nextToken lx = .ok t lx' ∧ t.isEnd = true ∧ lx'.AtEnd := by
  rcases h.ended with ⟨p, hpages, hrest⟩
  have hbook : Lexer.nextToken lx.book = _ := Framing.nextToken_end hpages h.pending hrest
  rcases Stack.agrees_nextToken.of_book h.room hbook with ⟨lx', hnext, hlx', -⟩
  exact ⟨_, lx', hnext, rfl, h.toStanding.atEnd hnext rfl⟩

theorem nextTokens_add (lx : Lexer) (n m : Nat) :
    (nextTokens lx (n + m)).2 = (nextTokens (nextTokens lx n).2 m).2 := by
  induction m with
  | zero => rfl
  | succ m ih =>
      rw [← Nat.add_assoc, nextTokens, nextTokens, ih]
      cases Lexer.nextToken (nextTokens (nextTokens lx n).2 m).2 <;> rfl

theorem nextTokens_cons (lx : Lexer) (n : Nat) :
    nextTokens lx (n + 1) =
      match Lexer.nextToken lx with
      | .ok t lx' => (some t :: (nextTokens lx' n).1, (nextTokens lx' n).2)
      | .error _ lx' => (none :: (nextTokens lx' n).1, (nextTokens lx' n).2) := by
  induction n with
  | zero =>
      rw [nextTokens]
      cases hnext : Lexer.nextToken lx with
      | ok t lx' => simp [nextTokens, hnext]
      | error f lx' => simp [nextTokens, hnext]
  | succ n ih =>
      rw [nextTokens, ih]
      cases Lexer.nextToken lx with
      | ok t lx' =>
          dsimp only
          rw [nextTokens]
          cases Lexer.nextToken (nextTokens lx' n).2 <;> rfl
      | error f lx' =>
          dsimp only
          rw [nextTokens]
          cases Lexer.nextToken (nextTokens lx' n).2 <;> rfl

theorem Standing.nextTokens (h : lx.Standing) (n : Nat) :
    (nextTokens lx n).2.Standing ∧ (nextTokens lx n).2.left ≤ lx.left := by
  induction n with
  | zero => exact ⟨h, Nat.le_refl _⟩
  | succ n ih =>
      rw [Lexer.nextTokens]
      cases hnext : Lexer.nextToken (Lexer.nextTokens lx n).2 with
      | ok t lx' =>
          rcases ih.1.ok hnext with ⟨hstanding, hle, -⟩
          exact ⟨hstanding, Nat.le_trans hle ih.2⟩
      | error f lx' =>
          rcases ih.1.error hnext with ⟨hstanding, hle⟩
          exact ⟨hstanding, Nat.le_trans hle ih.2⟩

theorem AtEnd.nextTokens (h : lx.AtEnd) (n : Nat) : (nextTokens lx n).2.AtEnd := by
  induction n with
  | zero => exact h
  | succ n ih =>
      rcases ih.nextToken with ⟨t, lx', hnext, -, hend⟩
      rw [Lexer.nextTokens, hnext]
      exact hend

end Lexer

/-- The tokens stop: with the only end token, or before one, with a failure. -/
def Listing.Stops {σ : Type} (l : Listing σ) : Prop :=
  match l.failure with
  | none => ∃ before last, l.tokens = before ++ [last] ∧ last.isEnd = true ∧
      ∀ t ∈ before, t.isEnd = false
  | some _ => ∀ t ∈ l.tokens, t.isEnd = false

/-- What the calls for tokens give until they stop; the one that fails gives none. -/
def Listing.calls {σ : Type} (l : Listing σ) : List (Option Token) :=
  l.tokens.map some ++ if l.failure.isSome then [none] else []

theorem Listing.Stops.cons {σ : Type} {l : Listing σ} (h : l.Stops) {t : Token}
    (ht : t.isEnd = false) : (l.cons t).Stops := by
  unfold Stops at h ⊢
  rw [show (l.cons t).failure = l.failure from rfl]
  cases hfailure : l.failure with
  | none =>
      rw [hfailure] at h
      rcases h with ⟨before, last, htokens, hlast, hbefore⟩
      refine ⟨t :: before, last, ?_, hlast, List.forall_mem_cons.mpr ⟨ht, hbefore⟩⟩
      rw [show (l.cons t).tokens = t :: l.tokens from rfl, htokens, List.cons_append]
  | some f =>
      rw [hfailure] at h
      exact List.forall_mem_cons.mpr ⟨ht, h⟩

namespace Lexer

variable {lx : Lexer}

theorem listing_stops (lx : Lexer) : lx.listing.Stops := by
  induction lx using listing_induction with
  | error lx f lx' hnext =>
      rw [listing_of_error hnext]
      exact fun t ht => absurd ht List.not_mem_nil
  | last lx t lx' hnext hend =>
      rw [listing_of_end hnext hend]
      exact ⟨[], t, rfl, hend, fun t ht => absurd ht List.not_mem_nil⟩
  | more lx t lx' hnext hend ih =>
      rw [listing_of_more hnext hend]
      exact ih.cons hend

/-- The list of tokens is what the calls give, and it ends where they stop. -/
theorem nextTokens_listing (lx : Lexer) :
    nextTokens lx lx.listing.calls.length = (lx.listing.calls, lx.listing.lexer) := by
  induction lx using listing_induction with
  | error lx f lx' hnext => simp [listing_of_error hnext, Listing.calls, nextTokens, hnext]
  | last lx t lx' hnext hend => simp [listing_of_end hnext hend, Listing.calls, nextTokens, hnext]
  | more lx t lx' hnext hend ih =>
      have hcalls : (lx'.listing.cons t).calls = some t :: lx'.listing.calls := rfl
      rw [listing_of_more hnext hend, hcalls, List.length_cons, nextTokens_cons, hnext]
      dsimp only
      rw [ih]
      rfl

/-- Each of the tokens before the end token has taken a character. -/
theorem Standing.listing (h : lx.Standing) :
    (lx.listing.tokens.filter fun t => !t.isEnd).length + lx.listing.lexer.left ≤ lx.left := by
  induction lx using listing_induction with
  | error lx f lx' hnext => simpa [listing_of_error hnext] using (h.error hnext).2
  | last lx t lx' hnext hend => simpa [listing_of_end hnext hend, hend] using (h.ok hnext).2.1
  | more lx t lx' hnext hend ih =>
      rcases h.ok hnext with ⟨hstanding, -, hlt⟩
      have hrest := ih hstanding
      have hless := hlt hend
      rw [listing_of_more hnext hend]
      simp only [Listing.cons, List.filter_cons, hend, Bool.not_false, if_true, List.length_cons]
      omega

theorem left_fresh {console : List UInt8} {files : List Source}
    (hfresh : ∀ source ∈ files, source.IsFresh) :
    (Stream.pagesOf console files).foldr (fun p n => p.rest.length + n) 0 =
      ((Stream.contents console files).map fun bytes => (canon bytes).length).sum := by
  induction files generalizing console with
  | nil => rfl
  | cons top below ih =>
      have htop := (hfresh top List.mem_cons_self).lend console
      rw [Stream.pagesOf, List.foldr_cons, htop.page_eq, Stream.contents, List.map_cons,
        List.sum_cons, ih fun source h => hfresh source (List.mem_cons_of_mem _ h)]

theorem standing_fresh {stream : Stream} (hne : stream.files ≠ [])
    (hfresh : ∀ source ∈ stream.files, source.IsFresh) (options : Options) :
    (Lexer.ofStream stream options).Standing :=
  ⟨(Stream.hasRoom_of_fresh hne hfresh).mono (Nat.zero_le 3), rfl⟩

end Lexer

open Metered

/-- The tokens of a stack of fresh sources stop after finitely many calls, with one end token or
with a failure, and there are no more before the end token than characters in the sources: each
takes at least one character away that never comes back. Behind an end token there are only end
tokens. And in whatever state a lexer is, reading a token, passing over a group and reading a header
name ask for a character only so many times, whether they succeed or not. -/
theorem listing_ends {stream : Stream} (hne : stream.files ≠ [])
    (hfresh : ∀ source ∈ stream.files, source.IsFresh) (options : Options) :
    let lx := Lexer.ofStream stream options
    let total := ((Stream.contents stream.console stream.files).map fun bytes =>
      (canon bytes).length).sum
    lx.listing.Stops ∧
      nextTokens lx lx.listing.calls.length = (lx.listing.calls, lx.listing.lexer) ∧
      (lx.listing.tokens.filter fun t => !t.isEnd).length ≤ total ∧
      lx.left = total ∧
      (∀ n t lx', nextToken (nextTokens lx n).2 = .ok t lx' →
        if t.isEnd then
          ∀ m, ∃ u lx'', nextToken (nextTokens lx (n + 1 + m)).2 = .ok u lx'' ∧ u.isEnd = true
        else ∀ m, (nextTokens lx (n + 1 + m)).2.left < (nextTokens lx n).2.left) ∧
      ∀ state : Lexer,
        (unmetered (nextToken state.metered) = nextToken state ∧
            count (nextToken state.metered) ≤ 32 * state.weight + 4) ∧
          (unmetered (skipGroup state.metered) = skipGroup state ∧
            count (skipGroup state.metered) ≤ 32 * state.weight + 40) ∧
          unmetered (headerName? state.metered) = headerName? state ∧
            count (headerName? state.metered) ≤ 32 * state.weight + 6 := by
  intro lx total
  have hstanding := standing_fresh hne hfresh options
  have htotal : lx.left = total := left_fresh hfresh
  refine ⟨listing_stops lx, nextTokens_listing lx, ?_, htotal, ?_,
    fun state => ⟨count_nextToken state, count_skipGroup state, count_headerName? state⟩⟩
  · exact htotal ▸ Nat.le_trans (Nat.le_add_right _ _) hstanding.listing
  · intro n t lx' hnext
    have hafter : (nextTokens lx (n + 1)).2 = lx' := by rw [nextTokens, hnext]
    rcases (hstanding.nextTokens n).1.ok hnext with ⟨hstanding', -, hlt⟩
    split
    · next hend =>
      intro m
      rcases (((hstanding.nextTokens n).1.atEnd hnext hend).nextTokens m).nextToken with
        ⟨u, lx'', hu, huend, -⟩
      rw [nextTokens_add, hafter]
      exact ⟨u, lx'', hu, huend⟩
    · next hend =>
      intro m
      rw [nextTokens_add, hafter]
      exact Nat.lt_of_le_of_lt (hstanding'.nextTokens m).2 (hlt (by simpa using hend))

/-- A name that runs over a line end in a file, above an operator in memory: seven characters make
four tokens, and behind the fifth, which is the end token, come only more of these. -/
theorem listing_ends_file_over_memory :
    let lx := Lexer.ofStream (Stream.ofSources
      [.ofFile "in.h" (bytes ['a', '\\', '\r', '\n', 'b']), .ofBytes "out.c" (bytes ['+'])])
    lx.left = 7 ∧ (lx.listing.tokens.filter fun t => !t.isEnd).length = 4 ∧ lx.listing.Stops ∧
      ∀ m, ∃ u lx', nextToken (nextTokens lx (5 + m)).2 = .ok u lx' ∧ u.isEnd = true := by
  intro lx
  have hfresh : ∀ source ∈ lx.stream.files, source.IsFresh := by
    intro source h
    rcases List.mem_cons.mp h with rfl | h
    · exact Source.isFresh_ofFile _ _
    · exact List.mem_singleton.mp h ▸ Source.isFresh_ofBytes _ _
  obtain ⟨hstops, -, -, hleft, hafter, -⟩ :=
    listing_ends (show lx.stream.files ≠ [] by decide) hfresh {}
  refine ⟨hleft, by decide +kernel, hstops, ?_⟩
  let t : Token := { lexeme := .eof, file := some "out.c", line := 2, column := 1, index := 2,
                     startsLine := true }
  have hlast : (nextTokens lx 5).1.getLast? = some (some t) := by decide +kernel
  rcases nextToken_of_getLast? hlast with ⟨lx', hnext⟩
  exact hafter 4 t lx' hnext

end CLex
