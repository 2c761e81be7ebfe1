import CLex.Lexer.Pending

namespace CLex

/-- Tokens in reading order, why there are no more if that is a failure, and the lexer afterwards.
Without a failure the last token is an end token. -/
structure Listing (σ : Type := Stream) where
  tokens : List Token
  failure : Option Failure
  lexer : Lexer σ

variable {σ : Type}

namespace Listing

def cons (t : Token) (l : Listing σ) : Listing σ :=
  { l with tokens := t :: l.tokens }

def prepend (ts : List Token) (l : Listing σ) : Listing σ :=
  { l with tokens := ts ++ l.tokens }

end Listing

namespace Lexer

variable [CharStream σ]

open LexM

/-- Every token but an end token leaves less to read. -/
def Advances (next : LexOn σ Token) : Prop :=
  ∀ lx t lx', next lx = .ok t lx' → t.isEnd = false → lx'.weight < lx.weight

/-- Reads tokens with `next` until the end or a failure, after those in `before`, which are listed
last one first. -/
def listFrom (next : LexOn σ Token) (advances : Advances next) (before : List Token) (lx : Lexer σ) :
    Listing σ :=
  match _h : next lx with
  | .error f lx' => ⟨before.reverse, some f, lx'⟩
  | .ok t lx' =>
    if _hend : t.isEnd then ⟨(t :: before).reverse, none, lx'⟩
    else listFrom next advances (t :: before) lx'
termination_by lx.weight
decreasing_by exact advances _ _ _ _h (by simpa using _hend)

theorem listFrom_eq_prepend (next : LexOn σ Token) (advances : Advances next) (before : List Token)
    (lx : Lexer σ) :
    listFrom next advances before lx =
      (listFrom next advances [] lx).prepend before.reverse := by
  suffices ∀ (n : Nat) (lx : Lexer σ) (before : List Token), lx.weight ≤ n →
      listFrom next advances before lx = (listFrom next advances [] lx).prepend before.reverse from
    this _ lx before (Nat.le_refl _)
  intro n
  induction n with
  | zero =>
    intro lx before hn
    rw [listFrom, listFrom]
    split
    · simp [Listing.prepend]
    · next t lx' h =>
      split
      · simp [Listing.prepend]
      · next hend =>
        have := advances _ _ _ h (by simpa using hend)
        omega
  | succ n ih =>
    intro lx before hn
    rw [listFrom, listFrom]
    split
    · simp [Listing.prepend]
    · next t lx' h =>
      split
      · simp [Listing.prepend]
      · next hend =>
        have := advances _ _ _ h (by simpa using hend)
        rw [ih lx' (t :: before) (by omega), ih lx' [t] (by omega)]
        simp [Listing.prepend]

theorem advances_nextToken : Advances (σ := σ) nextToken :=
  fun _ _ _ h => (weight_nextToken h).2

theorem advances_rawToken : Advances (σ := σ) rawToken :=
  fun _ _ _ h => (weight_rawToken h).2

theorem listFrom_eq (next : LexOn σ Token) (advances : Advances next) (lx : Lexer σ) :
    listFrom next advances [] lx =
      match next lx with
      | .error f lx' => ⟨[], some f, lx'⟩
      | .ok t lx' =>
        if t.isEnd then ⟨[t], none, lx'⟩ else (listFrom next advances [] lx').cons t := by
  rw [listFrom]
  split
  · next h => simp only [h, List.reverse_nil]
  · next t lx' h =>
    simp only [h]
    split
    · rfl
    · rw [listFrom_eq_prepend]
      rfl

def listing (lx : Lexer σ) : Listing σ :=
  listFrom nextToken advances_nextToken [] lx

theorem listing_eq (lx : Lexer σ) :
    listing lx =
      match nextToken lx with
      | .error f lx' => ⟨[], some f, lx'⟩
      | .ok t lx' => if t.isEnd then ⟨[t], none, lx'⟩ else (listing lx').cons t :=
  listFrom_eq nextToken advances_nextToken lx

section Cases

variable {lx lx' : Lexer σ} {f : Failure} {t : Token}

theorem listing_of_error (h : nextToken lx = .error f lx') : lx.listing = ⟨[], some f, lx'⟩ := by
  rw [listing_eq, h]

theorem listing_of_end (h : nextToken lx = .ok t lx') (hend : t.isEnd = true) :
    lx.listing = ⟨[t], none, lx'⟩ := by
  rw [listing_eq, h]
  simp only [hend, if_true]

theorem listing_of_more (h : nextToken lx = .ok t lx') (hend : t.isEnd = false) :
    lx.listing = lx'.listing.cons t := by
  rw [listing_eq, h]
  simp only [hend, Bool.false_eq_true, if_false]

end Cases

theorem listing_induction {P : Lexer σ → Prop}
    (error : ∀ lx f lx', nextToken lx = .error f lx' → P lx)
    (last : ∀ lx t lx', nextToken lx = .ok t lx' → t.isEnd = true → P lx)
    (more : ∀ lx t lx', nextToken lx = .ok t lx' → t.isEnd = false → P lx' → P lx)
    (lx : Lexer σ) : P lx := by
  induction hn : lx.weight using Nat.strongRecOn generalizing lx with
  | ind n ih =>
      cases hnext : nextToken lx with
      | error f lx' => exact error lx f lx' hnext
      | ok t lx' =>
          cases hend : t.isEnd with
          | true => exact last lx t lx' hnext hend
          | false =>
              have hlt := advances_nextToken _ _ _ hnext hend
              exact more lx t lx' hnext hend (ih lx'.weight (hn ▸ hlt) lx' rfl)

/-- The raw tokens of a lexer, blanks among them. -/
def rawListing (lx : Lexer σ) : Listing σ :=
  listFrom rawToken advances_rawToken [] lx

theorem rawListing_eq (lx : Lexer σ) :
    rawListing lx =
      match rawToken lx with
      | .error f lx' => ⟨[], some f, lx'⟩
      | .ok t lx' => if t.isEnd then ⟨[t], none, lx'⟩ else (rawListing lx').cons t :=
  listFrom_eq rawToken advances_rawToken lx

end Lexer

end CLex
