import CLex.Collector
import CLex.Stream
import CLex.Token

/-!
The state of a lexer and the operations that everything else is made of: reading and putting back
characters, positions, warnings, and finishing a token.

`Lexer.weight` bounds what is left to read. `LexM.loop` repeats a step that lowers it, so a
loop is written as a step and a proof that the step makes progress.
-/

namespace CLex

structure Options where
  /-- Warnings are recorded; otherwise they are passed over. -/
  enableWarnings : Bool := true
  /-- A warning stops the reading. -/
  warningsAsErrors : Bool := false
  /-- How many warnings the collector keeps. -/
  maxWarnings : Int := 100
  deriving DecidableEq, Repr

/-- A lexer of the characters of a stream; the program's lexer reads a stack of sources. -/
structure Lexer (σ : Type := Stream) where
  stream : σ
  options : Options
  collector : Collector
  /-- Tokens that come before those of the stream. There is one buffer for the stream itself, and
  one for each list of tokens that stands in for it; the innermost comes first. -/
  pending : List (List Token) := [[]]
  /-- Line and column where the token being read begins. -/
  mark : Int × Int := (1, 1)
  deriving DecidableEq, Repr

variable {σ : Type}

namespace Lexer

def ofStream (stream : σ) (options : Options := {}) : Lexer σ :=
  { stream, options, collector := .empty options.maxWarnings }

/-- A bound on what is left: characters in the stream and pending tokens. -/
def weight [CharStream σ] (lx : Lexer σ) : Nat :=
  CharStream.weight lx.stream + lx.pending.foldr (fun buffer n => buffer.length + n) 0

end Lexer

/-- An operation of a lexer. A failure leaves the lexer where it happened. -/
abbrev LexOn (σ : Type) := EStateM Failure (Lexer σ)

/-- An operation of the program's lexer. -/
abbrev LexM := LexOn Stream

namespace LexM

variable {α β κ ρ : Type}

theorem bind_of_ok {m : LexOn σ α} {f : α → LexOn σ β} {lx lx₁ : Lexer σ} {a : α}
    (h : m lx = .ok a lx₁) : (m >>= f) lx = f a lx₁ := by
  change EStateM.bind m f lx = _
  rw [EStateM.bind, h]

theorem bind_of_error {m : LexOn σ α} {f : α → LexOn σ β} {lx lx₁ : Lexer σ} {e : Failure}
    (h : m lx = .error e lx₁) : (m >>= f) lx = .error e lx₁ := by
  change EStateM.bind m f lx = _
  rw [EStateM.bind, h]

theorem bind_of_eq {m n : LexOn σ α} {lx lx' : Lexer σ} (h : m lx = n lx') (f : α → LexOn σ β) :
    (m >>= f) lx = (n >>= f) lx' := by
  change EStateM.bind m f lx = EStateM.bind n f lx'
  rw [EStateM.bind, EStateM.bind, h]

theorem bind_eq_ok {m : LexOn σ α} {f : α → LexOn σ β} {lx lx' : Lexer σ} {b : β} :
    (m >>= f) lx = .ok b lx' ↔ ∃ a lx₁, m lx = .ok a lx₁ ∧ f a lx₁ = .ok b lx' := by
  change EStateM.bind m f lx = _ ↔ _
  unfold EStateM.bind
  split
  · next a lx₁ h =>
    constructor
    · exact fun h' => ⟨a, lx₁, h, h'⟩
    · rintro ⟨a', lx', h', hf⟩
      rw [h] at h'
      cases h'
      exact hf
  · next h => simp [h]

theorem pure_eq_ok {lx lx' : Lexer σ} {a b : α} :
    (pure a : LexOn σ α) lx = .ok b lx' ↔ a = b ∧ lx = lx' := by
  change EStateM.pure a lx = _ ↔ _
  simp [EStateM.pure]

theorem map_eq_ok {m : LexOn σ α} {g : α → β} {lx lx' : Lexer σ} {b : β} :
    (g <$> m) lx = .ok b lx' ↔ ∃ a, m lx = .ok a lx' ∧ g a = b := by
  rw [← bind_pure_comp, bind_eq_ok]
  simp [pure_eq_ok]

theorem throw_ne_ok {lx lx' : Lexer σ} {f : Failure} {a : α} :
    ¬ (throw f : LexOn σ α) lx = .ok a lx' := by
  change ¬ EStateM.Result.error f lx = _
  nofun

variable [CharStream σ]

/-- The operation never adds to what is left. -/
def Keeps (m : LexOn σ α) : Prop :=
  ∀ lx a lx', m lx = .ok a lx' → lx'.weight ≤ lx.weight

theorem keeps_pure (a : α) : Keeps (pure a : LexOn σ α) := by
  intro lx b lx' h
  rw [pure_eq_ok] at h
  simp [h.2]

theorem keeps_throw (f : Failure) : Keeps (throw f : LexOn σ α) :=
  fun _ _ _ h => absurd h throw_ne_ok

theorem Keeps.bind {m : LexOn σ α} {f : α → LexOn σ β} (hm : Keeps m) (hf : ∀ a, Keeps (f a)) :
    Keeps (m >>= f) := by
  intro lx b lx' h
  obtain ⟨a, lx₁, h₁, h₂⟩ := bind_eq_ok.1 h
  exact Nat.le_trans (hf a _ _ _ h₂) (hm _ _ _ h₁)

/-- How a round of a loop ends: with another round, or with the result. -/
inductive Round (κ ρ : Type) where
  | again (state : κ)
  | done (result : ρ)

/-- Every round after which there is another one leaves less to read. -/
def Progress (step : κ → LexOn σ (Round κ ρ)) : Prop :=
  ∀ a lx b lx', step a lx = .ok (.again b) lx' → lx'.weight < lx.weight

def repeatFrom (step : κ → LexOn σ (Round κ ρ)) (progress : Progress step) (a : κ) (lx : Lexer σ) :
    EStateM.Result Failure (Lexer σ) ρ :=
  match _h : step a lx with
  | .ok (.done result) lx' => .ok result lx'
  | .ok (.again b) lx' => repeatFrom step progress b lx'
  | .error f lx' => .error f lx'
termination_by lx.weight
decreasing_by exact progress _ _ _ _ _h

/-- The operation that repeats `step`, beginning with the state `a`. -/
def loop (step : κ → LexOn σ (Round κ ρ)) (progress : Progress step) (a : κ) : LexOn σ ρ :=
  fun lx => repeatFrom step progress a lx

theorem loop_eq (step : κ → LexOn σ (Round κ ρ)) (progress : Progress step) (a : κ)
    (lx : Lexer σ) :
    loop step progress a lx =
      match step a lx with
      | .ok (.done result) lx' => .ok result lx'
      | .ok (.again b) lx' => loop step progress b lx'
      | .error f lx' => .error f lx' := by
  unfold loop
  rw [repeatFrom]
  split <;> next h => simp only [h]

theorem round_induction {step : κ → LexOn σ (Round κ ρ)} (progress : Progress step)
    {P : κ → Lexer σ → Prop}
    (error : ∀ a lx f lx', step a lx = .error f lx' → P a lx)
    (done : ∀ a lx r lx', step a lx = .ok (.done r) lx' → P a lx)
    (again : ∀ a lx b lx', step a lx = .ok (.again b) lx' → P b lx' → P a lx)
    (a : κ) (lx : Lexer σ) : P a lx := by
  fun_induction repeatFrom step progress a lx with
  | case1 a lx r lx₁ hs => exact done _ _ _ _ hs
  | case2 a lx b lx₁ hs ih => exact again _ _ _ _ hs ih
  | case3 a lx f lx₁ hs => exact error _ _ _ _ hs

/-- What holds at the end of a loop: a relation between the lexer and a final lexer that each round
carries back from its end to its beginning. -/
theorem loop_induction {step : κ → LexOn σ (Round κ ρ)} {progress : Progress step}
    (P : κ → Lexer σ → ρ → Lexer σ → Prop)
    (done : ∀ a lx r lx', step a lx = .ok (.done r) lx' → P a lx r lx')
    (again : ∀ a lx b lx' r lx'', step a lx = .ok (.again b) lx' → P b lx' r lx'' → P a lx r lx'')
    {a : κ} {lx lx' : Lexer σ} {r : ρ} (h : loop step progress a lx = .ok r lx') :
    P a lx r lx' := by
  induction a, lx using round_induction progress with
  | error a lx f lx₁ hs =>
    rw [loop_eq, hs] at h
    cases h
  | done a lx s lx₁ hs =>
    rw [loop_eq, hs] at h
    cases h
    exact done _ _ _ _ hs
  | again a lx b lx₁ hs ih =>
    rw [loop_eq, hs] at h
    exact again _ _ _ _ _ _ hs (ih h)

theorem keeps_loop {step : κ → LexOn σ (Round κ ρ)} {progress : Progress step}
    (keeps : ∀ a, Keeps (step a)) (a : κ) : Keeps (loop step progress a) := by
  intro lx r lx' h
  exact loop_induction (fun _ lx _ lx' => lx'.weight ≤ lx.weight)
    (fun a lx r lx' h => keeps a _ _ _ h)
    (fun a lx b lx' r lx'' h ih => Nat.le_trans ih (keeps a _ _ _ h)) h

end LexM

namespace Lexer

variable [CharStream σ]

open LexM

/-- The next character; `none` when the last source has ended. -/
def next? : LexOn σ (Option UInt8) := fun lx =>
  let r := CharStream.read lx.stream
  .ok r.1 { lx with stream := r.2 }

def unread (c : UInt8) : LexOn σ Unit := fun lx =>
  match CharStream.unread lx.stream c with
  | .ok stream => .ok () { lx with stream }
  | .error f => .error f lx

/-- The next character if it satisfies `p`. Another character is put back. -/
def takeIf (p : UInt8 → Bool) : LexOn σ (Option UInt8) := do
  match ← next? with
  | none => pure none
  | some c => if p c then pure (some c) else do unread c; pure none

/-- Passes over the next character if it is `c`. -/
def skipIf (c : UInt8) : LexOn σ Bool := do
  match ← takeIf (· == c) with
  | none => pure false
  | some _ => pure true

/-- Whether there is a next character and it satisfies `p`. It is put back. -/
def peekIs (p : UInt8 → Bool) : LexOn σ Bool := do
  match ← next? with
  | none => pure false
  | some c => do unread c; pure (p c)

theorem weight_next?_some {lx lx' : Lexer σ} {c : UInt8} (h : next? lx = .ok (some c) lx') :
    lx'.weight < lx.weight := by
  simp [next?] at h
  obtain ⟨hc, rfl⟩ := h
  have := CharStream.weight_read_some (Prod.ext hc rfl)
  simp [weight]
  omega

theorem weight_next?_none {lx lx' : Lexer σ} (h : next? lx = .ok none lx') :
    lx'.weight ≤ lx.weight := by
  simp [next?] at h
  obtain ⟨hc, rfl⟩ := h
  have := CharStream.weight_read_none (Prod.ext hc rfl)
  simp [weight]
  omega

theorem keeps_next? : Keeps (σ := σ) next? := by
  intro lx c lx' h
  cases c with
  | none => exact weight_next?_none h
  | some c => exact Nat.le_of_lt (weight_next?_some h)

theorem weight_unread {lx lx' : Lexer σ} {c : UInt8} (h : unread c lx = .ok () lx') :
    lx'.weight = lx.weight + 1 := by
  unfold unread at h
  split at h
  · next stream hs =>
    simp at h
    obtain rfl := h
    simp [weight, CharStream.weight_unread hs]
    omega
  · simp at h

theorem weight_takeIf_some {p : UInt8 → Bool} {lx lx' : Lexer σ} {c : UInt8}
    (h : takeIf p lx = .ok (some c) lx') : lx'.weight < lx.weight := by
  obtain ⟨d, lx₁, h₁, h₂⟩ := bind_eq_ok.1 h
  cases d with
  | none => simp [pure_eq_ok] at h₂
  | some d =>
    by_cases hp : p d = true
    · simp [hp, pure_eq_ok] at h₂
      obtain ⟨-, rfl⟩ := h₂
      exact weight_next?_some h₁
    · simp [hp, map_eq_ok] at h₂

theorem weight_takeIf_none {p : UInt8 → Bool} {lx lx' : Lexer σ} (h : takeIf p lx = .ok none lx') :
    lx'.weight ≤ lx.weight := by
  obtain ⟨d, lx₁, h₁, h₂⟩ := bind_eq_ok.1 h
  cases d with
  | none =>
    simp [pure_eq_ok] at h₂
    obtain rfl := h₂
    exact weight_next?_none h₁
  | some d =>
    by_cases hp : p d = true
    · simp [hp, pure_eq_ok] at h₂
    · simp [hp, map_eq_ok] at h₂
      obtain ⟨_, h₂⟩ := h₂
      rw [weight_unread h₂]
      exact weight_next?_some h₁

theorem keeps_takeIf (p : UInt8 → Bool) : Keeps (σ := σ) (takeIf p) := by
  intro lx c lx' h
  cases c with
  | none => exact weight_takeIf_none h
  | some c => exact Nat.le_of_lt (weight_takeIf_some h)

theorem weight_skipIf_true {c : UInt8} {lx lx' : Lexer σ} (h : skipIf c lx = .ok true lx') :
    lx'.weight < lx.weight := by
  obtain ⟨d, lx₁, h₁, h₂⟩ := bind_eq_ok.1 h
  cases d with
  | none => simp [pure_eq_ok] at h₂
  | some d =>
    simp [pure_eq_ok] at h₂
    obtain rfl := h₂
    exact weight_takeIf_some h₁

theorem keeps_skipIf (c : UInt8) : Keeps (σ := σ) (skipIf c) :=
  (keeps_takeIf _).bind fun d => by cases d <;> exact keeps_pure _

theorem keeps_peekIs (p : UInt8 → Bool) : Keeps (σ := σ) (peekIs p) := by
  intro lx b lx' h
  obtain ⟨d, lx₁, h₁, h₂⟩ := bind_eq_ok.1 h
  cases d with
  | none => exact Nat.le_trans (keeps_pure _ _ _ _ h₂) (weight_next?_none h₁)
  | some d =>
    simp [map_eq_ok] at h₂
    obtain ⟨⟨_, h₂⟩, -⟩ := h₂
    rw [weight_unread h₂]
    exact weight_next?_some h₁

/-- The place `back` columns before the next character. -/
def here (back : Int := 0) : LexOn σ Location := fun lx =>
  .ok ((CharStream.location lx.stream).back back) lx

/-- Whether the next character is the first of its line. -/
def isAtLineStart : LexOn σ Bool := fun lx =>
  .ok ((CharStream.location lx.stream).column == 1) lx

/-- Marks the next character as the first of a token. Without a source the old mark stays. -/
def setMark : LexOn σ Unit := fun lx =>
  match CharStream.place? lx.stream with
  | none => .ok () lx
  | some place => .ok () { lx with mark := (place.line, place.column) }

/-- The marked place, in the source that is active now. -/
def marked : LexOn σ Location := fun lx =>
  .ok ⟨(CharStream.location lx.stream).file, lx.mark.1, lx.mark.2⟩ lx

/-- Fails unless there is a source to read. -/
def needSource : LexOn σ Unit := fun lx =>
  match CharStream.place? lx.stream with
  | none => .error .nothingThere lx
  | some _ => .ok () lx

theorem keeps_here (back : Int) : Keeps (σ := σ) (here back) := by
  intro lx a lx' h
  simp [here] at h
  simp [h]

theorem keeps_isAtLineStart : Keeps (σ := σ) isAtLineStart := by
  intro lx a lx' h
  simp [isAtLineStart] at h
  simp [h]

theorem keeps_setMark : Keeps (σ := σ) setMark := by
  intro lx a lx' h
  unfold setMark at h
  split at h <;> simp at h <;> subst h <;> exact Nat.le_refl _

theorem keeps_marked : Keeps (σ := σ) marked := by
  intro lx a lx' h
  simp [marked] at h
  simp [h]

theorem keeps_needSource : Keeps (σ := σ) needSource := by
  intro lx a lx' h
  unfold needSource at h
  split at h <;> simp at h
  simp [h]

/-- Reports something odd that does not keep the input from being read. -/
def warn (location : Location) (text : String) : LexOn σ Unit := fun lx =>
  if lx.options.enableWarnings then
    if lx.options.warningsAsErrors then
      .error (.located (.promotedWarning text none) location) lx
    else
      let r := lx.collector.add text (some location)
      .ok () { lx with collector := r.2, stream := CharStream.note lx.stream r.1 }
  else .ok () lx

theorem keeps_warn (location : Location) (text : String) :
    Keeps (σ := σ) (warn location text) := by
  intro lx a lx' h
  unfold warn at h
  split at h
  · split at h
    · simp at h
    · simp at h
      subst h
      simp [weight, CharStream.weight_note]
  · simp at h
    simp [h]

/-- Makes a token that begins at the mark. It belongs to the source that is active now and takes
the next number of that source. -/
def finish (lexeme : Lexeme) (encoding : Encoding := .plain) : LexOn σ Token := fun lx =>
  match CharStream.place? lx.stream with
  | none => .ok { lexeme, encoding, line := lx.mark.1, column := lx.mark.2 } lx
  | some place =>
    let r := CharStream.draw lx.stream
    .ok
      { lexeme, encoding, file := some place.file, line := lx.mark.1, column := lx.mark.2,
        index := r.1 }
      { lx with stream := r.2 }

theorem keeps_finish (lexeme : Lexeme) (encoding : Encoding) :
    Keeps (σ := σ) (finish lexeme encoding) := by
  intro lx a lx' h
  unfold finish at h
  split at h
  · simp at h
    simp [h]
  · simp at h
    obtain ⟨-, rfl⟩ := h
    simp [weight, CharStream.weight_draw]

theorem lexeme_finish {lexeme : Lexeme} {encoding : Encoding} {lx lx' : Lexer σ} {t : Token}
    (h : finish lexeme encoding lx = .ok t lx') : t.lexeme = lexeme := by
  unfold finish at h
  split at h <;> simp at h <;> simp [← h.1]

end Lexer

end CLex
