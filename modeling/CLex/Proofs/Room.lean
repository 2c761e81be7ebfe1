import CLex.Proofs.Footing.Token
import CLex.Proofs.Simulation.Stack

namespace CLex

open Character Lexer LexM

namespace Source

/-- Reads a character as `readChar` does, and fails if the character behind a backslash finds no
room when it is put back. -/
def readChar? (s : Source) : Option (Option UInt8 × Source) :=
  match _hb : s.get with
  | (none, s₁) => some (none, s₁)
  | (some b, s₁) =>
    if b = backslash then
      match _hc : s₁.get with
      | (none, s₂) => some (some b, s₂)
      | (some c, s₂) =>
        if c = newline then s₂.readChar? else (s₂.unread? c).map fun s₃ => (some b, s₃)
    else some (some b, s₁)
termination_by s.weight
decreasing_by exact Nat.lt_trans (weight_get_some _hc) (weight_get_some _hb)

theorem length_pushback_get (s : Source) : s.get.2.pushback.length = s.pushback.length - 1 := by
  rw [s.pushback_get, List.length_tail]

theorem readChar_eq (s : Source) :
    s.readChar =
      match s.get with
      | (none, s₁) => (none, s₁)
      | (some b, s₁) =>
        if b = backslash then
          match s₁.get with
          | (none, s₂) => (some b, s₂)
          | (some c, s₂) => if c = newline then s₂.readChar else (some b, s₂.putBack c)
        else (some b, s₁) := by
  rw [readChar]
  split
  · next hb => rw [hb]
  · next hb =>
    rw [hb]
    dsimp only
    split
    · split
      · next hc => rw [hc]
      · next hc => rw [hc]
    · rfl

/-- There is always room for what `readChar` puts back. -/
theorem readChar?_eq {s : Source} (h : s.pushback.length ≤ capacity) :
    s.readChar? = some s.readChar := by
  fun_induction readChar? s with
  | case1 s s₁ hb => rw [readChar_eq, hb]
  | case2 s s₁ s₂ hc hb =>
      rw [readChar_eq, hb]
      dsimp only
      rw [if_pos rfl, hc]
  | case3 s s₁ s₂ hb hc ih =>
      have h₁ := s.length_pushback_get
      have h₂ := s₁.length_pushback_get
      rw [hb] at h₁
      rw [hc] at h₂
      dsimp only at h₁ h₂
      rw [readChar_eq, hb]
      dsimp only
      rw [if_pos rfl, hc]
      exact ih (by omega)
  | case4 s s₁ c s₂ hc hne hb =>
      have h₁ := s.length_pushback_get
      have h₂ := s₁.length_pushback_get
      rw [hb] at h₁
      rw [hc] at h₂
      dsimp only at h₁ h₂
      have hroom : s₂.pushback.length < capacity := by
        rw [capacity] at *
        omega
      rw [readChar_eq, hb]
      dsimp only
      rw [if_pos rfl, hc, unread?, if_pos hroom]
      dsimp only
      rw [if_neg hne]
      rfl
  | case5 s b s₁ hb hne =>
      rw [readChar_eq, hb]
      dsimp only
      rw [if_neg hne]

end Source

/-- What a text can make an operation fail with. -/
inductive Failure.FromText (options : Options) : Failure → Prop
  | malformed {cause : Cause} (h : cause.isSyntax = true) (location : Location) :
      FromText options (.located cause location)
  | promoted (henabled : options.enableWarnings = true) (herrors : options.warningsAsErrors = true)
      (text : String) (location : Location) :
      FromText options (.located (.promotedWarning text none) location)
  | tooLarge {code : Nat} (h : 0x200000 ≤ code) : FromText options (.codePointTooLarge code)

namespace Stream

@[simp] theorem stashed_drop (s : Stream) : s.drop.stashed = s.stashed := by
  unfold drop pop? release
  cases s.files with
  | nil => rfl
  | cons top below =>
      dsimp only
      split <;> rfl

theorem stashed_readChar (s : Stream) : s.readChar.2.stashed = s.stashed := by
  unfold readChar
  split <;> rfl

theorem stashed_readAcross (s : Stream) : s.readAcross.2.stashed = s.stashed := by
  have hread := stashed_readChar
  fun_induction readAcross s with
  | case1 s c s' h => rw [← hread s, h]
  | case2 s s' h => rw [← hread s, h]
  | case3 s s' h _ ih => rw [ih, stashed_drop, ← hread s, h]

theorem stashed_draw (s : Stream) : s.draw.2.stashed = s.stashed := by
  unfold draw
  split <;> rfl

end Stream

/-- There is room for `n` characters on the active source, with these stacks set aside. -/
structure Roomy (options : Options) (stashed : List (List Source)) (n : Nat) (lx : Lexer) : Prop where
  room : lx.stream.HasRoom n
  stashed : lx.stream.stashed = stashed
  options : lx.options = options
  pending : lx.pending ≠ []

namespace Room

variable {options : Options} {stashed : List (List Source)} {m n : Nat} {α : Type}
  {E : Failure → Lexer → Prop}

theorem mono {lx : Lexer} (h : Roomy options stashed n lx) (hm : m ≤ n) :
    Roomy options stashed m lx :=
  ⟨h.room.mono hm, h.stashed, h.options, h.pending⟩

theorem leads_next (hle : n ≤ m + 1) (hn : n ≤ 2) :
    Leads E (Roomy options stashed m) next? fun _ => Roomy options stashed n := by
  intro lx h
  refine ⟨h.room.readAcross hle hn, ?_, h.options, h.pending⟩
  exact (Stream.stashed_readAcross lx.stream).trans h.stashed

theorem leads_unread (c : UInt8) :
    Leads E (Roomy options stashed (n + 1)) (unread c)
      fun _ lx => Roomy options stashed n lx ∧ (c ≠ backslash → lx.Ahead c) := by
  refine leads_of_ok fun lx h => ?_
  rcases h.room.unread c with ⟨stream, hstream, -, hroom⟩
  have hunread : unread c lx = .ok () { lx with stream } := by
    unfold Lexer.unread
    rw [show CharStream.unread lx.stream c = .ok stream from hstream]
  refine ⟨(), _, hunread, ⟨hroom, ?_, h.options, h.pending⟩, ?_⟩
  · rw [← h.stashed]
    unfold Stream.unread at hstream
    split at hstream
    · cases hstream
    · split at hstream
      · cases hstream
        rfl
      · cases hstream
  · exact fun hc => Stack.next_of_unread h.room hc hunread

theorem leads_warn (hE : ∀ lx, Roomy options stashed n lx →
      options.enableWarnings = true → options.warningsAsErrors = true →
      ∀ location text, E (.located (.promotedWarning text none) location) lx)
    (location : Location) (text : String) :
    Leads E (Roomy options stashed n) (warn location text) fun _ => Roomy options stashed n := by
  refine leads_warn_of (fun lx h henabled herrors => ?_) fun lx _ _ h => ?_
  · exact hE lx h (h.options ▸ henabled) (h.options ▸ herrors) location text
  · exact ⟨h.room.record _, h.stashed, h.options, h.pending⟩

theorem roomy_draw {lx : Lexer} (h : Roomy options stashed n lx) :
    Roomy options stashed n { lx with stream := lx.stream.draw.2 } :=
  ⟨h.room.draw, (Stream.stashed_draw lx.stream).trans h.stashed, h.options, h.pending⟩

theorem leads_finish (lexeme : Lexeme) (encoding : Encoding) :
    Leads E (Roomy options stashed n) (finish lexeme encoding) fun _ => Roomy options stashed n :=
  leads_finish_of fun _ h => roomy_draw h

/-- What may be put back after these characters have been read. -/
def spare : List UInt8 → Nat
  | [] => 0
  | [_] => 1
  | _ :: _ :: _ => 2

theorem one_le_spare (c : UInt8) (cs : List UInt8) : 1 ≤ spare (c :: cs) := by
  cases cs with
  | nil => exact Nat.le_refl 1
  | cons d cs => exact Nat.le_succ 1

def stance (options : Options) (stashed : List (List Source)) : Stance Stream where
  loose := Roomy options stashed 0
  ended := Roomy options stashed 0
  front := fun _ => Roomy options stashed 0
  out := fun cs => Roomy options stashed (spare cs)
  looked := fun _ => Roomy options stashed 1
  behind := fun _ _ => Roomy options stashed 0
  stray := fun _ => True
  token := fun _ => True
  failure := Failure.FromText options

theorem leads_warn_failed {options : Options} (location : Location) (text : String) :
    Leads (stance options stashed).Failed (Roomy options stashed n) (warn location text)
      fun _ => Roomy options stashed n :=
  leads_warn (fun _ h henabled herrors location text =>
    ⟨.promoted henabled herrors text location, mono h (Nat.zero_le n)⟩) location text

theorem leads_next_zero :
    Leads E (Roomy options stashed 0) next?
      fun d => d.elim (Roomy options stashed 0) fun d => Roomy options stashed (spare [d]) := by
  refine (leads_next (Nat.le_refl 1) (by decide)).post ?_
  rintro (_ | d) lx h
  · exact mono h (Nat.zero_le 1)
  · exact h

def footing (options : Options) (stashed : List (List Source)) : Footing Stream where
  toStance := stance options stashed
  loose_of_ended := fun h => h
  loose_of_front := fun h => h
  loose_of_looked := fun h => mono h (Nat.zero_le 1)
  looked_of_out := fun h => mono h (one_le_spare _ _)
  looked_single := fun h => h
  front_of_behind := fun _ _ h => h
  stray_slash := trivial
  next_loose := leads_next_zero
  next_front := fun _ => leads_next_zero
  next_looked := by
    intro c cs
    refine (leads_next (Nat.le_refl 2) (Nat.le_refl 2)).post ?_
    rintro (_ | d) lx h
    · exact mono h (Nat.le_succ 1)
    · exact h
  next_behind := fun _ _ => leads_next_zero
  next_stray := fun _ _ => leads_next_zero
  unread_front := fun c => (leads_unread c).post fun _ _ h => h.1
  unread_out := fun d _ _ => leads_unread d
  unread_looked := fun {c} _ _ => leads_unread c
  warn_loose := leads_warn_failed
  warn_looked := fun _ => leads_warn_failed
  finish_ended := fun lexeme encoding => (leads_finish lexeme encoding).post fun _ _ h => ⟨trivial, h⟩
  finish_looked := fun _ lexeme encoding =>
    (leads_finish lexeme encoding).post fun _ _ h => ⟨trivial, h⟩
  finish_behind := fun _ _ lexeme encoding =>
    (leads_finish lexeme encoding).post fun _ _ h => ⟨trivial, h⟩
  located := fun h location => .malformed h location
  tooLarge := by
    intro code h
    rw [Utf8.encode?, ite_eq_right_iff] at h
    exact .tooLarge (Nat.le_of_not_lt fun hlt => absurd (h hlt) (by simp))

/-- The operation leaves room and fails only for what the text gives it. -/
def Keeps (options : Options) (stashed : List (List Source)) (m : LexM α) : Prop :=
  Leads (footing options stashed).Failed (Roomy options stashed 0) m fun _ => Roomy options stashed 0

variable {β : Type}

theorem keeps_pure (a : α) : Keeps options stashed (pure a) :=
  leads_pure fun _ h => h

theorem keeps_bind {m : LexM α} {f : α → LexM β} (hm : Keeps options stashed m)
    (hf : ∀ a, Keeps options stashed (f a)) : Keeps options stashed (m >>= f) :=
  leads_bind hm hf

theorem keeps_loop {κ ρ : Type} {step : κ → LexM (Round κ ρ)} {progress : Progress step}
    (h : ∀ a, Keeps options stashed (step a)) (a : κ) :
    Keeps options stashed (loop step progress a) := by
  refine leads_loop (I := fun _ => Roomy options stashed 0) (fun a => (h a).post ?_) a
  rintro (_ | _) lx h
  · exact h
  · exact h

theorem keeps_fail {cause : Cause} (h : cause.isSyntax = true) (location : Location) :
    Keeps options stashed (throw (.located cause location) : LexM α) :=
  Footing.leads_fail h fun _ h => h

theorem keeps_next : Keeps options stashed next? := by
  refine leads_next_zero.post ?_
  rintro (_ | d) lx h
  · exact h
  · exact mono h (Nat.zero_le 1)

theorem keeps_here (back : Int) : Keeps options stashed (here back) :=
  leads_here back

theorem keeps_isAtLineStart : Keeps options stashed isAtLineStart :=
  fun _ h => h

theorem keeps_needSource : Keeps options stashed needSource := by
  refine leads_of_ok fun lx h => ?_
  rcases h.room.depth_pos with ⟨place, hplace⟩
  refine ⟨(), lx, ?_, h⟩
  unfold needSource
  rw [hplace]

theorem keeps_setMark : Keeps options stashed setMark :=
  leads_setMark_of fun _ _ h => ⟨h.room, h.stashed, h.options, h.pending⟩

theorem level : (footing options stashed).Level where
  front := fun h => h
  behind := fun h => h
  setMark := keeps_setMark
  needSource := keeps_needSource

theorem keeps_skipBlanks : Keeps options stashed skipBlanks :=
  level.leads_skipBlanks

theorem keeps_token : Keeps options stashed token :=
  level.leads_token

theorem keeps_rawToken : Keeps options stashed rawToken := by
  refine keeps_bind keeps_needSource fun _ => keeps_bind keeps_skipBlanks fun spaced => ?_
  cases spaced with
  | true => exact keeps_pure _
  | false => exact keeps_token

theorem keeps_endToken : Keeps options stashed endToken :=
  keeps_bind keeps_setMark fun _ => leads_finish .eof .plain

theorem keeps_freshToken : Keeps options stashed freshToken :=
  level.leads_freshToken

theorem keeps_nextToken : Keeps options stashed nextToken := by
  intro lx h
  rcases hpending : lx.pending with _ | ⟨_ | ⟨t, rest⟩, outer⟩
  · exact absurd hpending h.pending
  · cases outer with
    | nil =>
        simp only [nextToken, hpending]
        exact keeps_freshToken lx h
    | cons buffer outer =>
        simp only [nextToken, hpending]
        exact keeps_endToken lx h
  · simp only [nextToken, hpending]
    exact ⟨h.room, h.stashed, h.options, by simp⟩

theorem keeps_pushBack (t : Token) : Keeps options stashed (pushBack t) := by
  refine leads_of_ok fun lx h => ?_
  unfold pushBack
  by_cases hend : t.isEnd = true
  · exact ⟨(), lx, if_pos hend, h⟩
  · rw [if_neg hend]
    cases hpending : lx.pending with
    | nil => exact absurd hpending h.pending
    | cons buffer outer => exact ⟨(), _, rfl, h.room, h.stashed, h.options, by simp⟩

end Room

end CLex
