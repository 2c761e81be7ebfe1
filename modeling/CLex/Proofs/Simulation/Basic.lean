import CLex.Lexer.Basic
import Mathlib.Logic.Basic

/-!
Runs of one lexer beside runs of another one, over streams that may differ. A `Reading` relates the
states of two lexers and says that reading and putting back characters keeps them related; every
operation that is made of these then ends alike on both sides.

The relation depends on the characters that have just been read and may be put back. It need not
survive a newline that is not put back: such a lexer may have come to the end of what it reads, and
only a reading that is `lax` allows its failure to stay unanswered.
-/

namespace CLex

open Character Lexer

variable {σ τ α β α' β' κ κ' ρ ρ' : Type}

/-- Two runs end alike: with related results, or both with related failures. If this is `lax`, a
failure of the first one asks nothing of the second. -/
def Alike (lax : Prop) (Q : α → Lexer σ → β → Lexer τ → Prop)
    (E : Failure → Lexer σ → Failure → Lexer τ → Prop) :
    EStateM.Result Failure (Lexer σ) α → EStateM.Result Failure (Lexer τ) β → Prop
  | .ok a s, .ok b t => Q a s b t
  | .error f s, .error g t => lax ∨ E f s g t
  | .error _ _, .ok _ _ => lax
  | .ok _ _, .error _ _ => False

theorem Alike.exists_ok {lax : Prop} {Q : α → Lexer σ → β → Lexer τ → Prop}
    {E : Failure → Lexer σ → Failure → Lexer τ → Prop} {a : α} {s : Lexer σ}
    {r : EStateM.Result Failure (Lexer τ) β} (h : Alike lax Q E (.ok a s) r) :
    ∃ b t, r = .ok b t ∧ Q a s b t := by
  cases r with
  | ok b t => exact ⟨b, t, rfl, h⟩
  | error => exact h.elim

theorem Alike.mono {lax : Prop} {Q Q' : α → Lexer σ → β → Lexer τ → Prop}
    {E E' : Failure → Lexer σ → Failure → Lexer τ → Prop}
    {r : EStateM.Result Failure (Lexer σ) α} {r' : EStateM.Result Failure (Lexer τ) β}
    (h : Alike lax Q E r r') (hQ : ∀ a s b t, Q a s b t → Q' a s b t)
    (hE : ∀ f s g t, E f s g t → E' f s g t) : Alike lax Q' E' r r' := by
  cases r with
  | ok a s =>
      cases r' with
      | ok b t => exact hQ a s b t h
      | error g t => exact h
  | error f s =>
      cases r' with
      | ok b t => exact h
      | error g t => exact Or.imp_right (hE f s g t) h

/-- At most one character, which may stay out while another one is looked at. -/
def Plain (cs : List UInt8) : Prop :=
  cs.length ≤ 1 ∧ ∀ c ∈ cs, c ≠ newline ∧ c ≠ backslash ∧ c ≠ byte '#'

theorem plain_nil : Plain [] :=
  ⟨Nat.zero_le 1, fun _ h => absurd h List.not_mem_nil⟩

theorem plain_singleton {c : UInt8} (h : c ≠ newline ∧ c ≠ backslash ∧ c ≠ byte '#') :
    Plain [c] := by
  refine ⟨Nat.le_refl 1, ?_⟩
  intro d hd
  rw [List.mem_singleton.mp hd]
  exact h

structure Reading (σ τ : Type) [CharStream σ] [CharStream τ] where
  /-- The states agree after these characters, the latest first, have been read. -/
  held : List UInt8 → Lexer σ → Lexer τ → Prop
  place : Location → Location → Prop
  failure : Failure → Failure → Prop
  lax : Prop
  next {cs : List UInt8} {s : Lexer σ} {t : Lexer τ} (h : held cs s t) (plain : Plain cs) :
    ∃ c s' t', next? s = .ok c s' ∧ next? t = .ok c t' ∧
      c.elim (held cs s' t') fun c => held (c :: cs) s' t'
  nextLine {cs : List UInt8} {s : Lexer σ} {t : Lexer τ} (h : held (newline :: cs) s t) :
    (lax ∧ ∃ s', next? s = .ok none s') ∨
      ∃ c s' t', next? s = .ok c s' ∧ next? t = .ok c t' ∧
        c.elim (held [] s' t') fun c => held [c] s' t'
  keep {c : UInt8} {cs : List UInt8} {s : Lexer σ} {t : Lexer τ} (h : held (c :: cs) s t)
    (hc : c ≠ newline) : held [] s t
  unread {c : UInt8} {cs : List UInt8} {s : Lexer σ} {t : Lexer τ} (h : held (c :: cs) s t)
    (plain : Plain cs) : ∃ s' t', Lexer.unread c s = .ok () s' ∧ Lexer.unread c t = .ok () t' ∧
      held cs s' t' ∧ (c ≠ backslash → ∃ s'', next? s' = .ok (some c) s'')
  here {cs : List UInt8} {s : Lexer σ} {t : Lexer τ} (h : held cs s t) :
    place (CharStream.location s.stream) (CharStream.location t.stream)
  back {l l' : Location} (h : place l l') (count : Int) : place (l.back count) (l'.back count)
  located {l l' : Location} (h : place l l') (cause : Cause) :
    failure (.located cause l) (.located cause l')

namespace Reading

variable [CharStream σ] [CharStream τ] (R : Reading σ τ)

/-- The states agree, whatever has been read. -/
def Out (s : Lexer σ) (t : Lexer τ) : Prop :=
  ∃ cs, R.held cs s t

/-- From states related by `P` the two operations end alike. -/
def Runs (P : Lexer σ → Lexer τ → Prop) (Q : α → Lexer σ → β → Lexer τ → Prop)
    (m : LexOn σ α) (n : LexOn τ β) : Prop :=
  ∀ s t, P s t → Alike R.lax Q (fun f s g t => R.failure f g ∧ R.Out s t) (m s) (n t)

/-- The same with equal results. -/
def Same (P : Lexer σ → Lexer τ → Prop) (Q : α → Lexer σ → Lexer τ → Prop)
    (m : LexOn σ α) (n : LexOn τ α) : Prop :=
  R.Runs P (fun a s b t => a = b ∧ Q a s t) m n

variable {R} {P P' : Lexer σ → Lexer τ → Prop} {cs : List UInt8}

theorem out_of_held {s : Lexer σ} {t : Lexer τ} (h : R.held cs s t) : R.Out s t :=
  ⟨cs, h⟩

theorem Runs.pre {Q : α → Lexer σ → β → Lexer τ → Prop} {m : LexOn σ α} {n : LexOn τ β}
    (h : R.Runs P Q m n) (hP : ∀ s t, P' s t → P s t) : R.Runs P' Q m n :=
  fun s t hs => h s t (hP s t hs)

theorem Runs.post {Q Q' : α → Lexer σ → β → Lexer τ → Prop} {m : LexOn σ α} {n : LexOn τ β}
    (h : R.Runs P Q m n) (hQ : ∀ a s b t, Q a s b t → Q' a s b t) : R.Runs P Q' m n :=
  fun s t hs => (h s t hs).mono hQ fun _ _ _ _ hf => hf

theorem Same.post {Q Q' : α → Lexer σ → Lexer τ → Prop} {m : LexOn σ α} {n : LexOn τ α}
    (h : R.Same P Q m n) (hQ : ∀ a s t, Q a s t → Q' a s t) : R.Same P Q' m n :=
  Runs.post h fun a _ _ _ hq => ⟨hq.1, hQ a _ _ hq.2⟩

theorem runs_given {p : Prop} {Q : α → Lexer σ → β → Lexer τ → Prop} {m : LexOn σ α}
    {n : LexOn τ β} (h : p → R.Runs P Q m n) : R.Runs (fun s t => p ∧ P s t) Q m n :=
  fun s t hs => h hs.1 s t hs.2

theorem runs_pure {Q : α → Lexer σ → β → Lexer τ → Prop} {a : α} {b : β}
    (h : ∀ s t, P s t → Q a s b t) : R.Runs P Q (pure a) (pure b) :=
  fun s t hs => h s t hs

theorem same_pure {Q : α → Lexer σ → Lexer τ → Prop} {a : α} (h : ∀ s t, P s t → Q a s t) :
    R.Same P Q (pure a) (pure a) :=
  fun s t hs => ⟨rfl, h s t hs⟩

theorem runs_throw {Q : α → Lexer σ → β → Lexer τ → Prop} {f g : Failure} (h : R.failure f g)
    (hP : ∀ s t, P s t → R.Out s t) : R.Runs P Q (throw f) (throw g) :=
  fun s t hs => Or.inr ⟨h, hP s t hs⟩

theorem runs_bind {Q : α → Lexer σ → α' → Lexer τ → Prop} {Q' : β → Lexer σ → β' → Lexer τ → Prop}
    {m : LexOn σ α} {n : LexOn τ α'} {f : α → LexOn σ β} {g : α' → LexOn τ β'}
    (hm : R.Runs P Q m n) (hf : ∀ a b, R.Runs (fun s t => Q a s b t) Q' (f a) (g b)) :
    R.Runs P Q' (m >>= f) (n >>= g) := by
  intro s t hs
  have hrun := hm s t hs
  cases hms : m s with
  | ok a s' =>
      rw [LexM.bind_of_ok hms]
      cases hnt : n t with
      | ok b t' =>
          rw [LexM.bind_of_ok hnt]
          rw [hms, hnt] at hrun
          exact hf a b s' t' hrun
      | error => rw [hms, hnt] at hrun; exact hrun.elim
  | error e s' =>
      rw [LexM.bind_of_error hms]
      cases hnt : n t with
      | ok b t' =>
          -- Only a lax reading gets here, and then the second run may end in any way.
          rw [hms, hnt] at hrun
          have hlax : R.lax := hrun
          cases (n >>= g) t with
          | ok => exact hlax
          | error => exact Or.inl hlax
      | error =>
          rw [LexM.bind_of_error hnt]
          rw [hms, hnt] at hrun
          exact hrun

theorem same_bind {Q : α → Lexer σ → Lexer τ → Prop} {Q' : β → Lexer σ → β' → Lexer τ → Prop}
    {m : LexOn σ α} {n : LexOn τ α} {f : α → LexOn σ β} {g : α → LexOn τ β'}
    (hm : R.Same P Q m n) (hf : ∀ a, R.Runs (Q a) Q' (f a) (g a)) :
    R.Runs P Q' (m >>= f) (n >>= g) := by
  refine runs_bind hm fun a b s t h => ?_
  obtain ⟨rfl, h⟩ := h
  exact hf a s t h

theorem same_bind_pure {Q : Lexer σ → Lexer τ → Prop} {m : LexOn σ α} {n : LexOn τ α}
    (h : R.Same P (fun _ => Q) m n) (b : β) :
    R.Same P (fun _ => Q) (m >>= fun _ => pure b) (n >>= fun _ => pure b) :=
  same_bind h fun _ => same_pure fun _ _ hq => hq

/-- Rounds that end alike, related by `I` when there is another one and by `Q` at the end. -/
def RoundRel (I : κ → Lexer σ → κ' → Lexer τ → Prop) (Q : ρ → Lexer σ → ρ' → Lexer τ → Prop) :
    LexM.Round κ ρ → Lexer σ → LexM.Round κ' ρ' → Lexer τ → Prop
  | .again a, s, .again b, t => I a s b t
  | .done x, s, .done y, t => Q x s y t
  | _, _, _, _ => False

theorem runs_loop {I : κ → Lexer σ → κ' → Lexer τ → Prop}
    {Q : ρ → Lexer σ → ρ' → Lexer τ → Prop} {step : κ → LexOn σ (LexM.Round κ ρ)}
    {step' : κ' → LexOn τ (LexM.Round κ' ρ')} {progress : LexM.Progress step}
    {progress' : LexM.Progress step'}
    (h : ∀ a b, R.Runs (fun s t => I a s b t) (RoundRel I Q) (step a) (step' b))
    (a : κ) (b : κ') :
    R.Runs (fun s t => I a s b t) Q (LexM.loop step progress a)
      (LexM.loop step' progress' b) := by
  intro s t hs
  induction a, s using LexM.round_induction progress generalizing b t with
  | error a s f s₁ hstep =>
      have hround := h a b s t hs
      rw [LexM.loop_eq step progress, LexM.loop_eq step' progress', hstep]
      rw [hstep] at hround
      cases hstep' : step' b t with
      | error g t₁ =>
          rw [hstep'] at hround
          exact hround
      | ok r t₁ =>
          -- The second lexer goes on after a failure of the first, in a lax reading.
          rw [hstep'] at hround
          have hlax : R.lax := hround
          cases r with
          | done => exact hlax
          | again b₁ =>
              dsimp only
              cases LexM.loop step' progress' b₁ t₁ with
              | ok => exact hlax
              | error => exact Or.inl hlax
  | done a s x s₁ hstep =>
      have hround := h a b s t hs
      rw [hstep] at hround
      rcases hround.exists_ok with ⟨r, t₁, hstep', hrel⟩
      rw [LexM.loop_eq step progress, LexM.loop_eq step' progress', hstep, hstep']
      cases r with
      | done y => exact hrel
      | again => exact hrel.elim
  | again a s a₁ s₁ hstep ih =>
      have hround := h a b s t hs
      rw [hstep] at hround
      rcases hround.exists_ok with ⟨r, t₁, hstep', hrel⟩
      rw [LexM.loop_eq step progress, LexM.loop_eq step' progress', hstep, hstep']
      cases r with
      | done => exact hrel.elim
      | again b₁ => exact ih b₁ t₁ hrel

theorem same_loop {I : κ → Lexer σ → Lexer τ → Prop} {Q : ρ → Lexer σ → Lexer τ → Prop}
    {step : κ → LexOn σ (LexM.Round κ ρ)} {step' : κ → LexOn τ (LexM.Round κ ρ)}
    {progress : LexM.Progress step} {progress' : LexM.Progress step'}
    (h : ∀ a, R.Same (I a)
      (fun r s t => match r with | .again b => I b s t | .done x => Q x s t) (step a) (step' a))
    (a : κ) :
    R.Same (I a) Q (LexM.loop step progress a) (LexM.loop step' progress' a) := by
  refine Runs.pre (runs_loop (I := fun a s b t => a = b ∧ I a s t) ?_ a a) fun s t hs => ⟨rfl, hs⟩
  rintro a b s t ⟨rfl, hs⟩
  refine (Runs.post (h a) ?_) s t hs
  rintro r s t r' ⟨rfl, hr⟩
  cases r with
  | again => exact ⟨rfl, hr⟩
  | done => exact ⟨rfl, hr⟩

theorem same_next (plain : Plain cs) :
    R.Same (R.held cs) (fun c s t => c.elim (R.held cs s t) fun c => R.held (c :: cs) s t)
      next? next? := by
  intro s t h
  rcases R.next h plain with ⟨c, s', t', hs, ht, h'⟩
  rw [hs, ht]
  exact ⟨rfl, h'⟩

theorem next_none {s s' : Lexer σ} {t t' : Lexer τ} (h : R.held [] s t)
    (hs : next? s = .ok none s') (ht : next? t = .ok none t') : R.held [] s' t' := by
  rcases R.next h plain_nil with ⟨c, s₁, t₁, hs₁, ht₁, h₁⟩
  cases hs₁.symm.trans hs
  cases ht₁.symm.trans ht
  exact h₁

theorem same_unread {c : UInt8} (plain : Plain cs) :
    R.Same (R.held (c :: cs)) (fun _ => R.held cs) (Lexer.unread c) (Lexer.unread c) := by
  intro s t h
  rcases R.unread h plain with ⟨s', t', hs, ht, h', -⟩
  rw [hs, ht]
  exact ⟨rfl, h'⟩

theorem same_takeIf (plain : Plain cs) (p : UInt8 → Bool) :
    R.Same (R.held cs)
      (fun c s t => c.elim (R.held cs s t) fun c => p c = true ∧ R.held (c :: cs) s t)
      (takeIf p) (takeIf p) := by
  refine same_bind (same_next plain) fun c => ?_
  cases c with
  | none => exact same_pure fun s t h => h
  | some c =>
      by_cases hp : p c = true
      · simp only [hp, if_true]
        exact same_pure fun s t h => ⟨hp, h⟩
      · simp only [hp]
        exact same_bind (same_unread plain) fun _ => same_pure fun s t h => h

theorem same_take {p : UInt8 → Bool} (hp : p newline = false) :
    R.Same (R.held []) (fun c s t => (∀ d, c = some d → p d = true) ∧ R.held [] s t)
      (takeIf p) (takeIf p) := by
  refine (same_takeIf plain_nil p).post ?_
  rintro (_ | c) s t h
  · exact ⟨by simp, h⟩
  · refine ⟨by simp [h.1], R.keep h.2 ?_⟩
    rintro rfl
    simp [hp] at h

theorem same_skipIf (plain : Plain cs) (c : UInt8) :
    R.Same (R.held cs) (fun b s t => R.held (if b then c :: cs else cs) s t) (skipIf c)
      (skipIf c) := by
  refine same_bind (same_takeIf plain _) fun d => ?_
  cases d with
  | none => exact same_pure fun s t h => h
  | some d =>
      refine same_pure fun s t h => ?_
      rw [if_pos rfl, ← show d = c by simpa using h.1]
      exact h.2

theorem peekIs_held (plain : Plain cs) {p : UInt8 → Bool} (hp : p backslash = false)
    {s : Lexer σ} {t : Lexer τ} (h : R.held cs s t) :
    ∃ b s' t', peekIs p s = .ok b s' ∧ peekIs p t = .ok b t' ∧ R.held cs s' t' ∧
      (b = true → ∃ c s'', p c = true ∧ next? s' = .ok (some c) s'') := by
  rcases R.next h plain with ⟨c, s₁, t₁, hs, ht, h₁⟩
  rw [peekIs, peekIs, LexM.bind_of_ok hs, LexM.bind_of_ok ht]
  cases c with
  | none => exact ⟨false, s₁, t₁, rfl, rfl, h₁, by simp⟩
  | some c =>
      rcases R.unread h₁ plain with ⟨s₂, t₂, hs₂, ht₂, h₂, hread⟩
      dsimp only
      rw [LexM.bind_of_ok hs₂, LexM.bind_of_ok ht₂]
      refine ⟨p c, s₂, t₂, rfl, rfl, h₂, fun hc => ?_⟩
      rcases hread (by rintro rfl; simp [hp] at hc) with ⟨s₃, hs₃⟩
      exact ⟨c, s₃, hc, hs₃⟩

theorem same_peekIs (plain : Plain cs) {p : UInt8 → Bool} (hp : p backslash = false) :
    R.Same (R.held cs)
      (fun b s t => R.held cs s t ∧
        (b = true → ∃ c s', p c = true ∧ next? s = .ok (some c) s')) (peekIs p) (peekIs p) := by
  intro s t h
  rcases peekIs_held plain hp h with ⟨b, s', t', hs, ht, h'⟩
  rw [hs, ht]
  exact ⟨rfl, h'⟩

/-- What is looked at behind a backslash is put back, and then the backslash. -/
theorem retreat {p : UInt8 → Bool} {b b' : Bool} {s s' : Lexer σ} {t t' : Lexer τ}
    (hlook : ∃ c s₁ t₁, next? s = .ok c s₁ ∧ next? t = .ok c t₁ ∧
      c.elim (R.held [backslash] s₁ t₁) fun c => ∃ s₂ t₂, Lexer.unread c s₁ = .ok () s₂ ∧
        Lexer.unread c t₁ = .ok () t₂ ∧ R.held [backslash] s₂ t₂)
    (hs : peekIs p s = .ok b s') (ht : peekIs p t = .ok b' t') :
    ∃ s'' t'', Lexer.unread backslash s' = .ok () s'' ∧ Lexer.unread backslash t' = .ok () t'' ∧
      R.held [] s'' t'' := by
  have hheld : R.held [backslash] s' t' := by
    rcases hlook with ⟨c, s₁, t₁, hs₁, ht₁, h₁⟩
    rw [peekIs, LexM.bind_of_ok hs₁] at hs
    rw [peekIs, LexM.bind_of_ok ht₁] at ht
    cases c with
    | none =>
        rcases LexM.pure_eq_ok.mp hs with ⟨-, rfl⟩
        rcases LexM.pure_eq_ok.mp ht with ⟨-, rfl⟩
        exact h₁
    | some c =>
        rcases h₁ with ⟨s₂, t₂, hs₂, ht₂, h₂⟩
        dsimp only at hs ht
        rw [LexM.bind_of_ok hs₂] at hs
        rw [LexM.bind_of_ok ht₂] at ht
        rcases LexM.pure_eq_ok.mp hs with ⟨-, rfl⟩
        rcases LexM.pure_eq_ok.mp ht with ⟨-, rfl⟩
        exact h₂
  rcases R.unread hheld plain_nil with ⟨s'', t'', hs', ht', h', -⟩
  exact ⟨s'', t'', hs', ht', h'⟩

theorem same_peek (plain : Plain cs) (p : UInt8 → Bool) :
    R.Same (R.held cs) (fun _ => R.held cs) (peekIs p) (peekIs p) := by
  refine same_bind (same_next plain) fun c => ?_
  cases c with
  | none => exact same_pure fun s t h => h
  | some c => exact same_bind (same_unread plain) fun _ => same_pure fun s t h => h

theorem runs_here (count : Int) :
    R.Runs (R.held cs) (fun l s l' t => R.place l l' ∧ R.held cs s t)
      (Lexer.here count) (Lexer.here count) :=
  fun _ _ h => ⟨R.back (R.here h) count, h⟩

/-- From the state that a character has left, whatever it was, the next one is read alike. A lax
reading may have come to its end instead, if that is a failure. -/
theorem runs_next_out {Q : β → Lexer σ → β' → Lexer τ → Prop} {f : Option UInt8 → LexOn σ β}
    {g : Option UInt8 → LexOn τ β'} (stops : R.lax → ∀ s, ∃ e s', f none s = .error e s')
    (hnone : R.Runs (R.held []) Q (f none) (g none))
    (hsome : ∀ c, R.Runs (R.held [c]) Q (f (some c)) (g (some c))) :
    R.Runs R.Out Q (next? >>= f) (next? >>= g) := by
  have agree : ∀ s t, (∃ c s' t', next? s = .ok c s' ∧ next? t = .ok c t' ∧
      c.elim (R.held [] s' t') fun c => R.held [c] s' t') →
      Alike R.lax Q (fun f s g t => R.failure f g ∧ R.Out s t) ((next? >>= f) s)
        ((next? >>= g) t) := by
    rintro s t ⟨c, s', t', hs, ht, h⟩
    rw [LexM.bind_of_ok hs, LexM.bind_of_ok ht]
    cases c with
    | none => exact hnone s' t' h
    | some c => exact hsome c s' t' h
  rintro s t ⟨cs, h⟩
  cases cs with
  | nil => exact agree s t (R.next h plain_nil)
  | cons c cs =>
      by_cases hc : c = newline
      · subst hc
        rcases R.nextLine h with ⟨hlax, s', hs⟩ | h
        · rcases stops hlax s' with ⟨e, s'', he⟩
          rw [LexM.bind_of_ok hs, he]
          cases (next? >>= g) t with
          | error => exact Or.inl hlax
          | ok => exact hlax
        · exact agree s t h
      · exact agree s t (R.next (R.keep h hc) plain_nil)

end Reading

end CLex
