import CLex.Proofs.Simulation.Leaf

namespace CLex.Lexer

open LexM Character Lines

variable {α β κ ρ : Type}

/-- A single page lies open, with this text to come. -/
def Opens (rest : List UInt8) (lx : Lexer Book) : Prop :=
  ∃ p, lx.stream.pages = [p] ∧ p.rest = rest ∧ Unjoined rest

/-- From a text that satisfies `I` the operation leaves a text that satisfies `Q`, if it succeeds. -/
def Leaves (I : List UInt8 → Prop) (m : LexOn Book α) (Q : α → List UInt8 → Prop) : Prop :=
  ∀ rest lx, I rest → Opens rest lx → ∀ a lx', m lx = .ok a lx' →
    ∃ rest', Q a rest' ∧ Opens rest' lx'

variable {I J : List UInt8 → Prop} {Q : α → List UInt8 → Prop}

theorem Opens.settled {rest : List UInt8} {lx : Lexer Book} {p : Page} (hrest : p.rest = rest)
    (h : Unjoined rest) : lx.Settled p :=
  fun _ => hrest ▸ h

theorem leaves_pure {a : α} (h : ∀ rest, I rest → Q a rest) : Leaves I (pure a) Q := by
  intro rest lx hI hopens b lx' hb
  rcases pure_eq_ok.mp hb with ⟨rfl, rfl⟩
  exact ⟨rest, h rest hI, hopens⟩

theorem leaves_throw (f : Failure) : Leaves I (throw f) Q :=
  fun _ _ _ _ _ _ h => absurd h throw_ne_ok

theorem leaves_bind {m : LexOn Book α} {f : α → LexOn Book β} {R : β → List UInt8 → Prop}
    (hm : Leaves I m Q) (hf : ∀ a, Leaves (Q a) (f a) R) : Leaves I (m >>= f) R := by
  intro rest lx hI hopens b lx' hb
  rcases bind_eq_ok.mp hb with ⟨a, lx₁, ha, hb⟩
  rcases hm rest lx hI hopens a lx₁ ha with ⟨rest₁, hQ, hopens₁⟩
  exact hf a rest₁ lx₁ hQ hopens₁ b lx' hb

theorem Leaves.pre {m : LexOn Book α} (h : Leaves I m Q) (hJ : ∀ rest, J rest → I rest) :
    Leaves J m Q :=
  fun rest lx hrest => h rest lx (hJ rest hrest)

theorem Leaves.post {m : LexOn Book α} {R : α → List UInt8 → Prop} (h : Leaves I m Q)
    (hR : ∀ a rest, Q a rest → R a rest) : Leaves I m R := by
  intro rest lx hI hopens a lx' ha
  rcases h rest lx hI hopens a lx' ha with ⟨rest', hQ, hopens'⟩
  exact ⟨rest', hR a rest' hQ, hopens'⟩

theorem leaves_unjoined {m : LexOn Book α} (h : Leaves (fun rest => Unjoined rest ∧ I rest) m Q) :
    Leaves I m Q := by
  intro rest lx hI hopens
  have hunjoined : Unjoined rest := by
    rcases hopens with ⟨_, _, _, hunjoined⟩
    exact hunjoined
  exact h rest lx ⟨hunjoined, hI⟩ hopens

/-- The text after a round satisfies `I` if there is another one, and `Q` at the end. -/
def AfterRound (I : κ → List UInt8 → Prop) (Q : ρ → List UInt8 → Prop) :
    Round κ ρ → List UInt8 → Prop
  | .again b => I b
  | .done x => Q x

theorem leaves_loop {step : κ → LexOn Book (Round κ ρ)} {progress : Progress step}
    {I : κ → List UInt8 → Prop} {Q : ρ → List UInt8 → Prop}
    (h : ∀ a, Leaves (I a) (step a) (AfterRound I Q)) (a : κ) :
    Leaves (I a) (loop step progress a) Q := by
  intro rest lx hI hopens x lx' hx
  refine loop_induction (fun a lx x lx' => ∀ rest, I a rest → Opens rest lx →
    ∃ rest', Q x rest' ∧ Opens rest' lx') ?_ ?_ hx rest hI hopens
  · intro a lx x lx' hstep rest hI hopens
    exact h a rest lx hI hopens _ lx' hstep
  · intro a lx b lx₁ x lx' hstep ih rest hI hopens
    rcases h a rest lx hI hopens _ lx₁ hstep with ⟨rest₁, hb, hopens₁⟩
    exact ih rest₁ hb hopens₁

theorem leaves_next :
    Leaves I next? (fun c rest => c.elim (rest = [] ∧ I rest) fun c => I (c :: rest)) := by
  rintro rest lx hI ⟨p, hpages, rfl, hunjoined⟩ a lx' ha
  cases hp : p.rest with
  | nil =>
      rw [next?_end hpages hp] at ha
      cases ha
      exact ⟨[], ⟨rfl, hp ▸ hI⟩, p, hpages, hp, hp ▸ hunjoined⟩
  | cons c rest =>
      rw [next?_settled hpages (Opens.settled rfl hunjoined) hp] at ha
      cases ha
      rw [hp] at hI hunjoined
      exact ⟨rest, hI, _, rfl, Page.rest_advance _ _, hunjoined.tail⟩

theorem leaves_unread {c : UInt8} :
    Leaves (fun rest => Unjoined (c :: rest) ∧ I (c :: rest)) (unread c) (fun _ => I) := by
  rintro rest lx ⟨hunjoined, hI⟩ ⟨p, hpages, rfl, -⟩ a lx' ha
  rw [unread_pages hpages] at ha
  cases ha
  exact ⟨c :: p.rest, hI, _, rfl, Page.rest_putBack _ _, hunjoined⟩

theorem leaves_takeIf (p : UInt8 → Bool) :
    Leaves I (takeIf p) (fun c rest => c.elim (I rest) fun c => p c = true ∧ I (c :: rest)) := by
  refine leaves_unjoined (leaves_bind leaves_next fun c => ?_)
  cases c with
  | none => exact leaves_pure fun rest h => h.2.2
  | some c =>
      by_cases hp : p c = true
      · simp only [hp, if_true]
        exact leaves_pure fun rest h => ⟨hp, h.2⟩
      · simp only [hp]
        exact leaves_bind leaves_unread fun _ => leaves_pure fun rest h => h

theorem leaves_skipIf (c : UInt8) :
    Leaves I (skipIf c) (fun b rest => if b then I (c :: rest) else I rest) := by
  refine leaves_bind (leaves_takeIf _) fun d => ?_
  cases d with
  | none => exact leaves_pure fun rest h => h
  | some d =>
      refine leaves_pure fun rest h => ?_
      rw [if_pos rfl, ← show d = c by simpa using h.1]
      exact h.2

theorem leaves_peekIs (p : UInt8 → Bool) :
    Leaves I (peekIs p)
      (fun b rest => I rest ∧ (b = true → ∃ c tail, rest = c :: tail ∧ p c = true)) := by
  refine leaves_unjoined (leaves_bind leaves_next fun c => ?_)
  cases c with
  | none => exact leaves_pure fun rest h => ⟨h.2.2, by simp⟩
  | some c =>
      refine leaves_bind (Q := fun _ rest => I rest ∧ ∃ tail, rest = c :: tail) ?_ fun _ => ?_
      · exact leaves_unread.pre fun rest h => ⟨h.1, h.2, rest, rfl⟩
      · refine leaves_pure fun rest h => ⟨h.1, fun hp => ?_⟩
        rcases h.2 with ⟨tail, rfl⟩
        exact ⟨c, tail, rfl, hp⟩

theorem leaves_here (count : Int) : Leaves I (here count) (fun _ => I) := by
  intro rest lx hI hopens a lx' ha
  cases ha
  exact ⟨rest, hI, hopens⟩

theorem leaves_marked : Leaves I marked (fun _ => I) := by
  intro rest lx hI hopens a lx' ha
  cases ha
  exact ⟨rest, hI, hopens⟩

theorem leaves_warn (l : Location) (text : String) : Leaves I (warn l text) (fun _ => I) := by
  rintro rest lx hI ⟨p, hpages, hrest, hunjoined⟩ a lx' ha
  unfold warn at ha
  split at ha
  · split at ha
    · cases ha
    · cases ha
      exact ⟨rest, hI, p, hpages, hrest, hunjoined⟩
  · cases ha
    exact ⟨rest, hI, p, hpages, hrest, hunjoined⟩

theorem leaves_finish (lexeme : Lexeme) (encoding : Encoding) :
    Leaves I (finish lexeme encoding) (fun a rest => a.lexeme = lexeme ∧ I rest) := by
  rintro rest lx hI ⟨p, hpages, hrest, hunjoined⟩ a lx' ha
  rw [finish_pages hpages] at ha
  cases ha
  exact ⟨rest, ⟨rfl, hI⟩, _, rfl, hrest, hunjoined⟩

/-- From one text to another by characters of a class. -/
def Run (C : UInt8 → Prop) (text rest : List UInt8) : Prop :=
  ∃ w, text = w ++ rest ∧ ∀ c ∈ w, C c

theorem Run.refl {C : UInt8 → Prop} (text : List UInt8) : Run C text text :=
  ⟨[], rfl, fun _ h => absurd h List.not_mem_nil⟩

theorem Run.snoc {C : UInt8 → Prop} {text rest : List UInt8} {c : UInt8}
    (h : Run C text (c :: rest)) (hc : C c) : Run C text rest := by
  rcases h with ⟨w, rfl, hw⟩
  refine ⟨w ++ [c], by simp, ?_⟩
  intro d hd
  rcases List.mem_append.mp hd with hd | hd
  · exact hw d hd
  · exact List.mem_singleton.mp hd ▸ hc

theorem Run.mono {C D : UInt8 → Prop} {text rest : List UInt8} (h : Run C text rest)
    (hCD : ∀ c, C c → D c) : Run D text rest := by
  rcases h with ⟨w, htext, hw⟩
  exact ⟨w, htext, fun c hc => hCD c (hw c hc)⟩

theorem Run.trans {C : UInt8 → Prop} {text text' rest : List UInt8} (h : Run C text text')
    (h' : Run C text' rest) : Run C text rest := by
  rcases h with ⟨w, rfl, hw⟩
  rcases h' with ⟨w', rfl, hw'⟩
  refine ⟨w ++ w', (List.append_assoc _ _ _).symm, ?_⟩
  intro c hc
  exact (List.mem_append.mp hc).elim (hw c) (hw' c)

theorem Run.unjoined {C : UInt8 → Prop} {text rest : List UInt8} (h : Run C text rest)
    (htext : Unjoined text) : Unjoined rest := by
  rcases h with ⟨w, rfl, -⟩
  exact (List.isChain_append.mp htext).2.1

section

variable {C : UInt8 → Prop} {text : List UInt8}

theorem leaves_run {p : UInt8 → Bool} (hp : ∀ c, p c = true → C c) :
    Leaves (Run C text) (takeIf p) (fun _ => Run C text) := by
  apply (leaves_takeIf p).post
  rintro (_ | c) rest h
  · exact h
  · exact h.2.snoc (hp c h.1)

def HexDigit (c : UInt8) : Prop :=
  (hexValue? c.toNat).isSome = true

theorem leaves_octalDigits (count value : Nat) :
    Leaves (Run HexDigit text) (octalDigits count value) (fun _ => Run HexDigit text) := by
  induction count generalizing value with
  | zero => exact leaves_pure fun _ h => h
  | succ count ih =>
      refine leaves_bind (leaves_run ?_) fun c => ?_
      · intro c hc
        simp only [isOctalDigit, Bool.and_eq_true, decide_eq_true_eq] at hc
        rw [HexDigit, hexValue?, if_pos (by omega)]
        rfl
      · cases c with
        | none => exact leaves_pure fun _ h => h
        | some c => exact ih _

theorem leaves_hexDigits :
    Leaves (Run HexDigit text) hexDigits (fun _ => Run HexDigit text) := by
  refine leaves_bind (leaves_here 2) fun l => leaves_bind leaves_next fun c => ?_
  cases c with
  | none => exact leaves_throw _
  | some c =>
      dsimp only
      split
      · exact leaves_throw _
      · next value hvalue =>
        refine (leaves_loop (I := fun _ => Run HexDigit text) (fun value => ?_) value).pre
          fun rest h => h.snoc (by rw [HexDigit, hvalue]; rfl)
        refine leaves_bind (leaves_run fun c hc => hc) fun d => ?_
        cases d with
        | none => exact leaves_pure fun _ h => h
        | some d => exact leaves_pure fun _ h => h

theorem leaves_universalDigits (l : Location) (count value : Nat) :
    Leaves (Run HexDigit text) (universalDigits l count value) (fun _ => Run HexDigit text) := by
  induction count generalizing value with
  | zero => exact leaves_pure fun _ h => h
  | succ count ih =>
      refine leaves_bind leaves_next fun c => ?_
      cases c with
      | none => exact leaves_throw _
      | some c =>
          dsimp only
          split
          · exact leaves_throw _
          · next d hd => exact (ih _).pre fun rest h => h.snoc (by rw [HexDigit, hd]; rfl)

theorem leaves_universalName (mark : Char) (count : Nat) :
    Leaves (Run HexDigit text) (universalName mark count) (fun _ => Run HexDigit text) := by
  refine leaves_bind (leaves_here 2) fun l => ?_
  refine leaves_bind (leaves_universalDigits l count 0) fun code => ?_
  split
  · exact leaves_pure fun _ h => h
  · exact leaves_throw _

theorem leaves_universalBytes (code : Nat) : Leaves I (universalBytes code) (fun _ => I) := by
  unfold universalBytes
  split
  · exact leaves_pure fun _ h => h
  · exact leaves_throw _

theorem leaves_escapeFrom (l : Location) (c : UInt8) :
    Leaves (Run HexDigit text) (escapeFrom l c) (fun _ => Run HexDigit text) := by
  unfold escapeFrom
  split
  · exact leaves_pure fun _ h => h
  · split
    · exact leaves_hexDigits
    · split
      · exact leaves_universalName _ _
      · split
        · exact leaves_universalName _ _
        · split
          · exact leaves_octalDigits _ _
          · exact leaves_bind (leaves_warn _ _) fun _ => leaves_pure fun _ h => h

end

theorem leaves_escape (hend : I [] → J [])
    (h : ∀ c text rest, I (c :: text) → Run HexDigit text rest → J rest) :
    Leaves I escape (fun _ => J) := by
  refine leaves_bind (leaves_here 1) fun l => leaves_bind leaves_next fun c => ?_
  cases c with
  | none =>
      refine leaves_bind (leaves_warn _ _) fun _ => leaves_pure ?_
      rintro rest ⟨rfl, hI⟩
      exact hend hI
  | some c =>
      intro rest lx hI
      refine ((leaves_escapeFrom l c).post fun _ rest' hrun => ?_) rest lx (Run.refl rest)
      exact h c rest rest' hI hrun

end CLex.Lexer
