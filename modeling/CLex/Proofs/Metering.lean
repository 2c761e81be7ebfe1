import CLex.Proofs.Copying
import CLex.Proofs.Footing.Basic

/-!
How often an operation asks for a character. A metered stream counts the requests, also those that
are answered with the end of input. What is left to read pays for them: thirty-two requests for each
character, which is more than any operation makes for one that it does not put back.
-/

namespace CLex

open Character Lexer LexM

/-- A stream that counts how often a character is asked for. -/
structure Metered (σ : Type) where
  inner : σ
  reads : Nat := 0

namespace Metered

variable {σ : Type} [CharStream σ]

instance : CharStream (Metered σ) where
  read m :=
    ((CharStream.read m.inner).1, { inner := (CharStream.read m.inner).2, reads := m.reads + 1 })
  unread m c := (CharStream.unread m.inner c).map fun inner => { m with inner }
  place? m := CharStream.place? m.inner
  depth m := CharStream.depth m.inner
  draw m := ((CharStream.draw m.inner).1, { m with inner := (CharStream.draw m.inner).2 })
  note m shown := { m with inner := CharStream.note m.inner shown }
  weight m := CharStream.weight m.inner
  weight_read_some := by
    intro s s' c h
    simp only [Prod.mk.injEq] at h
    obtain ⟨hc, rfl⟩ := h
    exact CharStream.weight_read_some (Prod.ext hc rfl)
  weight_read_none := by
    intro s s' h
    simp only [Prod.mk.injEq] at h
    obtain ⟨hc, rfl⟩ := h
    exact CharStream.weight_read_none (Prod.ext hc rfl)
  weight_unread := by
    intro s s' c h
    cases hc : CharStream.unread s.inner c with
    | error f =>
        rw [hc] at h
        cases h
    | ok inner =>
        rw [hc] at h
        cases h
        exact CharStream.weight_unread hc
  weight_draw s := CharStream.weight_draw s.inner
  weight_note s shown := CharStream.weight_note s.inner shown

def copy : Copy σ (Metered σ) where
  rel s m := m.inner = s
  read := by
    rintro s m rfl
    exact ⟨rfl, rfl⟩
  unread := by
    rintro s m rfl c
    show (∃ s' t', _ ∧ (CharStream.unread m.inner c).map _ = _ ∧ _) ∨
      ∃ f, _ ∧ (CharStream.unread m.inner c).map _ = _
    cases CharStream.unread m.inner c with
    | ok inner => exact Or.inl ⟨inner, { m with inner }, rfl, rfl, rfl⟩
    | error f => exact Or.inr ⟨f, rfl, rfl⟩
  place? := by
    rintro s m rfl
    rfl
  depth := by
    rintro s m rfl
    rfl
  draw := by
    rintro s m rfl
    exact ⟨rfl, rfl⟩
  note := by
    rintro s m rfl shown
    rfl

end Metered

variable {σ α : Type}

/-- The lexer with nothing counted yet. -/
def Lexer.metered (lx : Lexer σ) : Lexer (Metered σ) :=
  lx.over { inner := lx.stream }

namespace Metered

def unmetered : EStateM.Result Failure (Lexer (Metered σ)) α → EStateM.Result Failure (Lexer σ) α
  | .ok a lx => .ok a (lx.over lx.stream.inner)
  | .error f lx => .error f (lx.over lx.stream.inner)

def count : EStateM.Result Failure (Lexer (Metered σ)) α → Nat
  | .ok _ lx => lx.stream.reads
  | .error _ lx => lx.stream.reads

variable [CharStream σ]

theorem unmetered_of_copies {m : LexOn σ α} {n : LexOn (Metered σ) α} (h : copy.Copies m n)
    (lx : Lexer σ) : unmetered (n lx.metered) = m lx := by
  have hover : ∀ {s : Lexer σ} {t : Lexer (Metered σ)}, copy.Beside s t →
      t.over t.stream.inner = s := by
    rintro s _ ⟨stream, h, rfl⟩
    have hinner : stream.inner = s.stream := h
    simp only [Lexer.over, hinner]
  have hrun := h lx lx.metered ⟨{ inner := lx.stream }, rfl, rfl⟩
  cases hm : m lx with
  | ok a s =>
      rw [hm] at hrun
      rcases hrun.ok with ⟨t, hn, hst⟩
      rw [hn, unmetered, hover hst]
  | error f s =>
      rw [hm] at hrun
      rcases hrun.error with ⟨t, hn, hst⟩
      rw [hn, unmetered, hover hst]

/-- The requests so far and those that what is left to read can pay for are no more than this. -/
def Upto (n : Int) (lx : Lexer (Metered σ)) : Prop :=
  (lx.stream.reads : Int) + 32 * lx.weight ≤ n

/-- The same after a failure. -/
def Failed (n : Int) (_ : Failure) : Lexer (Metered σ) → Prop :=
  Upto n

variable {m n k : Int} {lx : Lexer (Metered σ)}

theorem Upto.mono (h : Upto n lx) (hle : n ≤ k) : Upto k lx :=
  Int.le_trans h hle

theorem leads_le {E : Failure → Lexer (Metered σ) → Prop} {P : Lexer (Metered σ) → Prop}
    {op : LexOn (Metered σ) α} (h : Leads E P op fun _ => Upto n) (hle : n ≤ k) :
    Leads E P op fun _ => Upto k :=
  h.post fun _ _ hn => hn.mono hle

theorem leads_done {E : Failure → Lexer (Metered σ) → Prop} {a : α} (hle : n ≤ k) :
    Leads E (Upto n) (pure a) fun _ => Upto k :=
  leads_pure fun _ hn => hn.mono hle

theorem leads_fail {f : Failure} {Q : α → Lexer (Metered σ) → Prop} (hle : n ≤ m) :
    Leads (Failed m) (Upto n) (throw f) Q :=
  leads_throw fun _ hn => hn.mono hle

theorem leads_fail_marked {cause : Cause} {Q : α → Lexer (Metered σ) → Prop} (hle : n ≤ m) :
    Leads (Failed m) (Upto n) (do throw (.located cause (← marked))) Q :=
  leads_bind leads_marked fun _ => leads_fail hle

theorem leads_next {E : Failure → Lexer (Metered σ) → Prop} :
    Leads E (Upto n) next? fun c => c.elim (Upto (n + 1)) fun _ => Upto (n - 31) := by
  intro lx h
  cases hnext : next? lx with
  | error f lx' => cases hnext
  | ok c lx' =>
      have hreads : lx'.stream.reads = lx.stream.reads + 1 := by
        cases hnext
        rfl
      unfold Upto at h
      cases c with
      | none =>
          have hweight := weight_next?_none hnext
          show _ ≤ _
          omega
      | some c =>
          have hweight := weight_next?_some hnext
          show _ ≤ _
          omega

theorem leads_unread (hle : n ≤ m) (c : UInt8) :
    Leads (Failed m) (Upto n) (unread (σ := Metered σ) c) fun _ => Upto (n + 32) := by
  intro lx h
  cases hrun : unread c lx with
  | error f lx' =>
      have hsame : lx' = lx := by
        unfold unread at hrun
        split at hrun <;> cases hrun
        rfl
      rw [hsame]
      exact h.mono hle
  | ok a lx' =>
      have hreads : lx'.stream.reads = lx.stream.reads := by
        unfold unread at hrun
        split at hrun
        · next stream hstream =>
          cases hrun
          change (CharStream.unread lx.stream.inner c).map _ = _ at hstream
          cases hc : CharStream.unread lx.stream.inner c with
          | error f =>
              rw [hc] at hstream
              cases hstream
          | ok inner =>
              rw [hc] at hstream
              cases hstream
              rfl
        · cases hrun
      have hweight := weight_unread hrun
      unfold Upto at h
      show _ ≤ _
      omega

theorem leads_takeIf (hle : n ≤ m) (p : UInt8 → Bool) :
    Leads (Failed m) (Upto n) (takeIf (σ := Metered σ) p)
      fun c => c.elim (Upto (n + 1)) fun _ => Upto (n - 31) := by
  refine leads_bind leads_next fun c => ?_
  cases c with
  | none => exact leads_pure fun lx h => h
  | some c =>
      dsimp only [Option.elim]
      split
      · exact leads_pure fun lx h => h
      · refine leads_bind (leads_unread (by omega) c) fun _ => leads_pure fun lx h => ?_
        exact h.mono (by omega)

theorem leads_skipIf (hle : n ≤ m) (c : UInt8) :
    Leads (Failed m) (Upto n) (skipIf (σ := Metered σ) c)
      fun b => if b then Upto (n - 31) else Upto (n + 1) := by
  refine leads_bind (leads_takeIf hle _) fun d => ?_
  cases d with
  | none => exact leads_pure fun lx h => h
  | some d => exact leads_pure fun lx h => h

theorem leads_peekIs (hle : n ≤ m) (p : UInt8 → Bool) :
    Leads (Failed m) (Upto n) (peekIs (σ := Metered σ) p) fun _ => Upto (n + 1) := by
  refine leads_bind leads_next fun c => ?_
  cases c with
  | none => exact leads_pure fun lx h => h
  | some c =>
      dsimp only [Option.elim]
      exact leads_bind (leads_unread (by omega) c) fun _ => leads_pure fun lx h => h.mono (by omega)

theorem leads_setMark : Leads (Failed m) (Upto n) (setMark (σ := Metered σ)) fun _ => Upto n :=
  leads_setMark_of fun _ _ h => h

theorem leads_needSource (hle : n ≤ m) :
    Leads (Failed m) (Upto n) (needSource (σ := Metered σ)) fun _ => Upto n :=
  leads_needSource_of fun _ h => h.mono hle

theorem leads_isAtLineStart :
    Leads (Failed m) (Upto n) (isAtLineStart (σ := Metered σ)) fun _ => Upto n :=
  fun _ h => h

theorem leads_warn (hle : n ≤ m) (location : Location) (text : String) :
    Leads (Failed m) (Upto n) (warn (σ := Metered σ) location text) fun _ => Upto n := by
  refine leads_warn_of (fun _ h _ _ => h.mono hle) fun lx _ shown h => ?_
  unfold Upto weight at h ⊢
  rw [CharStream.weight_note]
  exact h

theorem leads_finish (lexeme : Lexeme) (encoding : Encoding) :
    Leads (Failed m) (Upto n) (finish (σ := Metered σ) lexeme encoding) fun _ => Upto n := by
  refine leads_finish_of fun lx h => ?_
  unfold Upto weight at h ⊢
  rw [CharStream.weight_draw]
  exact h

theorem leads_skipLine (hle : n ≤ m) :
    Leads (Failed m) (Upto n) (skipLine (σ := Metered σ)) fun _ => Upto (n + 1) := by
  refine leads_loop (I := fun _ => Upto n) (fun _ => leads_bind leads_next fun c => ?_) ()
  cases c with
  | none => exact leads_pure fun lx h => h
  | some c =>
      dsimp only [Option.elim]
      split
      · refine leads_bind (leads_unread (by omega) c) fun _ => leads_pure fun lx h => ?_
        exact h.mono (by omega)
      · exact leads_pure fun lx h => h.mono (by omega)

theorem leads_skipComment (hle : n + 1 ≤ m) :
    Leads (Failed m) (Upto n) (skipComment (σ := Metered σ)) fun _ => Upto n := by
  refine leads_bind (leads_here 2) fun start => leads_loop (I := fun _ => Upto n) (fun star => ?_) _
  refine leads_bind leads_next fun c => ?_
  cases c with
  | none => exact leads_fail hle
  | some c =>
      dsimp only [Option.elim]
      split
      · exact leads_pure fun lx h => h.mono (by omega)
      · exact leads_pure fun lx h => h.mono (by omega)

theorem leads_skipBlank (hle : n ≤ m) :
    Leads (Failed m) (Upto n) (skipBlank (σ := Metered σ))
      fun b => if b then Upto n else Upto (n + 3) := by
  refine leads_bind leads_next fun c => ?_
  cases c with
  | none => exact leads_pure fun lx h => h.mono (by omega)
  | some c =>
      dsimp only [Option.elim]
      split
      · exact leads_pure fun lx h => h.mono (by omega)
      · split
        · refine leads_bind (leads_skipIf (by omega) _) fun star => ?_
          cases star with
          | true =>
              simp only [if_true]
              refine leads_bind (leads_skipComment (by omega)) fun _ => leads_pure fun lx h => ?_
              exact h.mono (by omega)
          | false =>
              simp only [Bool.false_eq_true, if_false]
              refine leads_bind (leads_skipIf (by omega) _) fun slash => ?_
              cases slash with
              | true =>
                  simp only [if_true]
                  refine leads_bind (leads_skipLine (by omega)) fun _ => leads_pure fun lx h => ?_
                  exact h.mono (by omega)
              | false =>
                  simp only [Bool.false_eq_true, if_false]
                  refine leads_bind (leads_unread (by omega) c) fun _ => leads_pure fun lx h => ?_
                  exact h.mono (by omega)
        · refine leads_bind (leads_unread (by omega) c) fun _ => leads_pure fun lx h => ?_
          exact h.mono (by omega)

theorem leads_skipBlanks (hle : n + 3 ≤ m) :
    Leads (Failed m) (Upto n) (skipBlanks (σ := Metered σ)) fun _ => Upto (n + 3) := by
  refine leads_loop (I := fun _ => Upto n) (fun skipped => ?_) false
  refine leads_bind (leads_skipBlank (by omega)) fun b => ?_
  cases b with
  | true => exact leads_pure fun lx h => h
  | false => exact leads_pure fun lx h => h

theorem leads_universalBytes (hle : n ≤ m) (code : Nat) :
    Leads (Failed m) (Upto n) (universalBytes (σ := Metered σ) code) fun _ => Upto n := by
  unfold universalBytes
  split
  · exact leads_pure fun lx h => h
  · exact leads_fail hle

theorem leads_octalDigits (hle : n ≤ m) (count value : Nat) :
    Leads (Failed m) (Upto n) (octalDigits (σ := Metered σ) count value)
      fun _ => Upto (n + 1) := by
  induction count generalizing value n with
  | zero => exact leads_done (by omega)
  | succ count ih =>
      refine leads_bind (leads_takeIf hle _) fun d => ?_
      cases d with
      | none => exact leads_pure fun lx h => h
      | some d => exact leads_le (ih (n := n - 31) (by omega) _) (by omega)

theorem leads_hexDigits (hle : n + 1 ≤ m) :
    Leads (Failed m) (Upto n) (hexDigits (σ := Metered σ)) fun _ => Upto n := by
  refine leads_bind (leads_here 2) fun start => leads_bind leads_next fun d => ?_
  cases d with
  | none => exact leads_fail hle
  | some d =>
      dsimp only [Option.elim]
      split
      · exact leads_fail (by omega)
      · refine leads_loop (I := fun _ => Upto (n - 31)) (fun value => ?_) _
        refine leads_bind (leads_takeIf (by omega) _) fun e => ?_
        cases e with
        | none => exact leads_pure fun lx h => h.mono (by omega)
        | some e => exact leads_pure fun lx h => h.mono (by omega)

theorem leads_universalDigits (hle : n + 1 ≤ m) (start : Location) (count value : Nat) :
    Leads (Failed m) (Upto n) (universalDigits (σ := Metered σ) start count value)
      fun _ => Upto n := by
  induction count generalizing value n with
  | zero => exact leads_pure fun lx h => h
  | succ count ih =>
      refine leads_bind leads_next fun d => ?_
      cases d with
      | none => exact leads_fail hle
      | some d =>
          dsimp only [Option.elim]
          split
          · exact leads_fail (by omega)
          · exact leads_le (ih (by omega) _) (by omega)

theorem leads_universalName (hle : n + 1 ≤ m) (mark : Char) (count : Nat) :
    Leads (Failed m) (Upto n) (universalName (σ := Metered σ) mark count) fun _ => Upto n := by
  refine leads_bind (leads_here 2) fun start => ?_
  refine leads_bind (leads_universalDigits hle start count 0) fun code => ?_
  split
  · exact leads_pure fun lx h => h
  · exact leads_fail (by omega)

theorem leads_escapeFrom (hle : n + 1 ≤ m) (start : Location) (c : UInt8) :
    Leads (Failed m) (Upto n) (escapeFrom (σ := Metered σ) start c) fun _ => Upto (n + 1) := by
  unfold escapeFrom
  split
  · exact leads_done (by omega)
  · split
    · exact leads_le (leads_hexDigits hle) (by omega)
    · split
      · exact leads_le (leads_universalName hle _ _) (by omega)
      · split
        · exact leads_le (leads_universalName hle _ _) (by omega)
        · split
          · exact leads_octalDigits (by omega) _ _
          · exact leads_bind (leads_warn (by omega) _ _) fun _ => leads_done (by omega)

theorem leads_escape (hle : n + 1 ≤ m) :
    Leads (Failed m) (Upto n) (escape (σ := Metered σ)) fun _ => Upto (n + 1) := by
  refine leads_bind (leads_here 1) fun start => leads_bind leads_next fun c => ?_
  cases c with
  | none => exact leads_bind (leads_warn hle _ _) fun _ => leads_pure fun lx h => h
  | some c => exact leads_le (leads_escapeFrom (n := n - 31) (by omega) start c) (by omega)

theorem leads_stringLiteral (hle : n + 1 ≤ m) (encoding : Encoding) :
    Leads (Failed m) (Upto n) (stringLiteral (σ := Metered σ) encoding) fun _ => Upto n := by
  refine leads_bind (Q := fun _ => Upto n) ?_ fun _ => leads_finish _ _
  refine leads_loop (I := fun _ => Upto n) (fun bytes => leads_bind leads_next fun c => ?_) []
  cases c with
  | none => exact leads_fail_marked hle
  | some c =>
      dsimp only [Option.elim]
      split
      · exact leads_pure fun lx h => h.mono (by omega)
      · split
        · refine leads_bind (leads_peekIs (by omega) _) fun named => ?_
          refine leads_bind (leads_escape (by omega)) fun value => ?_
          split
          · refine leads_bind (leads_universalBytes (by omega) value) fun _ => ?_
            exact leads_pure fun lx h => h.mono (by omega)
          · exact leads_pure fun lx h => h.mono (by omega)
        · exact leads_pure fun lx h => h.mono (by omega)

theorem leads_charLiteral (hle : n + 1 ≤ m) (encoding : Encoding) :
    Leads (Failed m) (Upto n) (charLiteral (σ := Metered σ) encoding) fun _ => Upto n := by
  refine leads_bind leads_next fun c => ?_
  cases c with
  | none => exact leads_fail_marked hle
  | some c =>
      dsimp only [Option.elim]
      refine leads_bind (Q := fun _ => Upto (n - 30)) ?_ fun value => ?_
      · unfold literalValue
        split
        · exact leads_le (leads_escape (by omega)) (by omega)
        · exact leads_done (by omega)
      · refine leads_bind (Q := fun _ => Upto (n - 29)) ?_ fun d => ?_
        · apply leads_next.post
          rintro (_ | d) lx h
          · exact h.mono (by omega)
          · exact h.mono (by omega)
        · split
          · exact leads_le (leads_finish _ _) (by omega)
          · exact leads_fail_marked (by omega)

theorem leads_ident (hle : n + 2 ≤ m) (first : UInt8) :
    Leads (Failed m) (Upto n) (ident (σ := Metered σ) first) fun _ => Upto (n + 2) := by
  refine leads_bind (Q := fun _ => Upto (n + 2)) ?_ fun _ => leads_finish _ _
  refine leads_loop (I := fun _ => Upto n) (fun bytes => leads_bind leads_next fun c => ?_) [first]
  cases c with
  | none => exact leads_pure fun lx h => h.mono (by omega)
  | some c =>
      have hput : ∀ k, k ≤ n - 30 → Leads (Failed m) (Upto k)
          (do unread c; pure (.done bytes.reverse) :
            LexOn (Metered σ) (Round (List UInt8) (List UInt8)))
          (RoundLeft (fun _ => Upto n) fun _ => Upto (n + 2)) :=
        fun k hk => leads_bind (leads_unread (by omega) c) fun _ =>
          leads_pure fun lx h => h.mono (by omega)
      dsimp only [Option.elim]
      split
      · exact leads_pure fun lx h => h.mono (by omega)
      · split
        · refine leads_bind (leads_peekIs (by omega) _) fun named => ?_
          split
          · refine leads_bind (leads_escape (by omega)) fun code => ?_
            refine leads_bind (leads_universalBytes (by omega) code) fun _ => ?_
            exact leads_pure fun lx h => h.mono (by omega)
          · exact hput _ (by omega)
        · exact hput _ (by omega)

theorem leads_number (hle : n ≤ m) (first : UInt8) :
    Leads (Failed m) (Upto n) (number (σ := Metered σ) first) fun _ => Upto (n + 1) := by
  refine leads_bind (Q := fun _ => Upto (n + 1)) ?_ fun _ => leads_finish _ _
  refine leads_loop (I := fun _ => Upto n) (fun chars => ?_) _
  refine leads_bind (leads_takeIf hle _) fun c => ?_
  cases c with
  | none => exact leads_pure fun lx h => h
  | some c => exact leads_pure fun lx h => h.mono (by omega)

/-- How many reads a branch can cost, besides those of what it takes. -/
def tests : Branch → Nat
  | .found _ => 0
  | .next _ taken other => max (tests taken) (tests other + 1)
  | .pair .. => 2

theorem leads_branch (b : Branch) (hle : n + tests b ≤ m) :
    Leads (Failed m) (Upto n) (b.run (σ := Metered σ)) fun _ => Upto (n + tests b) := by
  induction b generalizing n with
  | found p => exact leads_done (by simp [tests])
  | next c taken other htaken hother =>
      rw [tests] at hle ⊢
      refine leads_bind (leads_skipIf (by omega) c) fun follows => ?_
      cases follows with
      | true => exact leads_le (htaken (n := n - 31) (by omega)) (by omega)
      | false => exact leads_le (hother (n := n + 1) (by omega)) (by omega)
  | pair c d taken other =>
      rw [tests] at hle ⊢
      refine leads_bind (leads_skipIf (by omega) c) fun first => ?_
      cases first with
      | true =>
          refine leads_bind (leads_skipIf (n := n - 31) (by omega) d) fun second => ?_
          cases second with
          | true => exact leads_done (by omega)
          | false =>
              refine leads_bind (leads_unread (n := n - 31 + 1) (by omega) c) fun _ => ?_
              exact leads_done (by omega)
      | false => exact leads_done (by omega)

theorem tests_le {c : UInt8} {b : Branch} (h : Branch.of? c = some b) : tests b ≤ 4 := by
  have hall : ∀ e ∈ Branch.all, tests e.2 ≤ 4 := by
    decide +kernel
  exact hall _ (Branch.mem_of h)

theorem leads_operator (hle : n + 4 ≤ m) (c : UInt8) :
    Leads (Failed m) (Upto n) (operator (σ := Metered σ) c) fun _ => Upto (n + 4) := by
  rw [operator_eq]
  cases hb : Branch.of? c with
  | some b =>
      have htests := tests_le hb
      refine leads_bind (leads_branch b (by omega)) fun p => ?_
      exact leads_le (leads_finish _ _) (by omega)
  | none => exact leads_le (leads_finish _ _) (by omega)

theorem leads_literalOrIdent (hle : n + 6 ≤ m) (c : UInt8) (encoding : Encoding) :
    Leads (Failed m) (Upto n) (literalOrIdent (σ := Metered σ) c encoding)
      fun _ => Upto (n + 6) := by
  refine leads_bind (leads_skipIf (by omega) _) fun quote => ?_
  cases quote with
  | true => exact leads_le (leads_stringLiteral (n := n - 31) (by omega) _) (by omega)
  | false =>
      simp only [Bool.false_eq_true, if_false]
      refine leads_bind (leads_skipIf (by omega) _) fun quote => ?_
      cases quote with
      | true => exact leads_le (leads_charLiteral (n := n + 1 - 31) (by omega) _) (by omega)
      | false =>
          simp only [Bool.false_eq_true, if_false]
          split
          · refine leads_bind (leads_skipIf (by omega) _) fun eight => ?_
            cases eight with
            | true =>
                simp only [if_true]
                refine leads_bind (leads_skipIf (by omega) _) fun quote => ?_
                cases quote with
                | true =>
                    simp only [if_true]
                    exact leads_le (leads_stringLiteral (by omega) _) (by omega)
                | false =>
                    simp only [Bool.false_eq_true, if_false]
                    refine leads_bind (leads_unread (by omega) _) fun _ => ?_
                    exact leads_le (leads_ident (by omega) c) (by omega)
            | false =>
                simp only [Bool.false_eq_true, if_false]
                exact leads_le (leads_ident (by omega) c) (by omega)
          · exact leads_le (leads_ident (by omega) c) (by omega)

theorem leads_dots (hle : n + 1 ≤ m) (c : UInt8) :
    Leads (Failed m) (Upto n) (dots (σ := Metered σ) c) fun _ => Upto (n + 2) := by
  refine leads_bind (leads_peekIs (by omega) _) fun digit => ?_
  split
  · exact leads_le (leads_number hle c) (by omega)
  · refine leads_bind (leads_skipIf hle _) fun second => ?_
    cases second with
    | true =>
        simp only [if_true]
        refine leads_bind (leads_skipIf (by omega) _) fun third => ?_
        cases third with
        | true =>
            simp only [if_true]
            exact leads_le (leads_finish _ _) (by omega)
        | false =>
            simp only [Bool.false_eq_true, if_false]
            exact leads_le (leads_finish _ _) (by omega)
    | false =>
        simp only [Bool.false_eq_true, if_false]
        exact leads_le (leads_finish _ _) (by omega)

theorem leads_tokenFrom (hle : n + 6 ≤ m) (c : UInt8) :
    Leads (Failed m) (Upto n) (tokenFrom (σ := Metered σ) c) fun _ => Upto (n + 6) := by
  unfold tokenFrom
  split
  · exact leads_le (leads_finish _ _) (by omega)
  · split
    · exact leads_literalOrIdent hle c _
    · split
      · exact leads_le (leads_ident (by omega) c) (by omega)
      · split
        · exact leads_le (leads_number (by omega) c) (by omega)
        · split
          · exact leads_le (leads_stringLiteral (by omega) _) (by omega)
          · split
            · exact leads_le (leads_charLiteral (by omega) _) (by omega)
            · split
              · exact leads_le (leads_dots (by omega) c) (by omega)
              · exact leads_le (leads_operator (by omega) c) (by omega)

theorem leads_token (hle : n + 1 ≤ m) :
    Leads (Failed m) (Upto n) (token (σ := Metered σ)) fun _ => Upto (n + 1) := by
  refine leads_bind leads_setMark fun _ => leads_bind leads_next fun c => ?_
  cases c with
  | none => exact leads_finish _ _
  | some c => exact leads_le (leads_tokenFrom (n := n - 31) (by omega) c) (by omega)

theorem leads_nextToken (hle : n + 4 ≤ m) :
    Leads (Failed m) (Upto n) (nextToken (σ := Metered σ)) fun _ => Upto (n + 4) := by
  have hfresh : Leads (Failed m) (Upto n) (freshToken (σ := Metered σ)) fun _ => Upto (n + 4) := by
    refine leads_bind (leads_needSource (by omega)) fun _ => ?_
    refine leads_bind leads_isAtLineStart fun startsLine => ?_
    refine leads_bind (leads_skipBlanks (by omega)) fun spaced => ?_
    exact leads_bind (leads_token (by omega)) fun t => leads_done (by omega)
  intro lx h
  rcases hpending : lx.pending with _ | ⟨_ | ⟨t, rest⟩, outer⟩
  · simp only [nextToken, hpending]
    exact h.mono (by omega)
  · cases outer with
    | nil =>
        simp only [nextToken, hpending]
        exact hfresh lx h
    | cons buffer outer =>
        simp only [nextToken, hpending]
        exact leads_le (leads_bind leads_setMark fun _ => leads_finish _ _) (by omega) lx h
  · simp only [nextToken, hpending]
    unfold Upto at h ⊢
    simp only [Lexer.weight, hpending, List.foldr_cons, List.length_cons] at h ⊢
    omega

theorem leads_pushBack (hle : n ≤ m) (t : Token) :
    Leads (Failed m) (Upto n) (pushBack (σ := Metered σ) t) fun _ => Upto (n + 32) := by
  intro lx h
  unfold pushBack
  by_cases hend : t.isEnd = true
  · rw [if_pos hend]
    exact h.mono (by omega)
  · rw [if_neg hend]
    cases hpending : lx.pending with
    | nil => exact h.mono hle
    | cons buffer outer =>
        unfold Upto at h ⊢
        simp only [Lexer.weight, hpending, List.foldr_cons, List.length_cons] at h ⊢
        omega

theorem leads_hashToken (hash : HashMark) :
    Leads (Failed m) (Upto n) (hashToken (σ := Metered σ) hash) fun _ => Upto n := by
  refine leads_of_ok fun lx h => ?_
  unfold hashToken
  split
  · have hweight := CharStream.weight_draw lx.stream
    have hreads : (CharStream.draw lx.stream).2.reads = lx.stream.reads := rfl
    refine ⟨_, _, rfl, ?_⟩
    unfold Upto at h ⊢
    simp only [Lexer.weight] at h ⊢
    omega
  · exact ⟨_, _, rfl, h⟩

theorem leads_headerUpTo (hle : n + 2 ≤ m) (start : Location) (close : UInt8) (system : Bool) :
    Leads (Failed m) (Upto n) (headerUpTo (σ := Metered σ) start close system) fun _ => Upto n := by
  refine leads_bind (Q := fun _ => Upto n) ?_ fun bytes => ?_
  · refine leads_loop (I := fun _ => Upto n) (fun bytes => ?_) []
    refine leads_bind (leads_skipIf (by omega) close) fun closed => ?_
    cases closed with
    | true => exact leads_pure fun lx h => h.mono (by omega)
    | false =>
        simp only [Bool.false_eq_true, if_false]
        refine leads_bind leads_next fun c => ?_
        cases c with
        | none => exact leads_fail (n := n + 1 + 1) (by omega)
        | some c =>
            dsimp only [Option.elim]
            split
            · exact leads_fail (by omega)
            · exact leads_pure fun lx h => h.mono (by omega)
  · split
    · exact leads_fail (by omega)
    · exact leads_pure fun lx h => h

theorem leads_headerName? (hle : n + 6 ≤ m) :
    Leads (Failed m) (Upto n) (headerName? (σ := Metered σ)) fun _ => Upto (n + 5) := by
  refine leads_bind (Q := fun _ => Upto n) (fun lx h => h) fun lx => ?_
  split
  · refine leads_bind (leads_needSource (by omega)) fun _ => ?_
    refine leads_bind (leads_skipBlanks (by omega)) fun _ => ?_
    refine leads_bind (leads_here 0) fun start => ?_
    refine leads_bind (leads_skipIf (by omega) _) fun quoted => ?_
    cases quoted with
    | true => exact leads_le (leads_headerUpTo (n := n + 3 - 31) (by omega) _ _ _) (by omega)
    | false =>
        simp only [Bool.false_eq_true, if_false]
        refine leads_bind (leads_skipIf (by omega) _) fun angled => ?_
        cases angled with
        | true =>
            exact leads_le (leads_headerUpTo (n := n + 3 + 1 - 31) (by omega) _ _ _) (by omega)
        | false => exact leads_pure fun lx h => h.mono (by omega)
  · exact leads_done (by omega)

theorem leads_close (close : UInt8) :
    Leads (Failed m) (Upto n)
      (loop (closeRound (σ := Metered σ) close) (progress_closeRound close) ())
      fun _ => Upto (n + 1) := by
  refine leads_loop (I := fun _ => Upto n) (fun _ => leads_bind leads_next fun c => ?_) ()
  cases c with
  | none => exact leads_pure fun lx h => h
  | some c =>
      dsimp only [Option.elim]
      split
      · exact leads_pure fun lx h => h.mono (by omega)
      · exact leads_pure fun lx h => h.mono (by omega)

theorem leads_next_any :
    Leads (Failed m) (Upto n) (next? (σ := Metered σ)) fun _ => Upto (n + 1) := by
  apply leads_next.post
  rintro (_ | c) lx h
  · exact h
  · exact h.mono (by omega)

theorem leads_skipCharLiteral :
    Leads (Failed m) (Upto n) (skipCharLiteral (σ := Metered σ)) fun _ => Upto (n + 3) := by
  refine leads_bind leads_next_any fun first => ?_
  split
  · refine leads_bind leads_next_any fun _ => ?_
    exact leads_le (leads_close _) (by omega)
  · exact leads_le (leads_close _) (by omega)

theorem leads_skipStringLiteral :
    Leads (Failed m) (Upto n) (skipStringLiteral (σ := Metered σ)) fun _ => Upto (n + 1) := by
  refine leads_loop (I := fun _ => Upto n) (fun _ => leads_bind leads_next fun c => ?_) ()
  cases c with
  | none => exact leads_pure fun lx h => h
  | some c =>
      dsimp only [Option.elim]
      split
      · exact leads_pure fun lx h => h.mono (by omega)
      · split
        · exact leads_bind leads_next_any fun _ => leads_pure fun lx h => h.mono (by omega)
        · exact leads_pure fun lx h => h.mono (by omega)

theorem leads_directive (hle : n + 68 ≤ m) (hash : HashMark) (depth : Nat) :
    Leads (Failed m) (Upto n) (directive (σ := Metered σ) hash depth)
      (RoundLeft (fun _ => Upto (n + 5)) fun _ => Upto (n + 68)) := by
  refine leads_bind (leads_nextToken (by omega)) fun t => ?_
  split
  · split
    · refine leads_bind (leads_pushBack (by omega) t) fun _ => ?_
      refine leads_bind (leads_hashToken hash) fun h => ?_
      refine leads_bind (leads_pushBack (by omega) h) fun _ => leads_pure fun lx hn => ?_
      exact hn.mono (by omega)
    · refine leads_bind (leads_skipLine (by omega)) fun _ => leads_pure fun lx hn => ?_
      exact hn.mono (by omega)
  · exact leads_pure fun lx hn => hn.mono (by omega)

theorem leads_groupFrom (hle : n + 68 ≤ m) (startsLine : Bool) (depth : Nat) (c : UInt8) :
    Leads (Failed m) (Upto n) (groupFrom (σ := Metered σ) startsLine depth c)
      (RoundLeft (fun _ => Upto (n + 5)) fun _ => Upto (n + 68)) := by
  unfold groupFrom
  split
  · exact leads_bind leads_skipCharLiteral fun _ => leads_pure fun lx h => h.mono (by omega)
  · split
    · exact leads_bind leads_skipStringLiteral fun _ => leads_pure fun lx h => h.mono (by omega)
    · split
      · refine leads_bind (Q := fun _ => Upto n) (fun lx h => h) fun lx => ?_
        split
        · exact leads_pure fun lx h => h.mono (by omega)
        · exact leads_directive hle _ depth
      · exact leads_pure fun lx h => h.mono (by omega)

theorem leads_skipGroup (hle : n + 40 ≤ m) :
    Leads (Failed m) (Upto n) (skipGroup (σ := Metered σ)) fun _ => Upto (n + 40) := by
  refine leads_bind (leads_needSource (by omega)) fun _ => ?_
  refine leads_loop (I := fun _ => Upto n) (fun depth => ?_) 0
  refine leads_bind leads_isAtLineStart fun startsLine => ?_
  refine leads_bind (leads_skipBlanks (by omega)) fun _ => leads_bind leads_next fun c => ?_
  cases c with
  | none => exact leads_pure fun lx h => h.mono (by omega)
  | some c =>
      refine (leads_groupFrom (n := n + 3 - 31) (by omega) startsLine depth c).post ?_
      rintro (depth | _) lx h
      · exact h.mono (by omega)
      · exact h.mono (by omega)

theorem count_le {k : Nat} {op : LexOn (Metered σ) α}
    (h : ∀ n, Leads (Failed (n + k)) (Upto n) op fun _ => Upto (n + k)) (lx : Lexer σ) :
    count (op lx.metered) ≤ 32 * lx.weight + k := by
  have hstart : Upto (32 * lx.weight) lx.metered := Int.le_of_eq (Int.zero_add _)
  have hrun := h _ _ hstart
  cases hop : op lx.metered with
  | ok a lx' =>
      rw [hop] at hrun
      unfold Upto at hrun
      rw [count]
      omega
  | error f lx' =>
      rw [hop] at hrun
      unfold Failed Upto at hrun
      rw [count]
      omega

/-- Reading a token asks for boundedly many characters. -/
theorem count_nextToken (lx : Lexer σ) :
    unmetered (nextToken lx.metered) = nextToken lx ∧
      count (nextToken lx.metered) ≤ 32 * lx.weight + 4 :=
  ⟨unmetered_of_copies Copy.copies_nextToken lx,
    count_le (fun _ => leads_nextToken (Int.le_refl _)) lx⟩

theorem count_skipGroup (lx : Lexer σ) :
    unmetered (skipGroup lx.metered) = skipGroup lx ∧
      count (skipGroup lx.metered) ≤ 32 * lx.weight + 40 :=
  ⟨unmetered_of_copies Copy.copies_skipGroup lx,
    count_le (fun _ => leads_skipGroup (Int.le_refl _)) lx⟩

theorem count_headerName? (lx : Lexer σ) :
    unmetered (headerName? lx.metered) = headerName? lx ∧
      count (headerName? lx.metered) ≤ 32 * lx.weight + 6 := by
  refine ⟨unmetered_of_copies Copy.copies_headerName? lx, count_le (fun _ => ?_) lx⟩
  exact leads_le (leads_headerName? (by omega)) (by omega)

end Metered

end CLex
