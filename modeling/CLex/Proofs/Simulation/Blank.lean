import CLex.Lexer.Blank
import CLex.Proofs.Simulation.Basic

namespace CLex.Reading

open Character Lexer

variable {σ τ : Type} [CharStream σ] [CharStream τ] {R : Reading σ τ}

theorem same_skipLine : R.Same (R.held []) (fun _ => R.held []) skipLine skipLine := by
  refine same_loop (I := fun _ => R.held []) (fun _ => ?_) ()
  refine same_bind (same_next plain_nil) fun c => ?_
  cases c with
  | none => exact same_pure fun s t h => h
  | some c =>
      by_cases hc : c = newline
      · simp only [hc, if_true]
        exact same_bind (same_unread plain_nil) fun _ => same_pure fun s t h => h
      · simp only [hc, if_false]
        exact same_pure fun s t h => R.keep h hc

theorem same_commentRound {l l' : Location} (hl : R.place l l') (afterStar : Bool) :
    R.Same R.Out
      (fun r s t => match r with | .again _ => R.Out s t | .done _ => R.held [] s t)
      (commentRound l afterStar) (commentRound l' afterStar) := by
  refine runs_next_out (fun _ s => ⟨_, s, rfl⟩) ?_ fun c => ?_
  · exact runs_throw (R.located hl _) fun s t h => out_of_held h
  · by_cases hc : c = byte '/' ∧ afterStar
    · simp only [hc, and_self, if_true]
      exact same_pure fun s t h => R.keep h (by decide)
    · simp only [hc, if_false]
      exact same_pure fun s t h => out_of_held h

theorem same_skipComment : R.Same (R.held []) (fun _ => R.held []) skipComment skipComment := by
  refine runs_bind (runs_here 2) fun l l' => runs_given fun hl => ?_
  apply Runs.pre (same_loop (I := fun _ => R.Out) (fun a => ?_) false)
  · exact fun s t h => out_of_held h
  · apply (same_commentRound hl a).post
    rintro (_ | _) s t h <;> exact h

theorem same_skipBlank : R.Same (R.held []) (fun _ => R.held []) skipBlank skipBlank := by
  refine same_bind (same_next plain_nil) fun c => ?_
  cases c with
  | none => exact same_pure fun s t h => h
  | some c =>
      dsimp only
      split
      · next hb =>
        refine same_pure fun s t h => R.keep h ?_
        rintro rfl
        simp [isBlank, newline] at hb
      · split
        · next hc =>
          have slash : Plain [c] := by
            rw [hc]
            exact plain_singleton (by decide)
          refine same_bind (same_skipIf slash _) fun star => ?_
          cases star with
          | true =>
              simp only [if_true]
              exact (same_bind_pure same_skipComment true).pre fun s t h => R.keep h (by decide)
          | false =>
              simp only [Bool.false_eq_true, if_false]
              refine same_bind (same_skipIf slash _) fun again => ?_
              cases again with
              | true =>
                  simp only [if_true]
                  exact (same_bind_pure same_skipLine true).pre
                    fun s t h => R.keep h (by decide)
              | false => exact same_bind_pure (same_unread plain_nil) false
        · exact same_bind_pure (same_unread plain_nil) false

theorem same_blanks (skipped : Bool) :
    R.Same (R.held []) (fun _ => R.held []) (LexM.loop blankRound progress_blankRound skipped)
      (LexM.loop blankRound progress_blankRound skipped) := by
  refine same_loop (I := fun _ => R.held []) (fun _ => ?_) skipped
  refine same_bind same_skipBlank fun skipped => ?_
  cases skipped with
  | true => exact same_pure fun s t h => h
  | false => exact same_pure fun s t h => h

theorem same_skipBlanks : R.Same (R.held []) (fun _ => R.held []) skipBlanks skipBlanks :=
  same_blanks false

end CLex.Reading
