import CLex.Lexer.Conditional
import CLex.Proofs.Simulation.Stack

namespace CLex.Stack

open Character Lexer Reading

variable {s : Lexer} {t : Lexer Book}

theorem agrees_next : Agrees next? next? := by
  apply (same_next (R := reading) plain_nil).post
  rintro (_ | c) s t h
  · exact h
  · exact h.mono (Nat.zero_le 1)

theorem agrees_pure {α : Type} (a : α) : Agrees (pure a) (pure a) :=
  same_pure fun _ _ h => h

theorem agrees_loop {κ ρ : Type} {step : κ → LexM (LexM.Round κ ρ)}
    {step' : κ → LexOn Book (LexM.Round κ ρ)} {progress : LexM.Progress step}
    {progress' : LexM.Progress step'} (h : ∀ a, Agrees (step a) (step' a)) (a : κ) :
    Agrees (LexM.loop step progress a) (LexM.loop step' progress' a) := by
  refine same_loop (I := fun _ => Held []) (fun a => ?_) a
  apply (h a).post
  rintro (_ | _) s t h <;> exact h

theorem agrees_closeRound (close : UInt8) (u : Unit) :
    Agrees (closeRound close u) (closeRound close u) := by
  refine same_bind agrees_next fun c => ?_
  cases c with
  | none => exact agrees_pure _
  | some c =>
      dsimp only
      split
      · exact agrees_pure _
      · exact agrees_pure _

theorem agrees_skipCharLiteral : Agrees skipCharLiteral skipCharLiteral := by
  refine same_bind agrees_next fun first => ?_
  split
  · exact same_bind agrees_next fun _ => agrees_loop (agrees_closeRound singleQuote) ()
  · exact agrees_loop (agrees_closeRound singleQuote) ()

theorem agrees_skipStringLiteral : Agrees skipStringLiteral skipStringLiteral := by
  refine agrees_loop (fun _ => same_bind agrees_next fun c => ?_) ()
  cases c with
  | none => exact agrees_pure _
  | some c =>
      dsimp only
      split
      · exact agrees_pure _
      · split
        · exact same_bind agrees_next fun _ => agrees_pure _
        · exact agrees_pure _

theorem hashMark?_eq (h : Held [] s t) : hashMark? s.stream = hashMark? t.stream := by
  have hplace := place?_eq h
  rcases h with ⟨rfl, -⟩
  have hdraw : CharStream.draw s.book.stream = (s.stream.draw.1, s.stream.draw.2.book) :=
    Stream.draw_book s.stream
  have hdepth : CharStream.depth s.book.stream = CharStream.depth s.stream :=
    Stream.depth_book s.stream
  rw [hashMark?, hashMark?, ← hplace, hdraw, hdepth]
  rfl

theorem agrees_hashToken (hash : HashMark) : Agrees (hashToken hash) (hashToken hash) := by
  rintro s t ⟨rfl, hroom⟩
  have hdraw : CharStream.draw s.book.stream = (s.stream.draw.1, s.stream.draw.2.book) :=
    Stream.draw_book s.stream
  have hdepth : CharStream.depth s.book.stream = CharStream.depth s.stream :=
    Stream.depth_book s.stream
  unfold hashToken
  rw [hdraw, hdepth]
  split
  · exact ⟨rfl, rfl, hroom.draw⟩
  · exact ⟨rfl, rfl, hroom⟩

theorem agrees_pushBack (a : Token) : Agrees (pushBack a) (pushBack a) := by
  rintro s t ⟨rfl, hroom⟩
  have hpending : s.book.pending = s.pending := rfl
  unfold pushBack
  rw [hpending]
  split
  · exact ⟨rfl, rfl, hroom⟩
  · split
    · exact Or.inr ⟨rfl, [], rfl, hroom⟩
    · exact ⟨rfl, rfl, hroom⟩

theorem agrees_directive (hash : HashMark) (depth : Nat) :
    Agrees (directive hash depth) (directive hash depth) := by
  refine same_bind agrees_nextToken fun a => ?_
  split
  · split
    · refine same_bind (agrees_pushBack a) fun _ => same_bind (agrees_hashToken hash) fun b => ?_
      exact same_bind (agrees_pushBack b) fun _ => agrees_pure _
    · exact same_bind (same_skipLine (R := reading)) fun _ => agrees_pure _
  · exact agrees_pure _

theorem agrees_groupFrom (startsLine : Bool) (depth : Nat) (c : UInt8) :
    Agrees (groupFrom startsLine depth c) (groupFrom startsLine depth c) := by
  unfold groupFrom
  split
  · exact same_bind agrees_skipCharLiteral fun _ => agrees_pure _
  · split
    · exact same_bind agrees_skipStringLiteral fun _ => agrees_pure _
    · split
      · intro s t h
        rw [LexM.bind_of_ok (show (get : LexM Lexer) s = .ok s s from rfl),
          LexM.bind_of_ok (show (get : LexOn Book (Lexer Book)) t = .ok t t from rfl),
          hashMark?_eq h]
        cases hashMark? t.stream with
        | none => exact agrees_pure _ s t h
        | some hash => exact agrees_directive hash depth s t h
      · exact agrees_pure _

theorem agrees_groupRound (depth : Nat) : Agrees (groupRound depth) (groupRound depth) := by
  have hstart : Agrees isAtLineStart isAtLineStart := simulation.isAtLineStart
  refine same_bind hstart fun startsLine => ?_
  refine same_bind (same_skipBlanks (R := reading)) fun _ => same_bind agrees_next fun c => ?_
  cases c with
  | none => exact agrees_pure _
  | some c => exact agrees_groupFrom startsLine depth c

/-- What is left after a group has been passed over in the book is also left in the stack. -/
theorem skipGroup_book {lx : Lexer} (h : lx.stream.HasRoom 0) {t : Lexer Book}
    (hskip : skipGroup lx.book = .ok () t) :
    ∃ s, skipGroup lx = .ok () s ∧ t = s.book ∧ s.stream.HasRoom 0 := by
  have hagrees : Agrees skipGroup skipGroup :=
    same_bind simulation.needSource fun _ => agrees_loop agrees_groupRound 0
  exact hagrees.of_book h hskip

end CLex.Stack
