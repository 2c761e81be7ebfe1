/-!
The bytes behind a source, with room for taking the last byte back. Bytes are held in memory, or
come one at a time from an open handle. Several sources may read the handle of standard input; its
unread bytes are kept in one place and lent to the source that reads (`lend`, `settle`).
-/

namespace CLex

inductive Input where
  /-- Bytes in memory: those before the reading position, last one first, and those after it. -/
  | memory (behind ahead : List UInt8)
  /-- An open handle with the byte taken back, if there is one, and the bytes still to come. -/
  | handle (shared : Bool) (held : Option UInt8) (ahead : List UInt8)
  deriving DecidableEq, Repr

namespace Input

def next : Input → Option UInt8 × Input
  | .memory behind [] => (none, .memory behind [])
  | .memory behind (b :: ahead) => (some b, .memory (b :: behind) ahead)
  | .handle shared (some b) ahead => (some b, .handle shared none ahead)
  | .handle shared none [] => (none, .handle shared none [])
  | .handle shared none (b :: ahead) => (some b, .handle shared none ahead)

/-- Takes back the byte `b` that was read last. -/
def takeBack (b : UInt8) : Input → Input
  | .memory [] ahead => .memory [] ahead
  | .memory (c :: behind) ahead => .memory behind (c :: ahead)
  | .handle shared _ ahead => .handle shared (some b) ahead

/-- Skips the next byte if it is `b`. -/
def dropIf (b : UInt8) (input : Input) : Input :=
  match input.next with
  | (none, rest) => rest
  | (some c, rest) => if c = b then rest else rest.takeBack c

def remaining : Input → List UInt8
  | .memory _ ahead => ahead
  | .handle _ held ahead => held.toList ++ ahead

/-- Gives the unread bytes of standard input to an input that shares them. -/
def lend (bytes : List UInt8) : Input → Input
  | .handle true held _ => .handle true held bytes
  | other => other

/-- Takes the unread bytes of standard input out of an input that shares them. -/
def settle (bytes : List UInt8) : Input → Input × List UInt8
  | .handle true held ahead => (.handle true held [], ahead)
  | other => (other, bytes)

def isHandle : Input → Bool
  | .memory _ _ => false
  | .handle _ _ _ => true

def isShared : Input → Bool
  | .memory _ _ => false
  | .handle shared _ _ => shared

theorem remaining_next_some {input rest : Input} {b : UInt8} (h : input.next = (some b, rest)) :
    input.remaining = b :: rest.remaining := by
  match input with
  | .memory _ [] => simp [next] at h
  | .memory _ (_ :: _) => simp [next] at h; obtain ⟨rfl, rfl⟩ := h; rfl
  | .handle _ (some _) _ => simp [next] at h; obtain ⟨rfl, rfl⟩ := h; rfl
  | .handle _ none [] => simp [next] at h
  | .handle _ none (_ :: _) => simp [next] at h; obtain ⟨rfl, rfl⟩ := h; rfl

theorem remaining_next_none {input rest : Input} (h : input.next = (none, rest)) :
    input.remaining = [] ∧ rest = input := by
  match input with
  | .memory _ [] => simp [next] at h; exact ⟨rfl, h.symm⟩
  | .memory _ (_ :: _) => simp [next] at h
  | .handle _ (some _) _ => simp [next] at h
  | .handle _ none [] => simp [next] at h; exact ⟨rfl, h.symm⟩
  | .handle _ none (_ :: _) => simp [next] at h

theorem remaining_takeBack {input rest : Input} {b : UInt8} (h : input.next = (some b, rest)) :
    (rest.takeBack b).remaining = input.remaining := by
  match input with
  | .memory _ [] => simp [next] at h
  | .memory _ (_ :: _) => simp [next] at h; obtain ⟨rfl, rfl⟩ := h; rfl
  | .handle _ (some _) _ => simp [next] at h; obtain ⟨rfl, rfl⟩ := h; rfl
  | .handle _ none [] => simp [next] at h
  | .handle _ none (_ :: _) => simp [next] at h; obtain ⟨rfl, rfl⟩ := h; rfl

theorem remaining_dropIf (b : UInt8) (input : Input) :
    (input.dropIf b).remaining =
      if input.remaining.head? = some b then input.remaining.tail else input.remaining := by
  unfold dropIf
  split
  · next rest h =>
    obtain ⟨hnil, rfl⟩ := remaining_next_none h
    simp [hnil]
  · next c rest h =>
    have hcons := remaining_next_some h
    by_cases hc : c = b
    · simp [hc, hcons]
    · simp [hc, remaining_takeBack h, hcons]

theorem remaining_dropIf_length_le (b : UInt8) (input : Input) :
    (input.dropIf b).remaining.length ≤ input.remaining.length := by
  rw [remaining_dropIf]
  split <;> simp

/-- Where the bytes come from: memory, or a handle, which may be shared. -/
def origin : Input → Option Bool
  | .memory _ _ => none
  | .handle shared _ _ => some shared

theorem isHandle_eq (input : Input) : input.isHandle = input.origin.isSome := by
  cases input <;> rfl

theorem isShared_eq (input : Input) : input.isShared = input.origin.getD false := by
  cases input <;> rfl

theorem origin_next {input rest : Input} {b : Option UInt8} (h : input.next = (b, rest)) :
    rest.origin = input.origin := by
  match input with
  | .memory _ [] | .memory _ (_ :: _) | .handle _ (some _) _ | .handle _ none []
  | .handle _ none (_ :: _) => simp [next] at h; obtain ⟨-, rfl⟩ := h; rfl

@[simp] theorem origin_takeBack (b : UInt8) (input : Input) :
    (input.takeBack b).origin = input.origin := by
  match input with
  | .memory [] _ | .memory (_ :: _) _ | .handle _ _ _ => rfl

theorem origin_dropIf (b : UInt8) (input : Input) : (input.dropIf b).origin = input.origin := by
  unfold dropIf
  split
  · next h => exact origin_next h
  · next h => split <;> simp [origin_next h]

@[simp] theorem origin_lend (bytes : List UInt8) (input : Input) :
    (input.lend bytes).origin = input.origin := by
  match input with
  | .memory _ _ | .handle false _ _ | .handle true _ _ => rfl

@[simp] theorem origin_settle (bytes : List UInt8) (input : Input) :
    (input.settle bytes).1.origin = input.origin := by
  match input with
  | .memory _ _ | .handle false _ _ | .handle true _ _ => rfl

end Input

end CLex
