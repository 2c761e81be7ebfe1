import CLex.Diagnostic
import CLex.Input

/-!
One source of characters. Reading a source makes every line end a newline, whichever of `\r\n`,
`\r` and `\n` it was, and makes sure that the last line has one. A source keeps its position, the
characters put back, and the number that its next token will have.

`readChar` also joins lines that end in a backslash. What is left to read has a `weight`; reading a
character lowers it, which is why every loop over characters ends.
-/

namespace CLex

structure Source where
  name : String
  input : Input
  /-- What came out of the input last: nothing yet, or the end of input, or a character. -/
  last : Option (Option UInt8) := none
  line : Int := 1
  column : Int := 1
  /-- Characters put back, the next one to read first. -/
  pushback : List UInt8 := []
  tokens : Nat := 0
  deriving DecidableEq, Repr

namespace Source

open Character

/-- How many characters can be put back. -/
def capacity : Nat := 3

/-- A fresh source over bytes in memory. -/
def ofBytes (name : String) (bytes : List UInt8) : Source :=
  { name, input := .memory [] bytes }

def ofFile (name : String) (bytes : List UInt8) : Source :=
  { name, input := .handle false none bytes }

def console (name : String) : Source :=
  { name, input := .handle true none [] }

def location (s : Source) : Location :=
  ⟨s.name, s.line, s.column⟩

/-- Whether the end of the bytes is the end of the text: no line is open. -/
def isLineClosed (s : Source) : Bool :=
  s.last == some (some newline) || s.last == some none

/-- The next character of the input, with line ends made uniform. -/
def readInput (s : Source) : Option UInt8 × Source :=
  match s.input.next with
  | (none, rest) =>
    let c := if s.isLineClosed then none else some newline
    (c, { s with input := rest, last := some c })
  | (some b, rest) =>
    if b = carriageReturn then
      (some newline, { s with input := rest.dropIf newline, last := some (some newline) })
    else (some b, { s with input := rest, last := some (some b) })

/-- The source with its position moved over `c`. -/
def advance (s : Source) : Option UInt8 → Source
  | none => s
  | some c =>
    if c = newline then { s with line := s.line + 1, column := 1 }
    else { s with column := s.column + 1 }

/-- The next physical character: one that was put back, or one from the input. -/
def get (s : Source) : Option UInt8 × Source :=
  match s.pushback with
  | c :: rest => (some c, { s with pushback := rest }.advance (some c))
  | [] =>
    let r := s.readInput
    (r.1, r.2.advance r.1)

/-- Puts `c` back in front and undoes its move. The column before a newline is not remembered: it
becomes one. -/
def putBack (s : Source) (c : UInt8) : Source :=
  if c = newline then { s with pushback := c :: s.pushback, column := 1, line := s.line - 1 }
  else { s with pushback := c :: s.pushback, column := s.column - 1 }

def unread? (s : Source) (c : UInt8) : Option Source :=
  if s.pushback.length < capacity then some (s.putBack c) else none

/-- Numbers a token: the index and the source afterwards. -/
def nextIndex (s : Source) : Nat × Source :=
  (s.tokens, { s with tokens := s.tokens + 1 })

/-- A bound on the characters left: two for each byte, one for each character put back, and one for
the newline that may have to be added. -/
def weight (s : Source) : Nat :=
  2 * s.input.remaining.length + s.pushback.length + if s.isLineClosed then 0 else 1

@[simp] theorem weight_advance (s : Source) (c : Option UInt8) : (s.advance c).weight = s.weight := by
  cases c with
  | none => rfl
  | some c => simp only [advance]; split <;> rfl

theorem weight_putBack (s : Source) (c : UInt8) : (s.putBack c).weight = s.weight + 1 := by
  simp only [putBack]
  split <;> simp [weight, isLineClosed] <;> omega

theorem weight_readInput_some {s s' : Source} {c : UInt8} (h : s.readInput = (some c, s')) :
    s'.weight < s.weight := by
  unfold readInput at h
  split at h
  · next rest hn =>
    obtain ⟨-, rfl⟩ := Input.remaining_next_none hn
    by_cases hc : s.isLineClosed = true
    · simp [hc] at h
    · simp [hc] at h
      obtain ⟨rfl, rfl⟩ := h
      simp only [weight, hc]
      simp [isLineClosed]
  · next b rest hn =>
    have hlen := congrArg List.length (Input.remaining_next_some hn)
    simp only [List.length_cons] at hlen
    have hdrop := Input.remaining_dropIf_length_le newline rest
    split at h
    · simp at h
      obtain ⟨-, rfl⟩ := h
      simp only [weight, hlen]
      simp [isLineClosed]
      omega
    · simp at h
      obtain ⟨-, rfl⟩ := h
      simp only [weight, hlen]
      split <;> omega

theorem weight_readInput_none {s s' : Source} (h : s.readInput = (none, s')) :
    s'.weight ≤ s.weight := by
  unfold readInput at h
  split at h
  · next rest hn =>
    obtain ⟨-, rfl⟩ := Input.remaining_next_none hn
    by_cases hc : s.isLineClosed = true
    · simp [hc] at h
      obtain rfl := h
      simp only [weight, hc]
      simp [isLineClosed]
    · simp [hc] at h
  · split at h <;> simp at h

theorem weight_get_some {s s' : Source} {c : UInt8} (h : s.get = (some c, s')) :
    s'.weight < s.weight := by
  unfold get at h
  split at h
  · next d rest hp =>
    simp at h
    obtain ⟨-, rfl⟩ := h
    rw [weight_advance]
    simp [weight, isLineClosed, hp]
  · simp at h
    obtain ⟨hc, rfl⟩ := h
    rw [weight_advance]
    exact weight_readInput_some (Prod.ext hc rfl)

theorem weight_get_none {s s' : Source} (h : s.get = (none, s')) : s'.weight ≤ s.weight := by
  unfold get at h
  split at h
  · simp at h
  · simp at h
    obtain ⟨hc, rfl⟩ := h
    rw [weight_advance]
    exact weight_readInput_none (Prod.ext hc rfl)

/-- The next character of the joined lines: a backslash with a newline after it is passed over. A
backslash with anything else after it is a character, and what follows is put back. -/
def readChar (s : Source) : Option UInt8 × Source :=
  match _hb : s.get with
  | (none, s₁) => (none, s₁)
  | (some b, s₁) =>
    if b = backslash then
      match _hc : s₁.get with
      | (none, s₂) => (some b, s₂)
      | (some c, s₂) => if c = newline then s₂.readChar else (some b, s₂.putBack c)
    else (some b, s₁)
termination_by s.weight
decreasing_by exact Nat.lt_trans (weight_get_some _hc) (weight_get_some _hb)

theorem weight_readChar_some {s s' : Source} {c : UInt8} (h : s.readChar = (some c, s')) :
    s'.weight < s.weight := by
  fun_induction readChar s with
  | case1 => simp at h
  | case2 s s₁ s₂ hc hb =>
    simp at h
    obtain ⟨-, rfl⟩ := h
    exact Nat.lt_of_le_of_lt (weight_get_none hc) (weight_get_some hb)
  | case3 s s₁ s₂ hb hc ih =>
    have h₁ := weight_get_some hb
    have h₂ := weight_get_some hc
    have h₃ := ih h
    omega
  | case4 s s₁ d s₂ hc hd hb =>
    simp at h
    obtain ⟨-, rfl⟩ := h
    have h₁ := weight_get_some hb
    have h₂ := weight_get_some hc
    rw [weight_putBack]
    omega
  | case5 s b s₁ hb _ =>
    simp at h
    obtain ⟨-, rfl⟩ := h
    exact weight_get_some hb

theorem weight_readChar_none {s s' : Source} (h : s.readChar = (none, s')) :
    s'.weight ≤ s.weight := by
  fun_induction readChar s with
  | case1 s s₁ hb =>
    simp at h
    obtain rfl := h
    exact weight_get_none hb
  | case2 => simp at h
  | case3 s s₁ s₂ hb hc ih =>
    have h₁ := weight_get_some hb
    have h₂ := weight_get_some hc
    have h₃ := ih h
    omega
  | case4 => simp at h
  | case5 => simp at h

theorem origin_readInput (s : Source) : s.readInput.2.input.origin = s.input.origin := by
  unfold readInput
  split
  · next rest hn => exact Input.origin_next hn
  · next b rest hn =>
    split
    · exact (Input.origin_dropIf _ _).trans (Input.origin_next hn)
    · exact Input.origin_next hn

@[simp] theorem input_advance (s : Source) (c : Option UInt8) : (s.advance c).input = s.input := by
  cases c with
  | none => rfl
  | some c => simp only [advance]; split <;> rfl

@[simp] theorem input_putBack (s : Source) (c : UInt8) : (s.putBack c).input = s.input := by
  simp only [putBack]
  split <;> rfl

theorem origin_get (s : Source) : s.get.2.input.origin = s.input.origin := by
  unfold get
  split
  · simp
  · simpa using origin_readInput s

theorem origin_readChar (s : Source) : s.readChar.2.input.origin = s.input.origin := by
  fun_induction readChar s with
  | case1 s s₁ hb => simpa [hb] using origin_get s
  | case2 s s₁ s₂ hc hb =>
    have h₁ := origin_get s
    have h₂ := origin_get s₁
    simp_all
  | case3 s s₁ s₂ hb hc ih =>
    have h₁ := origin_get s
    have h₂ := origin_get s₁
    simp_all
  | case4 s s₁ d s₂ hc hd hb =>
    have h₁ := origin_get s
    have h₂ := origin_get s₁
    simp_all
  | case5 s b s₁ hb _ => simpa [hb] using origin_get s

/-- The source with the unread bytes of standard input, if that is what it reads. -/
def lend (bytes : List UInt8) (s : Source) : Source :=
  { s with input := s.input.lend bytes }

/-- The source without the bytes of standard input, and these bytes. -/
def settle (bytes : List UInt8) (s : Source) : Source × List UInt8 :=
  let r := s.input.settle bytes
  ({ s with input := r.1 }, r.2)

@[simp] theorem origin_lend (bytes : List UInt8) (s : Source) :
    (s.lend bytes).input.origin = s.input.origin :=
  s.input.origin_lend bytes

@[simp] theorem origin_settle (bytes : List UInt8) (s : Source) :
    (s.settle bytes).1.input.origin = s.input.origin :=
  s.input.origin_settle bytes

theorem weight_lend (bytes : List UInt8) (s : Source) :
    (s.lend bytes).weight ≤ s.weight + if s.input.isShared then 2 * bytes.length else 0 := by
  unfold lend
  match h : s.input with
  | .memory _ _ => simp [Input.lend, Input.isShared, weight, isLineClosed, h]
  | .handle false _ _ => simp [Input.lend, Input.isShared, weight, isLineClosed, h]
  | .handle true _ _ =>
    simp [Input.lend, Input.isShared, Input.remaining, weight, isLineClosed, h]
    omega

theorem weight_settle (bytes : List UInt8) (s : Source) :
    (s.settle bytes).1.weight + 2 * (s.settle bytes).2.length =
      s.weight + if s.input.isShared then 0 else 2 * bytes.length := by
  unfold settle
  match h : s.input with
  | .memory _ _ => simp [Input.settle, Input.isShared, weight, isLineClosed, h]
  | .handle false _ _ => simp [Input.settle, Input.isShared, weight, isLineClosed, h]
  | .handle true _ _ =>
    simp [Input.settle, Input.isShared, Input.remaining, weight, isLineClosed, h]
    omega

theorem weight_settle_le {bytes : List UInt8} {s t : Source} {n : Nat}
    (kind : t.input.origin = s.input.origin) (h : t.weight + n ≤ (s.lend bytes).weight) :
    (t.settle bytes).1.weight + 2 * (t.settle bytes).2.length + n ≤
      s.weight + 2 * bytes.length := by
  have hlend := s.weight_lend bytes
  rw [weight_settle, Input.isShared_eq t.input, kind, ← Input.isShared_eq]
  cases hs : s.input.isShared <;> simp [hs] at hlend ⊢ <;> omega

end Source

end CLex
