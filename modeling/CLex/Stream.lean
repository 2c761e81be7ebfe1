import CLex.CharStream
import CLex.Host
import CLex.Journal

/-!
A stack of sources read as one stream of characters. The source on top is read first; when it ends
it is closed and taken off, and reading goes on below. A whole stack can be set aside for a single
source and brought back later.
-/

namespace CLex

structure Stream where
  files : List Source := []
  /-- The stacks set aside, the latest first. -/
  stashed : List (List Source) := []
  /-- The unread bytes of standard input. -/
  console : List UInt8 := []
  journal : Journal := {}
  deriving DecidableEq, Repr

namespace Stream

/-- The stream over given sources, the active one first. -/
def ofSources (files : List Source) : Stream :=
  { files }

def depth (s : Stream) : Nat :=
  s.files.length

def top? (s : Stream) : Option Source :=
  s.files.head?

def location (s : Stream) : Location :=
  match s.files with
  | [] => .unknown
  | top :: _ => top.location

def record (s : Stream) (e : Event) : Stream :=
  { s with journal := s.journal.add e }

def push (s : Stream) (source : Source) : Stream :=
  { s with files := source :: s.files }.record (.pushed source.name (s.depth + 1))

def pop? (s : Stream) : Option (Source × Stream) :=
  match s.files with
  | [] => none
  | top :: below => some (top, { s with files := below }.record (.popped top.name below.length))

/-- Notes that a source is released. Bytes in memory need no releasing. -/
def release (s : Stream) (source : Source) : Stream :=
  if source.input.isHandle then s.record (.closed source.name) else s

/-- Takes the active source off and releases it. -/
def drop (s : Stream) : Stream :=
  match s.pop? with
  | none => s
  | some (top, rest) => rest.release top

/-- Sets the stack aside for `source` alone. -/
def stash (s : Stream) (source : Source) : Stream :=
  { s with files := [source], stashed := s.files :: s.stashed }.record (.stashed source.name)

/-- Brings the stack set aside last back. -/
def unstash? (s : Stream) : Option Stream :=
  match s.stashed with
  | [] => none
  | files :: stashed => some ({ s with files, stashed }.record .restored)

def open? (s : Stream) (host : Host) (name : String) : Except Failure (Source × Stream) :=
  (host.open? name).map fun source => (source, s.record (.opened name))

/-- The next character of the active source; `none` when it has ended. -/
def readChar (s : Stream) : Option UInt8 × Stream :=
  match s.files with
  | [] => (none, s)
  | top :: below =>
    let r := (top.lend s.console).readChar
    let settled := r.2.settle s.console
    (r.1, { s with files := settled.1 :: below, console := settled.2 })

/-- Puts `c` back onto the active source. A character for which there is no room is lost. -/
def unread (s : Stream) (c : UInt8) : Except Failure Stream :=
  match s.files with
  | [] => .error .nothingThere
  | top :: below =>
    match top.unread? c with
    | some top => .ok { s with files := top :: below }
    | none => .error (.pushbackFull top.name Source.capacity)

def weight (s : Stream) : Nat :=
  s.files.foldr (fun source n => source.weight + n) 0 + 2 * s.console.length

@[simp] theorem weight_record (s : Stream) (e : Event) : (s.record e).weight = s.weight :=
  rfl

@[simp] theorem files_record (s : Stream) (e : Event) : (s.record e).files = s.files :=
  rfl

@[simp] theorem weight_release (s : Stream) (source : Source) :
    (s.release source).weight = s.weight := by
  unfold release
  split <;> rfl

@[simp] theorem files_release (s : Stream) (source : Source) :
    (s.release source).files = s.files := by
  unfold release
  split <;> rfl

theorem files_drop (s : Stream) : s.drop.files = s.files.tail := by
  unfold drop pop?
  cases h : s.files with
  | nil => simp [h]
  | cons top below => simp

theorem weight_drop_le (s : Stream) : s.drop.weight ≤ s.weight := by
  unfold drop pop?
  split
  · exact Nat.le_refl _
  · next top rest h =>
    split at h
    · simp at h
    · next top' below hf =>
      simp at h
      obtain ⟨rfl, rfl⟩ := h
      rw [weight_release, weight_record]
      simp only [weight, hf, List.foldr_cons]
      omega

theorem length_files_readChar (s : Stream) : s.readChar.2.files.length = s.files.length := by
  unfold readChar
  split
  · rfl
  · next top below h => simp [h]

theorem weight_readChar_some {s s' : Stream} {c : UInt8} (h : s.readChar = (some c, s')) :
    s'.weight < s.weight := by
  unfold readChar at h
  split at h
  · simp at h
  · next top below hf =>
    simp at h
    obtain ⟨hc, rfl⟩ := h
    have kind := (Source.origin_readChar (top.lend s.console)).trans (top.origin_lend s.console)
    have spent := Source.weight_settle_le (n := 1) kind (Source.weight_readChar_some (Prod.ext hc rfl))
    simp only [weight, hf, List.foldr_cons]
    omega

theorem weight_readChar_none {s s' : Stream} (h : s.readChar = (none, s')) :
    s'.weight ≤ s.weight := by
  unfold readChar at h
  split at h
  · simp at h
    simp [h]
  · next top below hf =>
    simp at h
    obtain ⟨hc, rfl⟩ := h
    have kind := (Source.origin_readChar (top.lend s.console)).trans (top.origin_lend s.console)
    have spent := Source.weight_settle_le (n := 0) kind
      (Source.weight_readChar_none (Prod.ext hc rfl))
    simp only [weight, hf, List.foldr_cons]
    omega

theorem weight_unread {s s' : Stream} {c : UInt8} (h : s.unread c = .ok s') :
    s'.weight = s.weight + 1 := by
  unfold unread at h
  split at h
  · simp at h
  · next top below hf =>
    split at h
    · next top' ht =>
      simp at h
      obtain rfl := h
      unfold Source.unread? at ht
      split at ht
      · simp at ht
        obtain rfl := ht
        simp [weight, hf, Source.weight_putBack]
        omega
      · simp at ht
    · simp at h

/-- The next character of the stream. A source that has ended is dropped, unless it is the last. -/
def readAcross (s : Stream) : Option UInt8 × Stream :=
  match _h : s.readChar with
  | (some c, s') => (some c, s')
  | (none, s') => if s'.files.length ≤ 1 then (none, s') else s'.drop.readAcross
termination_by s.files.length
decreasing_by
  have hlen := length_files_readChar s
  rw [_h] at hlen
  rw [files_drop, List.length_tail]
  simp only at hlen
  omega

theorem weight_readAcross_some {s s' : Stream} {c : UInt8} (h : s.readAcross = (some c, s')) :
    s'.weight < s.weight := by
  fun_induction readAcross s with
  | case1 s d s₁ hr =>
    simp at h
    obtain ⟨-, rfl⟩ := h
    exact weight_readChar_some hr
  | case2 => simp at h
  | case3 s s₁ hr _ ih =>
    have h₁ := weight_readChar_none hr
    have h₂ := weight_drop_le s₁
    have h₃ := ih h
    omega

theorem weight_readAcross_none {s s' : Stream} (h : s.readAcross = (none, s')) :
    s'.weight ≤ s.weight := by
  fun_induction readAcross s with
  | case1 => simp at h
  | case2 s s₁ hr _ =>
    simp at h
    obtain rfl := h
    exact weight_readChar_none hr
  | case3 s s₁ hr _ ih =>
    have h₁ := weight_readChar_none hr
    have h₂ := weight_drop_le s₁
    have h₃ := ih h
    omega

def close (s : Stream) : Stream :=
  match _h : s.files with
  | [] => s
  | _ :: _ => s.drop.close
termination_by s.files.length
decreasing_by simp [files_drop, _h]

def draw (s : Stream) : Nat × Stream :=
  match s.files with
  | [] => (0, s)
  | top :: below =>
    let r := top.nextIndex
    (r.1, { s with files := r.2 :: below })

theorem weight_draw (s : Stream) : s.draw.2.weight = s.weight := by
  unfold draw
  split
  · rfl
  · next top below hf =>
    simp [weight, hf, Source.nextIndex, Source.weight, Source.isLineClosed]

end Stream

/-- The stream that the program reads: a stack of sources. -/
instance : CharStream Stream where
  read := Stream.readAcross
  unread := Stream.unread
  place? s := s.top?.map Source.location
  depth := Stream.depth
  draw := Stream.draw
  note s shown := s.record (.warning shown)
  weight := Stream.weight
  weight_read_some := Stream.weight_readAcross_some
  weight_read_none := Stream.weight_readAcross_none
  weight_unread := Stream.weight_unread
  weight_draw := Stream.weight_draw
  weight_note s _ := s.weight_record _

end CLex
