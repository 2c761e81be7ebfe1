import CLex.Diagnostic

namespace CLex

class CharStream (σ : Type) where
  /-- The next character; `none` at the end. -/
  read : σ → Option UInt8 × σ
  unread : σ → UInt8 → Except Failure σ
  /-- The place of the next character; `none` if there is no source to read. -/
  place? : σ → Option Location
  depth : σ → Nat
  draw : σ → Nat × σ
  note : σ → String → σ
  weight : σ → Nat
  weight_read_some {s s' : σ} {c : UInt8} (h : read s = (some c, s')) : weight s' < weight s
  weight_read_none {s s' : σ} (h : read s = (none, s')) : weight s' ≤ weight s
  weight_unread {s s' : σ} {c : UInt8} (h : unread s c = .ok s') : weight s' = weight s + 1
  weight_draw (s : σ) : weight (draw s).2 = weight s
  weight_note (s : σ) (shown : String) : weight (note s shown) = weight s

namespace CharStream

variable {σ : Type} [CharStream σ]

/-- The place of the next character, also without a source. -/
def location (s : σ) : Location :=
  (place? s).getD .unknown

end CharStream

end CLex
