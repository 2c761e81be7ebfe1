namespace CLex.ControlSequence

/-- The character that begins a control sequence. -/
def escape : Char := '\x1b'

def isParameter (c : Char) : Bool :=
  c == ';' || c == '?' || c.isDigit

/-- What follows the control sequence whose parameters begin here; `none` if no letter ends them. -/
def afterParameters? : List Char → Option (List Char)
  | [] => none
  | c :: rest =>
    if isParameter c then afterParameters? rest else if c.isAlpha then some rest else none

/-- What follows the control sequence at the beginning of a text, if there is one. -/
def after? : List Char → Option (List Char)
  | c :: '[' :: rest => if c = escape then afterParameters? rest else none
  | _ => none

theorem length_afterParameters?_lt {text rest : List Char} (h : afterParameters? text = some rest) :
    rest.length < text.length := by
  induction text with
  | nil => simp [afterParameters?] at h
  | cons c text ih =>
    unfold afterParameters? at h
    split at h
    · exact Nat.lt_succ_of_lt (ih h)
    · split at h
      · simp at h
        simp [h]
      · simp at h

theorem length_after?_lt {text rest : List Char} (h : after? text = some rest) :
    rest.length < text.length := by
  unfold after? at h
  split at h
  · next c text =>
    split at h
    · have := length_afterParameters?_lt h
      simp
      omega
    · simp at h
  · simp at h

/-- The text without its control sequences. What is left is not searched again. -/
def strip (text : List Char) : List Char :=
  match _h : text with
  | [] => []
  | c :: rest =>
    match _ha : after? (c :: rest) with
    | some rest => strip rest
    | none => c :: strip rest
termination_by text.length
decreasing_by
  · exact length_after?_lt _ha
  · simp

theorem strip_eq_self {text : List Char} (h : escape ∉ text) : strip text = text := by
  induction text with
  | nil => rw [strip]
  | cons c text ih =>
    rw [List.mem_cons, not_or] at h
    have none_after : after? (c :: text) = none := by
      unfold after?
      split
      · next heq =>
        obtain ⟨rfl, rfl⟩ := List.cons.inj heq
        exact if_neg (Ne.symm h.1)
      · rfl
    rw [strip, none_after, ih h.2]

/-- The text as it is shown where there is no terminal. -/
def plain (text : String) : String :=
  String.ofList (strip text.toList)

end CLex.ControlSequence
