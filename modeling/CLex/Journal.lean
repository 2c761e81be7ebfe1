namespace CLex

inductive Event where
  | opened (name : String)
  | closed (name : String)
  /-- The depth is the number of sources on the stack afterwards, here and in `popped`. -/
  | pushed (name : String) (depth : Nat)
  | popped (name : String) (depth : Nat)
  | stashed (name : String)
  | restored
  | warning (shown : String)
  deriving DecidableEq, Repr

namespace Event

def message : Event → String
  | .opened name => "Opened " ++ name
  | .closed name => "Closed " ++ name
  | .pushed name depth => "Pushed " ++ name ++ " (depth " ++ toString depth ++ ")"
  | .popped name depth => "Popped " ++ name ++ " (depth " ++ toString depth ++ ")"
  | .stashed name => "Stashed input stack, now reading " ++ name
  | .restored => "Restored stashed input stack"
  | .warning shown => shown

def isWarning : Event → Bool
  | .warning _ => true
  | _ => false

/-- The importance of an event: a warning, or a detail for debugging. -/
def level (e : Event) : String :=
  if e.isWarning then "WARNING" else "DEBUG"

end Event

structure Journal where
  /-- The latest event comes first, so that adding one takes the same time always. -/
  entries : List Event := []
  deriving DecidableEq, Repr

namespace Journal

def add (j : Journal) (e : Event) : Journal :=
  ⟨e :: j.entries⟩

/-- The events in the order in which they happened. -/
def events (j : Journal) : List Event :=
  j.entries.reverse

@[simp] theorem events_add (j : Journal) (e : Event) : (j.add e).events = j.events ++ [e] := by
  simp [events, add]

end Journal

end CLex
