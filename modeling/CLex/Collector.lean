import CLex.Diagnostic

namespace CLex

structure Collector where
  limit : Int
  warnings : List String
  deriving DecidableEq, Repr

namespace Collector

def empty (limit : Int) : Collector :=
  ⟨limit, []⟩

/-- A warning as it is shown. -/
def warningText (location : Option Location) (text : String) : String :=
  Diagnostic.headline location "warning" text

/-- Keeps a shown warning if there is room. -/
def keep (c : Collector) (shown : String) : Collector :=
  if (c.warnings.length : Int) < c.limit then { c with warnings := c.warnings ++ [shown] } else c

def add (c : Collector) (text : String) (location : Option Location) : String × Collector :=
  let shown := warningText location text
  (shown, c.keep shown)

def count (c : Collector) : Nat :=
  c.warnings.length

def clear (c : Collector) : Collector :=
  { c with warnings := [] }

/-- All kept warnings, a line each, and a last line that counts them. -/
def report (c : Collector) : String :=
  let noun := if c.count = 1 then "warning" else "warnings"
  "\n".intercalate (c.warnings ++ [toString c.count ++ " " ++ noun])

@[simp] theorem count_empty (limit : Int) : (empty limit).count = 0 :=
  rfl

end Collector

end CLex
