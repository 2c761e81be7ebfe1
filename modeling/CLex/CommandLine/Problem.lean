import CLex.Diagnostic
import CLex.FileTree
import CLex.Text.ControlSequence
import CLex.Text.Quoted

namespace CLex.CommandLine

/-- What kept the command from finishing. -/
inductive Problem where
  | failure (f : Failure)
  | refused (text : String)
  | internal (text : String)
  deriving DecidableEq, Repr

/-- The end of a run: the exit code, the last words, and whether the trace of an internal error is
to follow them. -/
structure Report where
  exit : Nat
  text : String
  trace : Bool
  deriving DecidableEq, Repr

/-- A report of one message, which is shown without control sequences. -/
def Report.ofMessage (exit : Nat) (message : String) (trace : Bool := false) : Report :=
  ⟨exit, ControlSequence.plain (message ++ "\n"), trace⟩

namespace Problem

/-- An output file that cannot be opened. Only a missing directory is the user's to put right. -/
def ofOutput (path : String) (fault : PathFault) : Problem :=
  let text :=
    "[Errno " ++ toString fault.number ++ "] " ++ fault.reason ++ ": " ++ Quoted.ofString path
  match fault with
  | .missing => .refused text
  | .nulByte => .failure .nulInName
  | .notDirectory | .isDirectory | .nameTooLong => .internal text

def internalReport (verbose : Bool) (text : String) : Report :=
  .ofMessage 3 ("Internal error: " ++ text) verbose

def report (verbose : Bool) : Problem → Report
  | .failure (.diagnostic d) =>
    match d.cause with
    | .cannotOpen _ _ => .ofMessage 2 d.text
    | _ => .ofMessage 1 d.text
  | .failure f => internalReport verbose f.message
  | .refused text => .ofMessage 2 ("Error: " ++ text)
  | .internal text => internalReport verbose text

end Problem

end CLex.CommandLine
