import CLex.FileTree
import CLex.Source

namespace CLex

structure Host where
  tree : FileTree
  /-- The bytes of standard input; `none` if its descriptor cannot be inspected. -/
  standardInput : Option (List UInt8)
  deriving Repr

namespace Host

def cannotOpen (name reason : String) : Failure :=
  .diagnostic ⟨.cannotOpen name reason, none⟩

/-- Opens a source. Only the position in standard input is shared between sources: a file opened
twice is read twice. -/
def open? (host : Host) (name : String) : Except Failure Source :=
  if name = "-" then
    match host.standardInput with
    | none => .error (cannotOpen name "fstat failed: fileno")
    | some _ => .ok (Source.console name)
  else
    match host.tree.read name with
    | .ok bytes => .ok (Source.ofFile name bytes)
    | .error .nulByte => .error .nulInName
    | .error fault => .error (cannotOpen name fault.reason)

end Host

end CLex
