import CLex.Character
import CLex.Text.Numeral

namespace CLex

/-- A place in a source. Lines and columns count from one; characters put back in an unusual order
can bring them below it. -/
structure Location where
  file : String
  line : Int
  column : Int
  deriving DecidableEq, Repr

namespace Location

/-- The location when there is no source. -/
def unknown : Location :=
  ⟨"(unknown)", 0, 0⟩

def text (l : Location) : String :=
  l.file ++ ":" ++ toString l.line ++ ":" ++ toString l.column

/-- The place `count` columns before `l`. -/
def back (l : Location) (count : Int) : Location :=
  { l with column := l.column - count }

end Location

/-- What is wrong with the input. The first four carry a message of their own. -/
inductive Cause where
  | general (text : String) (hint : Option String)
  | promotedWarning (text : String) (hint : Option String)
  | malformed (text : String) (hint : Option String)
  | headerName (text : String) (hint : Option String)
  | unterminatedComment
  | unterminatedString
  | unterminatedChar
  /-- No hexadecimal digit after `\x`; `found` is empty at the end of input. -/
  | invalidEscape (found : String)
  | invalidUniversal (spelling : String)
  | unconsumed (text : String)
  | cannotOpen (file reason : String)
  deriving DecidableEq, Repr

namespace Cause

def unterminatedHeader : Cause :=
  .headerName "premature end of header name" none

def emptyHeader : Cause :=
  .headerName "header name should not be empty" none

def message : Cause → String
  | .general text _ | .promotedWarning text _ | .malformed text _ | .headerName text _ => text
  | .unterminatedComment => "premature end of block comment"
  | .unterminatedString => "unterminated string"
  | .unterminatedChar => "unterminated char"
  | .invalidEscape found =>
    "\\x is not followed by a hexadecimal character: " ++ (if found = "" then "(eof)" else found)
  | .invalidUniversal spelling => "invalid universal character: " ++ spelling
  | .unconsumed text => "unconsumed input: " ++ text
  | .cannotOpen file reason => "Cannot open " ++ file ++ ": " ++ reason

def hint : Cause → Option String
  | .general _ hint | .promotedWarning _ hint | .malformed _ hint | .headerName _ hint => hint
  | .unterminatedComment => some "add closing */ to terminate the comment"
  | .unterminatedString => some "add closing '\"' to complete the string"
  | .unterminatedChar => some "character literals hold a single character followed by '"
  | .invalidEscape _ | .invalidUniversal _ | .unconsumed _ | .cannotOpen _ _ => none

end Cause

structure Diagnostic where
  cause : Cause
  location : Option Location
  deriving DecidableEq, Repr

namespace Diagnostic

/-- A text headed by its location, if it has one, and by its severity. -/
def headline (location : Option Location) (severity text : String) : String :=
  match location with
  | some l => l.text ++ ": " ++ severity ++ ": " ++ text
  | none => severity ++ ": " ++ text

/-- The diagnostic as it is shown. An empty hint is not shown. -/
def text (d : Diagnostic) : String :=
  headline d.location "error" d.cause.message ++
    match d.cause.hint with
    | none | some "" => ""
    | some hint => "\nhint: " ++ hint

end Diagnostic

/-- Why an operation did not give a result. -/
inductive Failure where
  | diagnostic (d : Diagnostic)
  /-- More characters were put back than the source `file` can hold. -/
  | pushbackFull (file : String) (capacity : Int)
  /-- A source, a set-aside stack or a token buffer was needed and there is none. -/
  | nothingThere
  /-- A universal character name above what four bytes of UTF-8 can hold. -/
  | codePointTooLarge (code : Nat)
  | negativeByte
  | unknownPunctuator (code : Int)
  /-- The name of a source holds the character NUL. -/
  | nulInName
  deriving DecidableEq, Repr

namespace Failure

def located (cause : Cause) (location : Location) : Failure :=
  .diagnostic ⟨cause, some location⟩

def message : Failure → String
  | .diagnostic d => d.text
  | .pushbackFull file capacity =>
    "pushback buffer overflow in " ++ file ++ " (capacity " ++ toString capacity ++ ")"
  | .nothingThere => "nothing there"
  | .codePointTooLarge code =>
    "code point out of UTF-8 range: 0x" ++ String.ofList (Numeral.hex 1 code)
  | .negativeByte => "byte must be in range(0, 256)"
  | .unknownPunctuator code => toString code ++ " is not a valid Punct"
  | .nulInName => "embedded null byte"

end Failure

end CLex
