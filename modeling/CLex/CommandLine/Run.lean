import CLex.CommandLine.Arguments
import CLex.CommandLine.Problem
import CLex.Rendering

namespace CLex.CommandLine

/-- What a run leaves behind. -/
structure Outcome where
  exit : Nat
  stdout : String
  stderr : String
  /-- The trace of an internal error ends the error output. -/
  trace : Bool := false
  tree : FileTree

def usageLine : String :=
  "Usage: cpptok [OPTIONS] INPUT\n"

def helpText : String :=
  usageLine ++
    "\n" ++
    "  Tokenize a C source file.\n" ++
    "\n" ++
    "  INPUT is the C source file to read, or - for standard input.\n" ++
    "\n" ++
    "  Examples:\n" ++
    "      cpptok hello.c               # Print reconstructed text\n" ++
    "      cpptok --tokens hello.c      # One token per line\n" ++
    "      cpptok -o out.txt hello.c    # Write to a file\n" ++
    "      cpptok -w hello.c            # No warnings\n" ++
    "\n" ++
    "Options:\n" ++
    "  -o, --output FILE  Write to this file instead of stdout\n" ++
    "  --tokens           Print one token per line with position and flags\n" ++
    "  -w                 Disable all warnings\n" ++
    "  --werror           Make all warnings into errors\n" ++
    "  -v, --verbose      Verbose output\n" ++
    "  --version          Show the version and exit.\n" ++
    "  --help             Show this message and exit.\n"

def versionText : String :=
  "cpptok, version 1.0.0\n"

def usageText (fault : UsageFault) : String :=
  (if fault.remindsOfUsage then usageLine ++ "Try 'cpptok --help' for help.\n\n" else "") ++
    ControlSequence.plain ("Error: " ++ fault.message ++ "\n")

/-- The events that a run shows: all of them with their level, or the warnings alone. -/
def journalText (verbose : Bool) (journal : Journal) : String :=
  "".intercalate <|
    if verbose then journal.events.map fun e => e.level ++ ": " ++ e.message ++ "\n"
    else (journal.events.filter Event.isWarning).map fun e => e.message ++ "\n"

/-- The end of a run that met a problem. -/
def fail (settings : Settings) (problem : Problem) (journal : Journal) (stdout : String)
    (tree : FileTree) : Outcome :=
  let report := problem.report settings.verbose
  { exit := report.exit
    stdout
    stderr := journalText settings.verbose journal ++ report.text
    trace := report.trace
    tree }

/-- The last lines of a verbose run: how many tokens were read, and the warnings again. -/
def closingText (settings : Settings) (count : Nat) (collector : Collector) : String :=
  if settings.verbose then
    "DEBUG: Read " ++ toString count ++ " tokens from " ++ settings.input ++ "\n" ++
      if collector.count = 0 then "" else ControlSequence.plain (collector.report ++ "\n")
  else ""

def render (settings : Settings) (tokens : List Token) : Rendering :=
  if settings.tokens then .lines tokens else .source tokens

/-- Opens a source of a host and makes a lexer for it. -/
def open? (settings : Settings) (host : Host) : Except Failure Lexer := do
  let stream : Stream := { console := host.standardInput.getD [] }
  let (source, stream) ← stream.open? host settings.input
  pure <| .ofStream (stream.push source)
    { enableWarnings := !settings.noWarnings, warningsAsErrors := settings.werror }

/-- The path of the output file; `none` for standard output. -/
def outputPath? (settings : Settings) : Option String :=
  (settings.output.map FileTree.tidy).filter (· != "-")

/-- Reads the input and writes what was asked for. The input is opened before the output file is
emptied, and read afterwards. What was written before a failure stays. -/
def execute (settings : Settings) (host : Host) : Outcome :=
  match open? settings host with
  | .error f => fail settings (.failure f) {} "" host.tree
  | .ok lx =>
    let path? := outputPath? settings
    let emptied : Except PathFault FileTree :=
      match path? with
      | none => .ok host.tree
      | some path => host.tree.write path []
    match emptied with
    | .error fault =>
      fail settings (.ofOutput (path?.getD "") fault) lx.stream.close.journal "" host.tree
    | .ok tree =>
      let lx := (open? settings { host with tree }).toOption.getD lx
      let listing := lx.listing
      let journal := listing.lexer.stream.close.journal
      let rendering := render settings listing.tokens
      let written :=
        match path? with
        | none => tree
        | some path => (tree.write path (Utf8.encode rendering.text)).toOption.getD tree
      let stdout := if path? = none then rendering.text else ""
      match listing.failure with
      | some f => fail settings (.failure f) journal stdout written
      | none =>
        { exit := 0
          stdout
          stderr :=
            journalText settings.verbose journal ++
              closingText settings rendering.count listing.lexer.collector
          tree := written }

def run (host : Host) (arguments : List String) : Outcome :=
  match request host.tree.isDirectory arguments with
  | .error fault => { exit := 2, stdout := "", stderr := usageText fault, tree := host.tree }
  | .ok .help => { exit := 0, stdout := helpText, stderr := "", tree := host.tree }
  | .ok .version => { exit := 0, stdout := versionText, stderr := "", tree := host.tree }
  | .ok (.read settings) => execute settings host

end CLex.CommandLine
