import CLex.Text.Quoted
import CLex.Text.Similarity

/-!
What the arguments of the command ask for. Options may stand before and after the input; `--` ends
them; short options can share one dash, and the rest of such an argument, or the next argument, is
the value of `-o`. All arguments are read before anything is decided, so a fault in one of them wins
over everything else.
-/

namespace CLex.CommandLine

inductive Flag where
  | tokens
  | noWarnings
  | werror
  | verbose
  | version
  | help
  deriving DecidableEq, Repr

/-- What an option's name stands for. -/
inductive Meaning where
  | flag (f : Flag)
  | output
  deriving DecidableEq, Repr

/-- The names with two dashes and what they mean, in alphabetical order. -/
def longNames : List (String × Meaning) :=
  [("--help", .flag .help), ("--output", .output), ("--tokens", .flag .tokens),
    ("--verbose", .flag .verbose), ("--version", .flag .version), ("--werror", .flag .werror)]

def longName? (name : String) : Option Meaning :=
  longNames.lookup name

/-- The meaning of a letter after one dash. -/
def shortName? : Char → Option Meaning
  | 'o' => some .output
  | 'w' => some (.flag .noWarnings)
  | 'v' => some (.flag .verbose)
  | _ => none

/-- What is wrong with the arguments. -/
inductive UsageFault where
  /-- No option has the name; those in `similar` may be meant. -/
  | unknownOption (name : String) (similar : List String)
  | missingValue (name : String)
  | needlessValue (name : String)
  | missingInput
  | extraArguments (arguments : List String)
  | outputIsDirectory (path : String)
  deriving DecidableEq, Repr

namespace UsageFault

/-- A reminder of the options that may be meant. -/
def hint : (similar : List String) → String
  | [] => ""
  | [name] => " Did you mean " ++ name ++ "?"
  | names => " (Possible options: " ++ ", ".intercalate names ++ ")"

def message : UsageFault → String
  | .unknownOption name similar => "No such option: " ++ name ++ hint similar
  | .missingValue name => "Option " ++ Quoted.ofString name ++ " requires an argument."
  | .needlessValue name => "Option " ++ Quoted.ofString name ++ " does not take a value."
  | .missingInput => "Missing argument 'INPUT'."
  | .extraArguments arguments =>
    "Got unexpected extra argument" ++ (if arguments.length = 1 then "" else "s") ++ " (" ++
      " ".intercalate arguments ++ ")"
  | .outputIsDirectory path =>
    "Invalid value for '-o' / '--output': File " ++ Quoted.ofString path ++ " is a directory."

/-- Whether a reminder of the usage goes with the message. -/
def remindsOfUsage : UsageFault → Bool
  | .missingValue _ | .needlessValue _ => false
  | _ => true

end UsageFault

/-- What the arguments hold. -/
structure Given where
  /-- The options without a value, in order. -/
  flags : List Flag := []
  /-- The last value for the output. -/
  output : Option String := none
  /-- The arguments that are no options, in order. -/
  inputs : List String := []
  deriving DecidableEq, Repr

namespace Given

def addFlag (g : Given) (f : Flag) : Given :=
  { g with flags := g.flags ++ [f] }

def addInput (g : Given) (argument : String) : Given :=
  { g with inputs := g.inputs ++ [argument] }

end Given

/-- What one argument comes to. -/
inductive Effect where
  | given (g : Given)
  /-- The next argument is the value of the output, which was called `name`. -/
  | needsValue (g : Given) (name : String)
  /-- All further arguments are inputs. -/
  | endOfOptions
  | fault (f : UsageFault)

def readLetters (g : Given) : List Char → Effect
  | [] => .given g
  | c :: rest =>
    match shortName? c with
    | none => .fault (.unknownOption (String.ofList ['-', c]) [])
    | some (.flag f) => readLetters (g.addFlag f) rest
    | some .output =>
      if rest = [] then .needsValue g (String.ofList ['-', c])
      else .given { g with output := some (String.ofList rest) }

/-- The name and the value of an argument with two dashes, parted at the first equals sign. -/
def partAtEquals (argument : List Char) : String × Option String :=
  let name := String.ofList (argument.takeWhile (· != '='))
  match argument.dropWhile (· != '=') with
  | [] => (name, none)
  | _ :: value => (name, some (String.ofList value))

def suggestionLimit : Nat := 3

/-- Reads an argument with two dashes. -/
def readLong (g : Given) (argument : List Char) : Effect :=
  let (name, value) := partAtEquals argument
  match longName? name, value with
  | none, _ =>
    .fault (.unknownOption name
      (Similarity.suggestions suggestionLimit name (longNames.map (·.1))))
  | some (.flag f), none => .given (g.addFlag f)
  | some (.flag _), some _ => .fault (.needlessValue name)
  | some .output, none => .needsValue g name
  | some .output, some value => .given { g with output := some value }

def readArgument (g : Given) (argument : String) : Effect :=
  match argument.toList with
  | ['-', '-'] => .endOfOptions
  | '-' :: '-' :: rest => readLong g ('-' :: '-' :: rest)
  | '-' :: c :: rest => readLetters g (c :: rest)
  | _ => .given (g.addInput argument)

def readArguments (g : Given) : List String → Except UsageFault Given
  | [] => .ok g
  | argument :: rest =>
    match readArgument g argument with
    | .given g => readArguments g rest
    | .endOfOptions => .ok { g with inputs := g.inputs ++ rest }
    | .fault f => .error f
    | .needsValue g name =>
      match rest with
      | [] => .error (.missingValue name)
      | value :: rest => readArguments { g with output := some value } rest

structure Settings where
  input : String
  output : Option String
  tokens : Bool
  noWarnings : Bool
  werror : Bool
  verbose : Bool
  deriving DecidableEq, Repr

inductive Request where
  | help
  | version
  | read (settings : Settings)
  deriving DecidableEq, Repr

/-- The request for help or for the version that comes first. -/
def information? (flags : List Flag) : Option Request :=
  flags.findSome? fun
    | .help => some .help
    | .version => some .version
    | _ => none

/-- What the arguments ask for. The output must not be a directory; there must be one input. -/
def request (isDirectory : String → Bool) (arguments : List String) :
    Except UsageFault Request := do
  let given ← readArguments {} arguments
  match information? given.flags with
  | some information => pure information
  | none =>
    match given.output.filter isDirectory with
    | some path => throw (.outputIsDirectory path)
    | none =>
      match given.inputs with
      | [] => throw .missingInput
      | input :: [] =>
        pure <| .read
          { input
            output := given.output
            tokens := given.flags.contains .tokens
            noWarnings := given.flags.contains .noWarnings
            werror := given.flags.contains .werror
            verbose := given.flags.contains .verbose }
      | _ :: extra => throw (.extraArguments extra)

end CLex.CommandLine
