import CLex.Lexer.Listing
import CLex.Text.Quoted

namespace CLex

/-- What has been written, and how many tokens it shows. -/
structure Rendering where
  text : String := ""
  count : Nat := 0
  deriving DecidableEq, Repr

namespace Rendering

/-- Adds a token to source text. A token that begins a line begins one in the text as well, unless it
is the first; the end of the tokens ends the last line. -/
def addSource (r : Rendering) (t : Token) : Rendering :=
  match t.lexeme with
  | .eof => { r with text := r.text ++ "\n" }
  | .newline => r
  | _ =>
    { text :=
        r.text ++ (if t.startsLine ∧ r.count ≠ 0 then "\n" else "") ++
          (if t.spaced then " " else "") ++ t.spelling
      count := r.count + 1 }

/-- What is known of a token, on one line: place, kind, spelling, and what stands before it. -/
def line (t : Token) : String :=
  let flags := (if t.spaced then ["space"] else []) ++ if t.startsLine then ["bol"] else []
  t.location.text ++ " " ++ t.lexeme.kind ++ " " ++ Quoted.ofString t.spelling ++
    if flags = [] then "" else " [" ++ ",".intercalate flags ++ "]"

def addLine (r : Rendering) (t : Token) : Rendering :=
  { text := r.text ++ line t ++ "\n", count := r.count + 1 }

def source (tokens : List Token) : Rendering :=
  tokens.foldl addSource {}

def lines (tokens : List Token) : Rendering :=
  tokens.foldl addLine {}

end Rendering

end CLex
