import CLex.Diagnostic
import CLex.Literal
import CLex.Punctuator

namespace CLex

/-- What a token is, with its value. -/
inductive Lexeme where
  | ident (name : String)
  | punctuator (p : Punctuator)
  /-- A number as it is written: digits, letters, dots and signs after exponent letters. -/
  | number (text : String)
  /-- A string literal: its bytes, without a terminating zero. -/
  | string (bytes : List UInt8)
  | char (value : Int)
  | blank
  | newline
  | eof
  /-- A character that begins no token. -/
  | invalid (text : String)
  deriving DecidableEq, Repr

structure Token where
  lexeme : Lexeme
  encoding : Encoding := .plain
  file : Option String := none
  line : Int := 0
  column : Int := 0
  /-- The number of the token within its source. -/
  index : Int := -1
  /-- Blanks or comments stand before the token. -/
  spaced : Bool := false
  /-- The token is the first on its line. -/
  startsLine : Bool := false
  deriving DecidableEq, Repr

namespace Lexeme

def kind : Lexeme → String
  | .ident _ => "IDENT"
  | .punctuator _ => "KEYWORD"
  | .number _ => "NUMBER"
  | .string _ => "STRING"
  | .char _ => "CHAR"
  | .blank => "SPACE"
  | .newline => "NEWLINE"
  | .eof => "EOF"
  | .invalid _ => "INVALID"

/-- Whether a value goes with the kind. -/
def hasValue : Lexeme → Bool
  | .blank | .newline | .eof => false
  | _ => true

/-- The lexeme as source text, in a literal with the given encoding. -/
def spelling (encoding : Encoding) : Lexeme → String
  | .ident text | .number text | .invalid text => text
  | .punctuator p => p.spelling
  | .char value =>
    encoding.mark ++ "'" ++ String.ofList (Literal.spellChar value) ++ "'"
  | .string bytes =>
    encoding.mark ++ "\"" ++ String.ofList (Literal.spellString bytes) ++ "\""
  | .blank => " "
  | .newline => "\n"
  | .eof => "(eof)"

end Lexeme

namespace Token

def spelling (t : Token) : String :=
  t.lexeme.spelling t.encoding

def location (t : Token) : Location :=
  ⟨t.file.getD Location.unknown.file, t.line, t.column⟩

def isEnd (t : Token) : Bool :=
  t.lexeme == .eof

def isPunctuator (t : Token) (p : Punctuator) : Bool :=
  t.lexeme == .punctuator p

def isIdent (t : Token) (name : String) : Bool :=
  t.lexeme == .ident name

end Token

end CLex
