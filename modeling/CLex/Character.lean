namespace CLex.Character

def newline : UInt8 := 10
def carriageReturn : UInt8 := 13
def doubleQuote : UInt8 := 34
def singleQuote : UInt8 := 39
def backslash : UInt8 := 92

def byte (c : Char) : UInt8 :=
  c.toUInt8

def bytes (spelling : List Char) : List UInt8 :=
  spelling.map byte

/-- The text of one byte, by the code point of the same number. -/
def text (c : UInt8) : String :=
  String.singleton (Char.ofNat c.toNat)

/-- The text of some bytes, by the code points of the same numbers. -/
def textOf (cs : List UInt8) : String :=
  String.ofList (cs.map fun c => Char.ofNat c.toNat)

def isDigit (code : Nat) : Bool :=
  0x30 ≤ code && code ≤ 0x39

def isOctalDigit (code : Nat) : Bool :=
  0x30 ≤ code && code ≤ 0x37

def isLetter (code : Nat) : Bool :=
  (0x41 ≤ code && code ≤ 0x5A) || (0x61 ≤ code && code ≤ 0x7A)

def hexValue? (code : Nat) : Option Nat :=
  if 0x30 ≤ code ∧ code ≤ 0x39 then some (code - 0x30)
  else if 0x41 ≤ code ∧ code ≤ 0x46 then some (code - 0x37)
  else if 0x61 ≤ code ∧ code ≤ 0x66 then some (code - 0x57)
  else none

/-- Letters, the underscore, the dollar sign and everything outside ASCII. -/
def isIdentStart (code : Nat) : Bool :=
  isLetter code || code == 0x5F || code == 0x24 || 0x80 ≤ code

def isIdentChar (code : Nat) : Bool :=
  isIdentStart code || isDigit code

/-- Blanks within a line: space, tab, form feed and vertical tab. -/
def isBlank (code : Nat) : Bool :=
  code == 0x20 || code == 0x09 || code == 0x0C || code == 0x0B

/-- The letters after which a pp-number may have a sign: `e`, `E`, `p` and `P`. -/
def isExponentMark (code : Nat) : Bool :=
  code == 0x65 || code == 0x45 || code == 0x70 || code == 0x50

def isSign (code : Nat) : Bool :=
  code == 0x2B || code == 0x2D

/-- The letters that begin a universal character name after a backslash. -/
def isUniversalMark (code : Nat) : Bool :=
  code == 0x75 || code == 0x55

end CLex.Character
