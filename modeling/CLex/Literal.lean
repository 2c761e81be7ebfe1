import CLex.Character
import CLex.Text.Numeral

namespace CLex

inductive Encoding where
  | plain
  | wide
  | char16
  | char32
  | utf8
  deriving DecidableEq, Repr

namespace Encoding

/-- What stands before the opening quote. -/
def mark : Encoding → String
  | .plain => ""
  | .wide => "L"
  | .char16 => "u"
  | .char32 => "U"
  | .utf8 => "u8"

def all : List Encoding :=
  [.plain, .wide, .char16, .char32, .utf8]

def ofMark? (mark : String) : Option Encoding :=
  all.find? fun e => e.mark == mark

theorem ofMark?_mark (e : Encoding) : ofMark? e.mark = some e := by
  cases e <;> decide

end Encoding

namespace Literal

/-- A byte inside a string literal. What is not printable ASCII takes a short escape if there is
one, and otherwise three octal digits, which no following digit can lengthen. -/
def spellByte (b : UInt8) : List Char :=
  if b = Character.doubleQuote then ['\\', '"']
  else if b = Character.backslash then ['\\', '\\']
  else if b = 8 then ['\\', 'b']
  else if b = 12 then ['\\', 'f']
  else if b = 10 then ['\\', 'n']
  else if b = 13 then ['\\', 'r']
  else if b = 9 then ['\\', 't']
  else if 0x20 ≤ b ∧ b < 0x7F then [Char.ofNat b.toNat]
  else '\\' :: Numeral.fixed 8 3 b.toNat

/-- The body of a string literal with these bytes. -/
def spellString (bytes : List UInt8) : List Char :=
  bytes.flatMap spellByte

/-- The body of a character literal with this value. A negative value is that of a signed byte. -/
def spellChar (value : Int) : List Char :=
  if value = 0x5C then ['\\', '\\']
  else if value = 0x27 then ['\\', '\'']
  else if 0x20 ≤ value ∧ value < 0x7F then [Char.ofNat value.toNat]
  else
    let code := if value < 0 then (value % 0x100).toNat else value.toNat
    if code ≤ 0xFF then ['\\', 'x'] ++ Numeral.hex 2 code
    else if code ≤ 0xFFFF then ['\\', 'u'] ++ Numeral.hex 4 code
    else ['\\', 'U'] ++ Numeral.hex 8 code

end Literal

end CLex
