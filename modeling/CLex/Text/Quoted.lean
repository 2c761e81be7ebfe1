import CLex.Text.Numeral
import CLex.Text.Printable

namespace CLex.Quoted

/-- The quote to put around a text. -/
def mark (text : List Char) : Char :=
  if '\'' ∈ text ∧ '"' ∉ text then '"' else '\''

/-- How `c` is written between two `quote` characters. -/
def escape (quote c : Char) : List Char :=
  if c = quote ∨ c = '\\' then ['\\', c]
  else if c = '\n' then ['\\', 'n']
  else if c = '\r' then ['\\', 'r']
  else if c = '\t' then ['\\', 't']
  else if Printable.isPrintable c then [c]
  else if c.toNat ≤ 0xFF then ['\\', 'x'] ++ Numeral.hex 2 c.toNat
  else if c.toNat ≤ 0xFFFF then ['\\', 'u'] ++ Numeral.hex 4 c.toNat
  else ['\\', 'U'] ++ Numeral.hex 8 c.toNat

def ofString (text : String) : String :=
  let quote := mark text.toList
  String.ofList (quote :: text.toList.flatMap (escape quote) ++ [quote])

end CLex.Quoted
