import VintageUnix.Text.Numeral
import VintageUnix.Text.Unprintable

/-! Quoted text in the log: argument strings between double quotes, with everything that would
not show as itself written as an escape. -/
namespace VintageUnix.Quoted

/-- One character inside quotes. -/
def escape (c : Char) : String :=
  if c = '\x00' then "\\0"
  else if c = '\t' then "\\t"
  else if c = '\n' then "\\n"
  else if c = '\r' then "\\r"
  else if c = '"' then "\\\""
  else if c = '\\' then "\\\\"
  else if Unprintable.isUnprintable c then "\\u\x7b" ++ Numeral.hex c.toNat ++ "\x7d"
  else String.singleton c

/-- A text in double quotes. -/
def quote (text : String) : String :=
  "\"" ++ String.join (text.toList.map escape) ++ "\""

/-- Quoted texts separated by commas. -/
def quoteAll (texts : List String) : String :=
  ", ".intercalate (texts.map quote)

end VintageUnix.Quoted
