/-
# Quoted characters and texts

Diagnostics and traces quote a character between single quotes and a text
between double quotes, with escapes for the quote in use, the backslash and
whatever would not be seen.
-/
import WordAsm.Text.Printable

namespace WordAsm

def lowerHexDigits (n : Nat) : List Char := Nat.toDigits 16 n

/-- One character inside quotes `quote`. -/
def escapeIn (quote c : Char) : List Char :=
  if c = quote then ['\\', c]
  else if c = '\\' then ['\\', '\\']
  else if c = '\n' then ['\\', 'n']
  else if c = '\r' then ['\\', 'r']
  else if c = '\t' then ['\\', 't']
  else if c = '\x00' then ['\\', '0']
  else if isHidden c then ['\\', 'u', '\x7b'] ++ lowerHexDigits c.toNat ++ ['\x7d']
  else [c]

def quotedChar (c : Char) : String :=
  String.ofList (['\''] ++ escapeIn '\'' c ++ ['\''])

def quotedText (s : String) : String :=
  String.ofList (['"'] ++ s.toList.flatMap (escapeIn '"') ++ ['"'])

end WordAsm
