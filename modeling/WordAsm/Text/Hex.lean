/-
# Hexadecimal text

Addresses and words are shown in upper-case hexadecimal, filled with zeros to
a least width.
-/

namespace WordAsm

def hexDigit (n : Nat) : Char :=
  if n < 10 then Char.ofNat (48 + n) else Char.ofNat (55 + n)

/-- The digits of `n` in base 16, most significant first; zero has one digit. -/
def hexDigits (n : Nat) : List Char :=
  if n < 16 then [hexDigit n] else hexDigits (n / 16) ++ [hexDigit (n % 16)]

def hex (width n : Nat) : String :=
  let digits := hexDigits n
  String.ofList (List.replicate (width - digits.length) '0' ++ digits)

/-- Four digits, as words and addresses are listed. -/
def hexWord (n : Nat) : String := hex 4 n

/-- Four digits behind `0x`. -/
def hexPrefixed (n : Nat) : String := "0x" ++ hex 4 n

end WordAsm
