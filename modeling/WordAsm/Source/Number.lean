/-
# Number literals

A number is decimal, or binary, octal or hexadecimal behind `0b`, `0o` or
`0x`. A sign may stand in front of the digits, also behind the base mark.
Only values of a signed 64-bit integer are numbers.
-/

namespace WordAsm

def digitValue? (c : Char) : Option Nat :=
  if '0' ≤ c ∧ c ≤ '9' then some (c.toNat - 48)
  else if 'a' ≤ c ∧ c ≤ 'z' then some (c.toNat - 87)
  else if 'A' ≤ c ∧ c ≤ 'Z' then some (c.toNat - 55)
  else none

def digitsFrom? (radix acc : Nat) : List Char → Option Nat
  | [] => some acc
  | c :: cs =>
    match digitValue? c with
    | some d => if d < radix then digitsFrom? radix (acc * radix + d) cs else none
    | none => none

def digitsValue? (radix : Nat) : List Char → Option Nat
  | [] => none
  | cs => digitsFrom? radix 0 cs

/-- One past the largest signed 64-bit integer. -/
def numberBound : Nat := 0x8000000000000000

/-- Digits with a sign or without, in the range of a signed 64-bit integer. -/
def signedValue? (radix : Nat) : List Char → Option Int64
  | '-' :: cs => do
    let n ← digitsValue? radix cs
    if n ≤ numberBound then some (Int64.ofInt (-n)) else none
  | '+' :: cs => natural cs
  | cs => natural cs
where
  natural (cs : List Char) : Option Int64 := do
    let n ← digitsValue? radix cs
    if n < numberBound then some (Int64.ofNat n) else none

def parseNumber? : List Char → Option Int64
  | '0' :: mark :: cs =>
    if mark = 'b' ∨ mark = 'B' then signedValue? 2 cs
    else if mark = 'o' ∨ mark = 'O' then signedValue? 8 cs
    else if mark = 'x' ∨ mark = 'X' then signedValue? 16 cs
    else signedValue? 10 ('0' :: mark :: cs)
  | cs => signedValue? 10 cs

end WordAsm
