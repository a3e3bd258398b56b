/-
# Scalars of YAML

A plain scalar of YAML may stand for more than its text: a null, a truth value
or a number. A text that reads as one of these has to be quoted to be a text.
-/
import WordAsm.Source.Number

namespace WordAsm.Yaml

def isNull (s : String) : Bool := ["null", "Null", "NULL", "~"].contains s

def bool? (s : String) : Option Bool :=
  if ["true", "True", "TRUE"].contains s then some true
  else if ["false", "False", "FALSE"].contains s then some false
  else none

def isDecimal (c : Char) : Bool := '0' ≤ c && c ≤ '9'

def isZeroLed (cs : List Char) : Bool :=
  let digits := match cs with
    | '-' :: rest => rest
    | '+' :: rest => rest
    | _ => cs
  match digits with
  | '0' :: rest => !rest.isEmpty && rest.all isDecimal
  | _ => false

/-- The digits of an integer with or without a mark for its base, as a value. -/
def magnitude? : List Char → Option Nat
  | '0' :: 'x' :: rest => digitsValue? 16 rest
  | '0' :: 'o' :: rest => digitsValue? 8 rest
  | '0' :: 'b' :: rest => digitsValue? 2 rest
  | cs => if isZeroLed cs then none else digitsValue? 10 cs

/-- Whether a text is an integer of at most 128 bits. -/
def isInteger : List Char → Bool
  | '-' :: rest => (magnitude? rest).any (· ≤ Nat.pow 2 127)
  | '+' :: rest => (magnitude? rest).any (· < Nat.pow 2 128)
  | cs => (magnitude? cs).any (· < Nat.pow 2 128)

/-- A decimal fraction as digits and a power of ten. -/
structure Fraction where
  digits : Nat
  exponent : Int

/-- The exponent at the end of a fraction; the end may be empty. -/
def exponent? : List Char → Option Int
  | [] => some 0
  | c :: rest =>
    if c = 'e' ∨ c = 'E' then
      match rest with
      | '-' :: digits => (digitsValue? 10 digits).map fun n => -(n : Int)
      | '+' :: digits => (digitsValue? 10 digits).map fun n => (n : Int)
      | digits => (digitsValue? 10 digits).map fun n => (n : Int)
    else none

/-- A fraction without a sign: digits with at most one point among them, and
perhaps an exponent. -/
def fraction? (cs : List Char) : Option Fraction := do
  let whole := cs.takeWhile isDecimal
  let rest := cs.dropWhile isDecimal
  let (part, rest) := match rest with
    | '.' :: rest => (rest.takeWhile isDecimal, rest.dropWhile isDecimal)
    | _ => ([], rest)
  let digits ← digitsValue? 10 (whole ++ part)
  let exponent ← exponent? rest
  return { digits, exponent := exponent - part.length }

def Fraction.isFinite (f : Fraction) : Bool :=
  let limit := Nat.pow 2 1024 - Nat.pow 2 970
  let size : Int := (toString f.digits).length + f.exponent
  f.digits = 0 || size ≤ 300 ||
    (size ≤ 320 && f.digits * Nat.pow 10 f.exponent.toNat < limit * Nat.pow 10 (-f.exponent).toNat)

/-- Whether a text is a number with a fraction, or a value beyond numbers. -/
def isFloat (cs : List Char) : Bool :=
  let (unsigned, isPlus) := match cs with
    | '+' :: rest => (rest, true)
    | _ => (cs, false)
  let body := match unsigned with
    | '-' :: rest => if isPlus then unsigned else rest
    | _ => unsigned
  let name := String.ofList body
  [".inf", ".Inf", ".INF"].contains name || [".nan", ".NaN", ".NAN"].contains (String.ofList cs)
    || (fraction? body).any Fraction.isFinite

/-- Whether a plain scalar of this text would not be taken for a text, or
looks as if it might not. -/
def isTyped (s : String) : Bool :=
  s.isEmpty || isNull s || (bool? s).isSome || isInteger s.toList || isZeroLed s.toList
    || isFloat s.toList

end WordAsm.Yaml
