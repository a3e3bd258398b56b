/-
# Expressions

Expressions are arithmetic over signed 64-bit integers that wraps around.
Names and `$`, the current address, get their values from an environment, and
anything unknown makes the whole expression unknown; so do a division by zero
and a shift by more than 63.

The relocation weight counts the addresses in an expression, in signed 32-bit
integers that wrap around: weight 1 moves with its module, weight 0 does not
move. `fold` replaces what does not move by its value.
-/

namespace WordAsm

inductive UnaryOp
  | neg
  | not
  deriving DecidableEq

inductive BinaryOp
  | add
  | sub
  | mul
  | div
  | mod
  | and
  | or
  | xor
  | shl
  | shr
  deriving DecidableEq

inductive Expr
  | number (value : Int64)
  | ident (name : String)
  | current
  | unary (op : UnaryOp) (e : Expr)
  | binary (op : BinaryOp) (l r : Expr)
  deriving DecidableEq

/-- Where names and `$` get their values. -/
structure Environment where
  lookup : String → Option Int64
  current : Option Int64

def UnaryOp.apply : UnaryOp → Int64 → Int64
  | neg, v => -v
  | not, v => ~~~v

def shiftAmount? (v : Int64) : Option Int64 :=
  if 0 ≤ v.toInt ∧ v.toInt < 64 then some v else none

def divides (l r : Int64) : Bool :=
  r != 0 && !(l == Int64.minValue && r == -1)

def BinaryOp.apply : BinaryOp → Int64 → Int64 → Option Int64
  | add, l, r => some (l + r)
  | sub, l, r => some (l - r)
  | mul, l, r => some (l * r)
  | div, l, r => if divides l r then some (l / r) else none
  | mod, l, r => if divides l r then some (l % r) else none
  | and, l, r => some (l &&& r)
  | or, l, r => some (l ||| r)
  | xor, l, r => some (l ^^^ r)
  | shl, l, r => (shiftAmount? r).map (l <<< ·)
  | shr, l, r => (shiftAmount? r).map (l >>> ·)

def BinaryOp.text : BinaryOp → String
  | add => "+"
  | sub => "-"
  | mul => "*"
  | div => "/"
  | mod => "%"
  | and => "&"
  | or => "|"
  | xor => "^"
  | shl => "<<"
  | shr => ">>"

namespace Expr

def asNumber? : Expr → Option Int64
  | number v => some v
  | _ => none

/-- The names an expression refers to, in source order. -/
def identifiers : Expr → List String
  | number _ => []
  | ident name => [name]
  | current => []
  | unary _ e => e.identifiers
  | binary _ l r => l.identifiers ++ r.identifiers

def usesCurrent : Expr → Bool
  | number _ => false
  | ident _ => false
  | current => true
  | unary _ e => e.usesCurrent
  | binary _ l r => l.usesCurrent || r.usesCurrent

/-- The value in an environment, if everything it needs is known. -/
def eval (env : Environment) : Expr → Option Int64
  | number v => some v
  | ident name => env.lookup name
  | current => env.current
  | unary op e =>
    match e.eval env with
    | some v => some (op.apply v)
    | none => none
  | binary op l r =>
    match l.eval env, r.eval env with
    | some a, some b => op.apply a b
    | _, _ => none

/-- The weight of two weighed operands under an operator. -/
def combineWeights (op : BinaryOp) (l r : Int32) : Option Int32 :=
  match op with
  | .add => some (l + r)
  | .sub => some (l - r)
  | _ => if l = 0 ∧ r = 0 then some 0 else none

/-- How many addresses an expression counts, given the weights of its names.
An address under any operator but `+` and `-` has no weight. -/
def weight (weigh : String → Option Int32) : Expr → Option Int32
  | number _ => some 0
  | ident name => weigh name
  | current => some 1
  | unary .neg e => (e.weight weigh).map (- ·)
  | unary .not e =>
    match e.weight weigh with
    | some w => if w = 0 then some 0 else none
    | none => none
  | binary op l r =>
    match l.weight weigh, r.weight weigh with
    | some a, some b => combineWeights op a b
    | _, _ => none

/-- Whether an expression stays where it is: weight 0 and a known value. -/
def constant? (env : Environment) (weigh : String → Option Int32) (e : Expr) : Option Int64 :=
  if e.weight weigh = some 0 then e.eval env else none

/-- Replaces the largest parts that do not move by their values. -/
def fold (env : Environment) (weigh : String → Option Int32) (e : Expr) : Expr :=
  match constant? env weigh e with
  | some v => number v
  | none =>
    match e with
    | unary op e => unary op (e.fold env weigh)
    | binary op l r => binary op (l.fold env weigh) (r.fold env weigh)
    | e => e

/-- The expression as text, fully parenthesised. -/
def text : Expr → String
  | number v => toString v.toInt
  | ident name => name
  | current => "$"
  | unary .neg e => "-" ++ e.text
  | unary .not e => "~" ++ e.text
  | binary op l r => "(" ++ l.text ++ " " ++ op.text ++ " " ++ r.text ++ ")"

end Expr

end WordAsm
