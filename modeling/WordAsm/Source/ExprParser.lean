/-
# Reading expressions

Binary operators bind in six levels, loosest first: `|`, `^`, `&`, the shifts,
`+ -`, `* / %`. All of them group to the left, unary `- ~ +` bind tighter, and
parentheses leave no trace. Every step takes at least one token, which is what
the results carry along and why reading ends.
-/
import WordAsm.Machine.Register
import WordAsm.Source.Expr
import WordAsm.Source.Marker
import WordAsm.Source.Token

namespace WordAsm

/-- Why a line is not accepted. -/
inductive Fault
  | endOfLine
  | unexpected (token : Token)
  | invalid (message : String) (location : Location)
  deriving DecidableEq

def Fault.marker (eol : Location) : Fault → Marker
  | endOfLine => (Marker.error "Unexpected end of line").located eol
  | unexpected token =>
    (Marker.error ("Unexpected " ++ token.kind.describe)).located token.location
  | invalid message location => (Marker.error message).located location

/-- What was read from the front of `ts`, and the tokens left. -/
abbrev Reading (α : Type) (ts : List Token) :=
  Except Fault (α × { rest : List Token // rest.length < ts.length })

namespace Precedence

def orOps : TokenKind → Option BinaryOp
  | .pipe => some .or
  | _ => none

def xorOps : TokenKind → Option BinaryOp
  | .caret => some .xor
  | _ => none

def andOps : TokenKind → Option BinaryOp
  | .amp => some .and
  | _ => none

def shiftOps : TokenKind → Option BinaryOp
  | .shiftLeft => some .shl
  | .shiftRight => some .shr
  | _ => none

def sumOps : TokenKind → Option BinaryOp
  | .plus => some .add
  | .minus => some .sub
  | _ => none

def productOps : TokenKind → Option BinaryOp
  | .star => some .mul
  | .slash => some .div
  | .percent => some .mod
  | _ => none

def levels : List (TokenKind → Option BinaryOp) :=
  [orOps, xorOps, andOps, shiftOps, sumOps, productOps]

end Precedence

def namedOperand (name : String) (location : Location) : Except Fault Expr :=
  match Register.ofName? name with
  | some _ => .error (.invalid s!"Register `{name}` cannot be used in an expression" location)
  | none => .ok (.ident name)

/-- What a sign in front of an operand does; a plus sign does nothing. -/
def sign? : TokenKind → Option (Option UnaryOp)
  | .minus => some (some .neg)
  | .tilde => some (some .not)
  | .plus => some none
  | _ => none

abbrev ParserUpTo (n : Nat) := (ts : List Token) → ts.length ≤ n → Reading Expr ts

/-- Goes on with operators of one level behind the operand `lhs`. -/
def parseChain {n : Nat} (operand : ParserUpTo n) (ops : TokenKind → Option BinaryOp) (lhs : Expr)
    (ts : List Token) (h : ts.length ≤ n) :
    Except Fault (Expr × { rest : List Token // rest.length ≤ ts.length }) :=
  match ts with
  | [] => .ok (lhs, ⟨[], Nat.le_refl _⟩)
  | t :: ts =>
    match ops t.kind with
    | none => .ok (lhs, ⟨t :: ts, Nat.le_refl _⟩)
    | some op =>
      match operand ts (Nat.le_of_succ_le h) with
      | .error fault => .error fault
      | .ok (rhs, ⟨rest, hr⟩) =>
        match parseChain operand ops (.binary op lhs rhs) rest
            (Nat.le_trans (Nat.le_of_lt hr) (Nat.le_of_succ_le h)) with
        | .error fault => .error fault
        | .ok (e, ⟨rest', hr'⟩) =>
          .ok (e, ⟨rest', Nat.le_trans hr' (Nat.le_succ_of_le (Nat.le_of_lt hr))⟩)
termination_by ts.length
decreasing_by
  exact Nat.lt_succ_of_lt hr

/-- An expression of the given levels of binary operators over `operand`. -/
def parseLevels {n : Nat} (operand : ParserUpTo n) :
    List (TokenKind → Option BinaryOp) → ParserUpTo n
  | [], ts, h => operand ts h
  | ops :: tighter, ts, h =>
    match parseLevels operand tighter ts h with
    | .error fault => .error fault
    | .ok (lhs, ⟨rest, hr⟩) =>
      match parseChain (parseLevels operand tighter) ops lhs rest
          (Nat.le_trans (Nat.le_of_lt hr) h) with
      | .error fault => .error fault
      | .ok (e, ⟨rest', hr'⟩) => .ok (e, ⟨rest', Nat.lt_of_le_of_lt hr' hr⟩)

/-- A literal, a name, `$` or an expression in parentheses, which `inner` reads. -/
def parsePrimary {n : Nat} (inner : ParserUpTo n) (t : Token) (ts : List Token)
    (h : ts.length ≤ n) : Reading Expr (t :: ts) :=
  match t.kind with
  | .number v => .ok (.number v, ⟨ts, Nat.lt_succ_self _⟩)
  | .char c => .ok (.number (Int64.ofNat c.toNat), ⟨ts, Nat.lt_succ_self _⟩)
  | .ident name =>
    match namedOperand name t.location with
    | .error fault => .error fault
    | .ok e => .ok (e, ⟨ts, Nat.lt_succ_self _⟩)
  | .dotted name => .ok (.ident name, ⟨ts, Nat.lt_succ_self _⟩)
  | .dollar => .ok (.current, ⟨ts, Nat.lt_succ_self _⟩)
  | .leftParen =>
    match inner ts h with
    | .error fault => .error fault
    | .ok (_, ⟨[], _⟩) => .error .endOfLine
    | .ok (e, ⟨close :: rest, hr⟩) =>
      if close.kind = .rightParen then
        .ok (e, ⟨rest, Nat.lt_succ_of_lt (Nat.lt_of_succ_lt hr)⟩)
      else .error (.unexpected close)
  | _ => .error (.unexpected t)

def parseUnary {n : Nat} (inner : ParserUpTo n) : ParserUpTo (n + 1)
  | [], _ => .error .endOfLine
  | t :: ts, h =>
    match sign? t.kind with
    | some op =>
      match parseUnary inner ts (Nat.le_of_succ_le h) with
      | .error fault => .error fault
      | .ok (e, ⟨rest, hr⟩) => .ok (op.elim e (.unary · e), ⟨rest, Nat.lt_succ_of_lt hr⟩)
    | none => parsePrimary inner t ts (Nat.le_of_succ_le_succ h)

/-- An expression at the front of a list of at most `n` tokens. Each pair of
parentheses takes a token, so the bound goes down by one inside. -/
def parseWithin : (n : Nat) → ParserUpTo n
  | 0 => fun _ _ => .error .endOfLine
  | n + 1 => parseLevels (parseUnary (parseWithin n)) Precedence.levels

/-- A list of tokens is within its own length. -/
theorem within_length (ts : List Token) : ts.length ≤ ts.length := Nat.le_refl _

def parseExpr (ts : List Token) : Reading Expr ts := parseWithin ts.length ts (within_length ts)

end WordAsm
