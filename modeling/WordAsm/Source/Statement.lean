/-
# Statements and syntax trees

A source text is a list of nodes, each one statement at its place. What the
later phases find out about a statement is kept beside it: the label it stands
under, the symbol it defines, the unit it includes, and its address and size.
-/
import WordAsm.Handles
import WordAsm.Machine.Instruction
import WordAsm.Source.Expr
import WordAsm.Source.Location

namespace WordAsm

/-- The last operand of an instruction as written. -/
inductive Argument
  | register (r : Register)
  | expr (e : Expr)
  deriving DecidableEq

inductive Statement
  | label (name : String)
  | equation (name : String) (e : Expr)
  | origin (e : Expr)
  | includes (path : String)
  | words (es : List Expr)
  | instruction (op : Opcode) (a : Register) (b : Option Argument)
  | macroDef (name : String) (body : List String)
  deriving DecidableEq

def Statement.codeExprs : Statement → List Expr
  | words es => es
  | instruction _ _ (some (.expr e)) => [e]
  | _ => []

def Statement.exprs : Statement → List Expr
  | equation _ e => [e]
  | origin e => [e]
  | s => s.codeExprs

def Statement.mapCode (f : Expr → Expr) : Statement → Statement
  | words es => words (es.map f)
  | instruction op a (some (.expr e)) => instruction op a (some (.expr (f e)))
  | s => s

structure Node where
  id : NodeId
  statement : Statement
  location : Location
  /-- The global label in effect. -/
  scope : Option SymbolId := none
  /-- The symbol the node defines. -/
  symbol : Option SymbolId := none
  /-- The unit an include refers to. -/
  included : Option UnitId := none
  address : Option Address := none
  /-- Size in words. -/
  size : Word := 0
  /-- Whether the operand goes into the instruction word. -/
  inlined : Bool := false
  deriving DecidableEq

/-- The nodes of one source text, in source order. -/
abbrev SyntaxTree := List Node

end WordAsm
