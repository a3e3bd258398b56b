/-
# Statements in traces

Traces show statements and expressions in prefix form: the name of the
construct with its parts in parentheses.
-/
import WordAsm.Source.Statement
import WordAsm.Text.Quoted

namespace WordAsm

def construct (head : String) (parts : List String) : String :=
  head ++ "(" ++ String.intercalate ", " parts ++ ")"

def tracedList (parts : List String) : String := "[" ++ String.intercalate ", " parts ++ "]"

def tracedOption : Option String → String
  | some part => construct "Some" [part]
  | none => "None"

/-- An optional number. -/
def tracedAddress (address : Option Address) : String :=
  tracedOption (address.map fun a => toString a.toNat)

def UnaryOp.traced : UnaryOp → String
  | neg => "Neg"
  | not => "Not"

def BinaryOp.traced : BinaryOp → String
  | add => "Add"
  | sub => "Sub"
  | mul => "Mul"
  | div => "Div"
  | mod => "Mod"
  | and => "And"
  | or => "Or"
  | xor => "Xor"
  | shl => "Shl"
  | shr => "Shr"

def Expr.traced : Expr → String
  | number v => construct "Number" [toString v.toInt]
  | ident name => construct "Ident" [quotedText name]
  | current => "Current"
  | unary op e => construct "Unary" [op.traced, e.traced]
  | binary op l r => construct "Binary" [l.traced, op.traced, r.traced]

def Argument.traced : Argument → String
  | register r => construct "Reg" [r.name.toUpper]
  | expr e => construct "Expr" [e.traced]

def Statement.traced : Statement → String
  | label name => construct "Label" [quotedText name]
  | equation name e => construct "Equ" [quotedText name, e.traced]
  | origin e => construct "Org" [e.traced]
  | includes path => construct "Include" [quotedText path]
  | words es => construct "Word" [tracedList (es.map Expr.traced)]
  | instruction op a b =>
    construct "Inst" [op.mnemonic.capitalize, a.name.toUpper, tracedOption (b.map Argument.traced)]
  | macroDef name body => construct "Macro" [quotedText name, tracedList (body.map quotedText)]

def Node.traced (n : Node) : String := tracedAddress n.address ++ " " ++ n.statement.traced

end WordAsm
