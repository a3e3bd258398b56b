/-
# From source text to syntax trees

Lines are read one after the other. Each contributes items, statements and
markers, and hands on the macros defined so far and the macro definition that
is still open, if any. A line that calls a macro contributes the items of the
macro's body lines; calls nest at most `maxExpansion` deep.

A faulty line leaves an error marker, behind whatever it had contributed
before the fault: a label stays.
-/
import WordAsm.Source.ExprParser
import WordAsm.Source.Lexer
import WordAsm.Source.Statement
import WordAsm.Switches

namespace WordAsm

/-- What a line contributes. -/
inductive Item
  | statement (s : Statement) (location : Location)
  | marker (m : Marker)
  deriving DecidableEq

/-- A macro whose definition is still open. -/
structure OpenMacro where
  name : String
  location : Location
  body : List String
  deriving DecidableEq

structure ParserState where
  /-- Macro bodies by name, the latest definition first. -/
  macros : List (String × List String) := []
  pending : Option OpenMacro := none
  deriving DecidableEq

/-- How deep macro calls may nest. -/
def maxExpansion : Nat := 16

/-! ### Statements -/

def expectIdent : List Token → Except Fault (String × List Token)
  | [] => .error .endOfLine
  | t :: ts =>
    match t.kind with
    | .ident name => .ok (name, ts)
    | _ => .error (.unexpected t)

def expectComma : List Token → Except Fault (List Token)
  | [] => .error .endOfLine
  | t :: ts => if t.kind = .comma then .ok ts else .error (.unexpected t)

def skipComma : List Token → List Token
  | [] => []
  | t :: ts => if t.kind = .comma then ts else t :: ts

def expectRegister : List Token → Except Fault (Register × List Token)
  | [] => .error .endOfLine
  | t :: ts =>
    match t.kind with
    | .ident name =>
      match Register.ofName? name with
      | some r => .ok (r, ts)
      | none => .error (.invalid s!"Expected register, found `{name}`" t.location)
    | _ => .error (.unexpected t)

/-- An expression, forgetting that it took a token. -/
def expectExpr (ts : List Token) : Except Fault (Expr × List Token) :=
  match parseExpr ts with
  | .error fault => .error fault
  | .ok (e, rest) => .ok (e, rest.val)

/-- A register that stands alone, or an expression. -/
def expectArgument (ts : List Token) : Except Fault (Argument × List Token) :=
  match loneRegister? ts with
  | some r => .ok (.register r, [])
  | none => do
    let (e, rest) ← expectExpr ts
    return (.expr e, rest)
where
  loneRegister? : List Token → Option Register
    | [⟨.ident name, _⟩] => Register.ofName? name
    | _ => none

/-- One or more expressions with commas between them, at the front of a list of
at most `n` tokens. -/
def expectExprsWithin (n : Nat) (ts : List Token) (h : ts.length ≤ n) :
    Except Fault (List Expr × List Token) :=
  match parseWithin n ts h with
  | .error fault => .error fault
  | .ok (e, ⟨[], _⟩) => .ok ([e], [])
  | .ok (e, ⟨t :: rest, hr⟩) =>
    if t.kind = .comma then
      match expectExprsWithin n rest (Nat.le_trans (Nat.le_of_lt (Nat.lt_of_succ_lt hr)) h) with
      | .error fault => .error fault
      | .ok (es, rest') => .ok (e :: es, rest')
    else .ok ([e], t :: rest)
termination_by ts.length
decreasing_by
  exact Nat.lt_of_succ_lt hr

/-- One or more expressions with commas between them. The bound is found once
for the whole list, so a long list is read in linear time. -/
def expectExprs (ts : List Token) : Except Fault (List Expr × List Token) :=
  expectExprsWithin ts.length ts (within_length ts)

def expectInstruction (op : Opcode) (ts : List Token) : Except Fault (Statement × List Token) :=
  match op.shape with
  | .bare => .ok (.instruction op .zero none, ts)
  | .operand => do
    let (b, ts) ← expectArgument ts
    return (.instruction op .zero (some b), ts)
  | .registerOperand => do
    let (a, ts) ← expectRegister ts
    let ts ← expectComma ts
    let (b, ts) ← expectArgument ts
    return (.instruction op a (some b), ts)

/-- What a directive does. -/
inductive Directive
  | statement (s : Statement)
  | openMacro (name : String)
  | ignored

def expectInclude : List Token → Except Fault (Directive × List Token)
  | [] => .error .endOfLine
  | t :: ts =>
    match t.kind with
    | .str path => .ok (.statement (.includes path), ts)
    | _ => .error (.unexpected t)

/-- A directive and its operands; `relaxed` lets unknown ones pass. -/
def expectDirective (relaxed : Bool) (name : String) (location : Location) (ts : List Token) :
    Except Fault (Directive × List Token) :=
  match name.toLower with
  | ".org" => do
    let (e, ts) ← expectExpr ts
    return (.statement (.origin e), ts)
  | ".equ" => do
    let (symbol, ts) ← expectIdent ts
    let (e, ts) ← expectExpr (skipComma ts)
    return (.statement (.equation symbol e), ts)
  | ".include" => expectInclude ts
  | ".word" => do
    let (es, ts) ← expectExprs ts
    return (.statement (.words es), ts)
  | ".macro" => do
    let (symbol, ts) ← expectIdent ts
    match Opcode.ofMnemonic? symbol with
    | some _ => .error (.invalid s!"Macro `{symbol}` shadows an instruction" location)
    | none => return (.openMacro symbol, ts)
  | ".endm" => .error (.invalid "`.endm` without `.macro`" location)
  | _ =>
    if relaxed then .ok (.ignored, [])
    else .error (.invalid s!"Unknown directive `{name}`" location)

/-! ### Lines -/

/-- How the body of a called macro is read, one nesting level further down. -/
abbrev LineReader := ParserState → SourceLine → ParserState × List Item

def readLines (read : LineReader) : ParserState → List SourceLine → ParserState × List Item
  | st, [] => (st, [])
  | st, line :: lines =>
    let (st, items) := read st line
    let (st, more) := readLines read st lines
    (st, items ++ more)

/-- The lines of a macro body as they appear at the place of the call. -/
def bodyLines (call : Location) (body : List String) : List SourceLine :=
  body.map fun text => ⟨call.line, call.offset - call.column, text.toList⟩

/-- What one statement contributes, and the tokens behind it unless it is
faulty. -/
structure Contribution where
  state : ParserState
  items : List Item
  rest : Except Fault (List Token)

def readDirective (switches : Switches) (st : ParserState) (name : String) (location : Location)
    (ts : List Token) : Contribution :=
  match expectDirective (switches.has .relaxedParsing) name location ts with
  | .error fault => ⟨st, [], .error fault⟩
  | .ok (.statement s, rest) => ⟨st, [.statement s location], .ok rest⟩
  | .ok (.openMacro symbol, rest) =>
    ⟨{ st with pending := some ⟨symbol, location, []⟩ }, [], .ok rest⟩
  | .ok (.ignored, rest) =>
    ⟨st, [.marker ((Marker.warning s!"Ignoring unknown directive `{name}`").located location)],
      .ok rest⟩

def readCall (nested : Option LineReader) (st : ParserState) (name : String)
    (body : List String) (location : Location) (ts : List Token) : Contribution :=
  match nested with
  | none => ⟨st, [], .error (.invalid s!"Macro `{name}` expands too deeply" location)⟩
  | some read =>
    let (st, items) := readLines read st (bodyLines location body)
    ⟨st, items, .ok ts⟩

def readStatement (switches : Switches) (nested : Option LineReader) (st : ParserState)
    (head : Token) (ts : List Token) : Contribution :=
  match head.kind with
  | .dotted name => readDirective switches st name head.location ts
  | .ident name =>
    match Opcode.ofMnemonic? name with
    | some op =>
      match expectInstruction op ts with
      | .error fault => ⟨st, [], .error fault⟩
      | .ok (s, rest) => ⟨st, [.statement s head.location], .ok rest⟩
    | none =>
      match st.macros.lookup name with
      | some body => readCall nested st name body head.location ts
      | none => ⟨st, [], .error (.invalid s!"Unknown instruction `{name}`" head.location)⟩
  | _ => ⟨st, [], .error (.unexpected head)⟩

/-- The marker for what is left of a line, if anything. -/
def tailItems (switches : Switches) (eol : Location) : Except Fault (List Token) → List Item
  | .error fault => [.marker (fault.marker eol)]
  | .ok [] => []
  | .ok (t :: _) =>
    if switches.has .relaxedParsing then
      [.marker ((Marker.warning ("Ignoring trailing " ++ t.kind.describe)).located t.location)]
    else [.marker ((Fault.unexpected t).marker eol)]

def readBody (switches : Switches) (nested : Option LineReader) (st : ParserState)
    (eol : Location) : List Token → ParserState × List Item
  | [] => (st, [])
  | head :: ts =>
    let c := readStatement switches nested st head ts
    (c.state, c.items ++ tailItems switches eol c.rest)

/-- The label at the front of a line, and the tokens behind its colon. -/
def label? : List Token → Option (String × Location × List Token)
  | ⟨.ident name, location⟩ :: ⟨.colon, _⟩ :: ts => some (name, location, ts)
  | ⟨.dotted name, location⟩ :: ⟨.colon, _⟩ :: ts => some (name, location, ts)
  | _ => none

def isLocalName (name : String) : Bool := name.toList.head? == some '.'

/-- The tokens of a line, where a lexical fault spoils the whole line. -/
def readTokens (switches : Switches) (nested : Option LineReader) (st : ParserState)
    (eol : Location) (ts : List Token) : ParserState × List Item :=
  match ts.find? fun t => t.kind.isError with
  | some t => (st, [.marker ((Fault.unexpected t).marker eol)])
  | none =>
    match label? ts with
    | none => readBody switches nested st eol ts
    | some (name, location, rest) =>
      if isLocalName name && !switches.has .localLabels then
        let message := s!"Local label `{name}` requires local label support"
        (st, [.marker ((Fault.invalid message location).marker eol)])
      else
        let (st, items) := readBody switches nested st eol rest
        (st, .statement (.label name) location :: items)

def closesMacro (line : List Char) : Bool :=
  ((trimStart line).take 5).map Char.toLower == ".endm".toList

def collectLine (st : ParserState) (m : OpenMacro) (line : List Char) : ParserState × List Item :=
  if closesMacro line then
    (⟨(m.name, m.body) :: st.macros, none⟩, [.statement (.macroDef m.name m.body) m.location])
  else
    ({ st with pending := some { m with body := m.body ++ [String.ofList line] } }, [])

/-- The place behind the last character of a line. -/
def SourceLine.endLocation (line : SourceLine) : Location :=
  ⟨line.offset + utf8Length line.text, line.index, line.text.length, 0⟩

def readLineWith (switches : Switches) (nested : Option LineReader) : LineReader :=
  fun st line =>
    match st.pending with
    | some m => collectLine st m line.text
    | none =>
      let ts := (tokensOfLine line).filter fun t => !t.kind.isComment
      readTokens switches nested st line.endLocation ts

/-- Reads a line from which macro calls may nest `depth` deep. -/
def readLine (switches : Switches) : (depth : Nat) → LineReader
  | 0 => readLineWith switches none
  | depth + 1 => readLineWith switches (some (readLine switches depth))

/-! ### Texts -/

/-- A macro definition that is open at the end of the text. -/
def unfinished (st : ParserState) : List Item :=
  match st.pending with
  | some m => [.marker ((Marker.error s!"Macro `{m.name}` is missing `.endm`").located m.location)]
  | none => []

def readSource (switches : Switches) (text : String) : List Item :=
  let (st, items) := readLines (readLine switches maxExpansion) {} (sourceLines text)
  items ++ unfinished st

def nodesFrom (id : NodeId) : List Item → SyntaxTree
  | [] => []
  | .statement s location :: rest =>
    { id, statement := s, location } :: nodesFrom (id + 1) rest
  | .marker _ :: rest => nodesFrom id rest

def markersOf : List Item → List Marker
  | [] => []
  | .statement _ _ :: rest => markersOf rest
  | .marker m :: rest => m :: markersOf rest

/-- The syntax tree of a source text and the remarks about it. -/
def parseSource (switches : Switches) (text : String) : SyntaxTree × List Marker :=
  let items := readSource switches text
  (nodesFrom 0 items, markersOf items)

end WordAsm
