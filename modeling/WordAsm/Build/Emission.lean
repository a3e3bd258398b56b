/-
# Emission

The words of a unit, node by node. A word that holds an address is noted for
relocation by its distance from the start of the unit, and the source line of
each node by its address.
-/
import WordAsm.Build.Validation
import WordAsm.Source.Notation

namespace WordAsm

def exprWord (t : Table) (v : Viewpoint) (e : Expr) : Except Error Word :=
  match t.eval v e with
  | some value => .ok (toWord value)
  | none => .error (.internal s!"expression `{e.text}` has no value")

/-- Whether an expression moves with its module. -/
def moves (t : Table) (v : Viewpoint) (e : Expr) : Bool := t.weigh v e == some 1

/-- The words of an instruction, and the position of an operand word that moves. -/
def instructionWords (t : Table) (v : Viewpoint) (inlined : Bool) (op : Opcode)
    (a : Register) (b : Option Argument) : Except Error (List Word × List Nat) := do
  let operand ← match b with
    | none => pure none
    | some (.register r) => pure (some (Operand.register r))
    | some (.expr e) => do pure (some (.literal (← exprWord t v e) inlined))
  match Instruction.make op a operand with
  | .error reason => .error (.invalidInstruction reason)
  | .ok instruction =>
    let moving := match b, instruction.immediateOffset with
      | some (.expr e), some offset => if moves t v e then [offset] else []
      | _, _ => []
    return (instruction.encode, moving)

/-- The words of a statement and the positions of those that move; nothing for
a statement that makes no words. -/
def statementWords (t : Table) (v : Viewpoint) (inlined : Bool) :
    Statement → Except Error (Option (List Word × List Nat))
  | .instruction op a b => (instructionWords t v inlined op a b).map some
  | .words es => do
    let words ← es.mapM (exprWord t v)
    let moving := (es.zipIdx.filter fun (e, _) => moves t v e).map (·.2)
    return some (words, moving)
  | _ => .ok none

/-- What has been emitted of a unit. -/
structure Emission where
  buffer : WordBuffer
  /-- Words to relocate, as distances from the start of the unit. -/
  relocations : List Address := []
  lines : List (Address × Nat) := []

def emitNode (switches : Switches) (t : Table) (unit : UnitId) (m : Emission) (node : Node) :
    Except Error Emission :=
  match node.address with
  | none => .ok m
  | some address => do
    match ← statementWords t (node.viewpoint unit) node.inlined node.statement with
    | none => return m
    | some (words, moving) =>
      let written := m.buffer.write address words
      written.1
      let relocations := moving.map fun offset => address - m.buffer.start + UInt16.ofNat offset
      return {
        buffer := written.2
        relocations := m.relocations ++
          if switches.has .relocationInformation then relocations else []
        lines := m.lines ++
          if switches.has .debugInformation then [(address, node.location.line)] else [] }

def emitNodes (switches : Switches) (t : Table) (unit : SourceUnit) (tree : SyntaxTree) :
    Except Error Emission :=
  tree.foldlM (emitNode switches t unit.id) { buffer := { start := unit.start } }

def SourceUnit.withEmission (u : SourceUnit) (m : Emission) (code : ObjectCode) : SourceUnit :=
  { u with
    code := some code
    relocation := u.relocation.insertAll m.relocations
    lines := m.lines.foldl (fun lines (address, line) => noteLine lines address line) u.lines }

def emitUnit (cfg : Settings) (unit : SourceUnit) (tree : SyntaxTree) (b : Build) :
    Except Error Unit × Build :=
  let closed := do
    let m ← emitNodes cfg.switches b.symbols unit tree
    return (m, ← cfg.sink.close b.tree unit.identifier unit.id m.buffer)
  match closed with
  | .error e => (.error e, b)
  | .ok (m, code, files) =>
    let summary := s!"{unit.identifier}: {m.relocations.length} relocation(s), "
      ++ tracedAddress code.first ++ "..=" ++ tracedAddress code.last
    (.ok (), ({ b with tree := files }.say .debug summary).modifyUnit unit.id
      (·.withEmission m code))

def emissionPhase : Phase where
  name := "generate-code"
  run cfg unit b := withTree unit b fun tree => emitUnit cfg unit tree b

end WordAsm
