/-
# Instructions

An instruction is an opcode, a register `a` and perhaps an operand `b`. It is
one word,

    opcode (6 bits) | a (4 bits) | b (6 bits)

and a second one when `b` is an immediate. The field of `b` is a register
below 16, the mark 16 of an immediate in the next word, or an inline literal
0 to 31 above 32.
-/
import WordAsm.Machine.Opcode
import WordAsm.Machine.Register
import WordAsm.Machine.Word
import WordAsm.Text.Colour

namespace WordAsm

inductive Operand
  | register (r : Register)
  | immediate (value : Word)
  | inline (value : UInt8)
  deriving DecidableEq

namespace Operand

/-- The largest literal that fits into the field of `b`. -/
def inlineMax : Nat := 31

/-- The shortest operand for a literal, where inlining may be switched off. -/
def literal (value : Word) (inlining : Bool) : Operand :=
  if inlining && value.toNat ≤ inlineMax then .inline (UInt8.ofNat value.toNat)
  else .immediate value

def field : Operand → Nat
  | register r => r.field
  | immediate _ => 16
  | inline v => 32 + v.toNat % 32

/-- The words an operand needs behind the instruction word. -/
def size : Operand → Nat
  | immediate _ => 1
  | _ => 0

def coloured : Operand → String
  | register r => Colour.blue.paint r.name
  | immediate v => Colour.yellow.paint (hexPrefixed v.toNat)
  | inline v => Colour.yellow.paint (toString v.toNat)

end Operand

structure Instruction where
  op : Opcode
  a : Register
  b : Option Operand
  deriving DecidableEq

namespace Instruction

/-- An instruction whose operand agrees with the shape of its opcode. -/
def make (op : Opcode) (a : Register) (b : Option Operand) : Except MachineError Instruction :=
  match op.shape, b with
  | .bare, none => .ok ⟨op, a, none⟩
  | .bare, some _ => .error (.superfluousOperand op.mnemonic)
  | _, none => .error (.missingOperand op.mnemonic)
  | _, some b => .ok ⟨op, a, some b⟩

def size (i : Instruction) : Nat :=
  1 + (i.b.map Operand.size).getD 0

def immediateOffset (i : Instruction) : Option Nat :=
  match i.b with
  | some (.immediate _) => some 1
  | _ => none

def head (i : Instruction) : Word :=
  UInt16.ofNat (i.op.field * 1024 + i.a.field * 64 + (i.b.map Operand.field).getD 0)

def encode (i : Instruction) : List Word :=
  match i.b with
  | some (.immediate v) => [i.head, v]
  | _ => [i.head]

/-- The operand of a field, given the words behind the instruction word. -/
def operandOfField (field : Nat) (behind : List Word) : Except MachineError Operand :=
  if field < 16 then .ok (.register (.ofField field))
  else if field = 16 then
    match behind with
    | v :: _ => .ok (.immediate v)
    | [] => .error .missingImmediate
  else if field < 32 then .error (.invalidOperandField field)
  else .ok (.inline (UInt8.ofNat (field % 32)))

/-- Reads one instruction and how many words it takes. The operand field is
checked also where the opcode has no operand and drops it. -/
def decode : List Word → Except MachineError (Instruction × Nat)
  | [] => .error .endOfCode
  | word :: behind =>
    match Opcode.decode (word.toNat / 1024) with
    | .error e => .error e
    | .ok op =>
      match operandOfField (word.toNat % 64) behind with
      | .error e => .error e
      | .ok operand =>
        let b := if op.shape = .bare then none else some operand
        let i : Instruction := ⟨op, .ofField (word.toNat / 64), b⟩
        .ok (i, i.size)

def coloured (i : Instruction) : String :=
  let op := Colour.red.paint i.op.mnemonic
  let b := (i.b.map Operand.coloured).getD ""
  match i.op.shape with
  | .bare => op
  | .operand => op ++ " " ++ b
  | .registerOperand => op ++ " " ++ Colour.blue.paint i.a.name ++ ", " ++ b

end Instruction

end WordAsm
