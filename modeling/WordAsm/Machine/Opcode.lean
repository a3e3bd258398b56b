/-
# Opcodes

The 23 operations of the machine. An opcode is written as a mnemonic in any
letter case and encoded as its position in the list of all opcodes, a 6-bit
field.
-/
import WordAsm.Machine.Error

namespace WordAsm

inductive Opcode
  | nop | mov | add | sub | and | or | xor
  | eq | neq | lt | lts | sl | sr | srs
  | ld | st | jmp | jz | jnz | call | ret | iret | hlt
  deriving DecidableEq

/-- The operands an opcode takes, in source order. -/
inductive Shape
  | bare
  | operand
  | registerOperand
  deriving DecidableEq

namespace Opcode

def all : List Opcode :=
  [nop, mov, add, sub, and, or, xor, eq, neq, lt, lts, sl, sr, srs,
    ld, st, jmp, jz, jnz, call, ret, iret, hlt]

def mnemonic : Opcode → String
  | nop => "nop"
  | mov => "mov"
  | add => "add"
  | sub => "sub"
  | and => "and"
  | or => "or"
  | xor => "xor"
  | eq => "eq"
  | neq => "neq"
  | lt => "lt"
  | lts => "lts"
  | sl => "sl"
  | sr => "sr"
  | srs => "srs"
  | ld => "ld"
  | st => "st"
  | jmp => "jmp"
  | jz => "jz"
  | jnz => "jnz"
  | call => "call"
  | ret => "ret"
  | iret => "iret"
  | hlt => "hlt"

/-- The encoding of an opcode: its position among all opcodes. -/
def field : Opcode → Nat
  | nop => 0
  | mov => 1
  | add => 2
  | sub => 3
  | and => 4
  | or => 5
  | xor => 6
  | eq => 7
  | neq => 8
  | lt => 9
  | lts => 10
  | sl => 11
  | sr => 12
  | srs => 13
  | ld => 14
  | st => 15
  | jmp => 16
  | jz => 17
  | jnz => 18
  | call => 19
  | ret => 20
  | iret => 21
  | hlt => 22

def shape : Opcode → Shape
  | nop | ret | iret | hlt => .bare
  | jmp | call => .operand
  | _ => .registerOperand

def ofMnemonic? (name : String) : Option Opcode :=
  all.find? fun op => op.mnemonic == name.toLower

def ofField? (field : Nat) : Option Opcode := all[field % 64]?

def parse (name : String) : Except MachineError Opcode :=
  match ofMnemonic? name with
  | some op => .ok op
  | none => .error (.undefinedMnemonic name)

def decode (field : Nat) : Except MachineError Opcode :=
  match ofField? field with
  | some op => .ok op
  | none => .error (.undefinedOpcode (field % 64))

theorem ofField?_field (op : Opcode) : ofField? op.field = some op := by
  cases op <;> rfl

theorem field_lt (op : Opcode) : op.field < 23 := by
  cases op <;> decide

end Opcode

end WordAsm
