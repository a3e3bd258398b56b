/-
# Registers

The sixteen registers, named in any letter case and encoded in 4 bits.
-/
import WordAsm.Machine.Error

namespace WordAsm

inductive Register
  | zero | ira | pc | sp | ra | fp | a0 | a1
  | t0 | t1 | t2 | t3 | s0 | s1 | s2 | s3
  deriving DecidableEq

namespace Register

def all : List Register :=
  [zero, ira, pc, sp, ra, fp, a0, a1, t0, t1, t2, t3, s0, s1, s2, s3]

def name : Register → String
  | zero => "zero"
  | ira => "ira"
  | pc => "pc"
  | sp => "sp"
  | ra => "ra"
  | fp => "fp"
  | a0 => "a0"
  | a1 => "a1"
  | t0 => "t0"
  | t1 => "t1"
  | t2 => "t2"
  | t3 => "t3"
  | s0 => "s0"
  | s1 => "s1"
  | s2 => "s2"
  | s3 => "s3"

def field : Register → Nat
  | zero => 0
  | ira => 1
  | pc => 2
  | sp => 3
  | ra => 4
  | fp => 5
  | a0 => 6
  | a1 => 7
  | t0 => 8
  | t1 => 9
  | t2 => 10
  | t3 => 11
  | s0 => 12
  | s1 => 13
  | s2 => 14
  | s3 => 15

def ofName? (text : String) : Option Register :=
  all.find? fun r => r.name == text.toLower

def ofField (field : Nat) : Register := all.getD (field % 16) zero

def parse (text : String) : Except MachineError Register :=
  match ofName? text with
  | some r => .ok r
  | none => .error (.unknownRegister text)

theorem ofField_field (r : Register) : ofField r.field = r := by
  cases r <;> rfl

theorem field_lt (r : Register) : r.field < 16 := by
  cases r <;> decide

end Register

end WordAsm
