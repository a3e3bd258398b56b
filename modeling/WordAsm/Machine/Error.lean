/-
# What can be wrong with an instruction
-/
import WordAsm.Text.Hex

namespace WordAsm

/-- Why a mnemonic, a register name, an instruction or a code word was refused. -/
inductive MachineError
  | undefinedMnemonic (name : String)
  | undefinedOpcode (field : Nat)
  | unknownRegister (name : String)
  | superfluousOperand (mnemonic : String)
  | missingOperand (mnemonic : String)
  | endOfCode
  | missingImmediate
  | invalidOperandField (field : Nat)
  deriving DecidableEq

namespace MachineError

def message : MachineError → String
  | undefinedMnemonic name => s!"Undefined Op: {name}"
  | undefinedOpcode field => s!"No discriminant in enum `OpKind` matches the value `{field}`"
  | unknownRegister name => s!"Unknown reg name: {name}"
  | superfluousOperand mnemonic => s!"`{mnemonic}` takes no operand"
  | missingOperand mnemonic => s!"`{mnemonic}` requires an operand"
  | endOfCode => "Unexpected end of code"
  | missingImmediate => "Missing immediate word"
  | invalidOperandField field => "Invalid operand field: 0x" ++ hex 2 field

end MachineError

end WordAsm
