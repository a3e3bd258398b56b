/-
# Errors

Everything that can make an operation of the library fail, with the wording
of each failure in one place.
-/
import WordAsm.Handles
import WordAsm.Machine.Error
import WordAsm.Machine.Word

namespace WordAsm

inductive Error
  | unreadable (name : String)
  | unwritable (name : String)
  /-- A build file that is no valid configuration. -/
  | badConfig (reason : String)
  | duplicateSymbol (name : String)
  | invalidScope (name : String)
  | unknownSymbol (name : String)
  | noParentScope
  | noSuchPhase (name : String)
  | duplicatePhase (name : String)
  | unknownUnit (id : UnitId)
  | unresolvedInclude (path : String)
  /-- Two units that nothing includes start at the same address. -/
  | ambiguousOrder (first second : String) (start : Address)
  | noCompilationRoot (name : String)
  | circularInclude (names : List String)
  | badModuleOrder (first : String) (firstStart : Address) (second : String) (secondStart : Address)
  | overlappingModules (first : String) (firstEnd : Nat) (second : String) (secondStart : Address)
  | addressOutOfRange (base offset : Word)
  | relocationOverflow (entries : Nat)
  | invalidRelocationData
  | unitHasErrors (name : String)
  | noObjectCode (name : String)
  | invalidInstruction (reason : MachineError)
  | internal (reason : String)
  deriving DecidableEq

namespace Error

def message : Error → String
  | unreadable name => s!"Failed to read `{name}`"
  | unwritable name => s!"Failed to write `{name}`"
  | badConfig reason => s!"Config error: {reason}"
  | duplicateSymbol name => s!"Duplicate symbol: `{name}`"
  | invalidScope name => s!"Invalid scope for symbol `{name}`"
  | unknownSymbol name => s!"Unknown symbol: `{name}`"
  | noParentScope => "The whole-program symbol table has no parent scope"
  | noSuchPhase name => s!"No such compilation phase: `{name}`"
  | duplicatePhase name => s!"Duplicate compilation phase: `{name}`"
  | unknownUnit id => "Unknown compilation unit: " ++ unitTag id
  | unresolvedInclude path => s!"Cannot resolve include `{path}`"
  | ambiguousOrder first second start =>
    s!"Ambiguous compilation order: `{first}` and `{second}` both start at "
      ++ hexPrefixed start.toNat
  | noCompilationRoot name => s!"No root unit includes the compilation root `{name}`"
  | circularInclude names => "Circular include: " ++ String.intercalate ", " names
  | badModuleOrder first firstStart second secondStart =>
    s!"Bad module order: `{first}` at " ++ hexPrefixed firstStart.toNat
      ++ s!" must not precede `{second}` at " ++ hexPrefixed secondStart.toNat
  | overlappingModules first firstEnd second secondStart =>
    s!"Overlapping modules: `{first}` ends at " ++ hexPrefixed firstEnd
      ++ s!", past the start of `{second}` at " ++ hexPrefixed secondStart.toNat
  | addressOutOfRange base offset =>
    "Address out of range: " ++ hexPrefixed base.toNat ++ " + " ++ hexPrefixed offset.toNat
      ++ " exceeds 0xFFFF"
  | relocationOverflow entries => s!"Relocation table too large: {entries} entries"
  | invalidRelocationData => "Invalid relocation table data"
  | unitHasErrors name => s!"Compilation unit `{name}` has errors"
  | noObjectCode name => s!"Compilation unit `{name}` has no object code"
  | invalidInstruction reason => "Invalid instruction: " ++ reason.message
  | internal reason => s!"Internal error: {reason}"

end Error

def addWords (base offset : Word) : Except Error Word :=
  if base.toNat + offset.toNat < 65536 then .ok (base + offset)
  else .error (.addressOutOfRange base offset)

end WordAsm
