/-
# Modules

A module is the object code of a unit on its way into an image: where it
starts, and which of its words move with it.
-/
import WordAsm.Program.Units

namespace WordAsm

structure ObjectModule where
  unit : UnitId
  code : ObjectCode
  start : Address
  relocation : RelocationTable
  deriving DecidableEq

namespace ObjectModule

def ofUnit (units : Units) (id : UnitId) : Except Error ObjectModule := do
  let unit ← units.get id
  match unit.code with
  | none => .error (.noObjectCode unit.identifier)
  | some code => return { unit := id, code, start := unit.start, relocation := unit.relocation }

def collect (units : Units) : Except Error (List ObjectModule) := units.order.mapM (ofUnit units)

end ObjectModule

end WordAsm
