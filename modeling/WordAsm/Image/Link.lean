/-
# Linking

Modules are put one after the other into an image. A self-relocating image
starts with the stub and the merged relocation table, and its program is laid
out from address 0, with zeros between modules. Whatever is wrong with the modules
is found before a byte is written.
-/
import WordAsm.Image.Module
import WordAsm.Image.Shift
import WordAsm.Image.Stub

namespace WordAsm

structure Linker where
  /-- Whether stub and relocation table go ahead of the image. -/
  selfRelocating : Bool := false
  /-- Whether the addresses on record are moved past them. -/
  moveAddresses : Bool := false
  deriving DecidableEq

/-- What a link tells about its image. -/
structure Linked where
  /-- The length of stub and table, in bytes. -/
  headerLength : Nat
  imageLength : Nat
  relocation : RelocationTable
  deriving DecidableEq

/-- Work that may fail, and may say something before. -/
abbrev Logged := ExceptT Error (StateM (List LogLine))

def say (level : LogLevel) (message : String) : Logged Unit :=
  modify fun (log : List LogLine) => log ++ [⟨level, message⟩]

/-- Work that does not say anything. -/
def quietly {α : Type} (r : Except Error α) : Logged α := liftExcept r

/-- Modules must come by ascending start. -/
def checkStarts (units : Units) : List ObjectModule → Except Error Unit
  | a :: b :: rest =>
    if b.start < a.start then
      .error (.badModuleOrder (units.nameOf a.unit) a.start (units.nameOf b.unit) b.start)
    else checkStarts units (b :: rest)
  | _ => .ok ()

/-- The units of the modules must be known and without errors. -/
def checkUnits (units : Units) (modules : List ObjectModule) : Except Error Unit :=
  modules.forM fun m => do
    let unit ← units.get m.unit
    if unit.hasErrors then .error (.unitHasErrors unit.identifier) else .ok ()

/-- The relocation tables of all modules, as offsets into the program. -/
def mergeTables (modules : List ObjectModule) : Except Error RelocationTable :=
  modules.foldlM (fun t m => do
    let merged := t.merge m.relocation m.start
    merged.1
    return merged.2) .empty

/-- What goes ahead of the program. -/
def headerOf (linker : Linker) (modules : List ObjectModule) :
    Logged (RelocationTable × Bytes) := do
  if linker.selfRelocating then
    let table ← quietly (mergeTables modules)
    if table.isEmpty then
      say .warn ("Self-relocating image without relocation entries, compile with `"
        ++ Switch.relocationInformation.name ++ "`")
    return (table, stub ++ (← quietly table.toBytes))
  else return (.empty, [])

def planFor (linker : Linker) (p : Program) (modules : List ObjectModule) (table : RelocationTable)
    (header : Bytes) : Except Error (Option ShiftPlan) :=
  if linker.selfRelocating && linker.moveAddresses then
    if header.length / 2 < 65536 then
      (planShift p (UInt16.ofNat (header.length / 2)) (modules.map ObjectModule.unit)).map some
    else .error (.relocationOverflow table.size)
  else .ok none

/-- What goes between the module that ends at `stop` and the next one. -/
def gapBefore (linker : Linker) (units : Units) (previous : Option UnitId) (stop : Option Nat)
    (m : ObjectModule) : Logged Bytes := do
  let start := m.start.toNat
  match stop with
  | none => return []
  | some stop =>
    if linker.selfRelocating && stop > start then
      throw (.overlappingModules ((previous.map units.nameOf).getD "") stop
        (units.nameOf m.unit) m.start)
    else if linker.selfRelocating && stop < start then
      say .debug ("Zero fill " ++ hexPrefixed stop ++ ".." ++ hexPrefixed start ++ " ahead of "
        ++ units.nameOf m.unit)
      return List.replicate (2 * (start - stop)) 0
    else if stop ≠ start then
      say .warn (units.nameOf m.unit ++ " starts at " ++ hexPrefixed start
        ++ ", previous module ends at " ++ hexPrefixed stop)
      return []
    else return []

def placeModules (linker : Linker) (units : Units) :
    Option UnitId → Option Nat → List (ObjectModule × Bytes) → Logged Bytes
  | _, _, [] => return []
  | previous, stop, (m, bytes) :: rest => do
    let gap ← gapBefore linker units previous stop m
    let after ← placeModules linker units (some m.unit)
      (some (m.start.toNat + bytes.length / 2)) rest
    return gap ++ (bytes ++ after)

structure LinkPlan where
  table : RelocationTable
  header : Bytes
  body : Bytes
  shift : Option ShiftPlan

/-- Works an image out, without doing anything. -/
def planLink (linker : Linker) (p : Program) (modules : List ObjectModule) (tree : FileTree) :
    Logged LinkPlan := do
  quietly (checkStarts p.units modules)
  quietly (checkUnits p.units modules)
  let codes ← quietly (modules.mapM fun m => m.code.resource.readBytes tree)
  let (table, header) ← headerOf linker modules
  let shift ← quietly (planFor linker p modules table header)
  let first := if linker.selfRelocating then some 0 else none
  let body ← placeModules linker p.units none first (modules.zip codes)
  return { table, header, body, shift }

/-- What a link works on. -/
structure Linking extends program : Program where
  /-- The bytes written so far. -/
  output : Bytes := []
  log : List LogLine := []

/-- What a link says when its image is written. -/
def LinkPlan.summary (plan : LinkPlan) (modules : List ObjectModule) : LogLine :=
  let length := plan.header.length + plan.body.length
  ⟨.info, s!"Linked {modules.length} module(s): {length} byte(s), "
    ++ s!"header {plan.header.length} byte(s)"⟩

/-- What a link says when addresses are moved. -/
def ShiftPlan.summary (plan : ShiftPlan) : LogLine :=
  ⟨.debug, s!"Shifted {plan.labels.length} label(s) by {plan.shift.toNat} word(s)"⟩

/-- Links modules: writes the image, and then moves the addresses on record if that
is wanted. -/
def link (linker : Linker) (modules : List ObjectModule) (tree : FileTree) (s : Linking) :
    Except Error Linked × Linking :=
  match (planLink linker s.program modules tree).run.run s.log with
  | (.error e, log) => (.error e, { s with log })
  | (.ok plan, log) =>
    let image := plan.header ++ plan.body
    let linked : Linked :=
      { headerLength := plan.header.length, imageLength := image.length, relocation := plan.table }
    let written : Linking :=
      { s with output := s.output ++ image, log := log ++ [plan.summary modules] }
    match plan.shift with
    | none => (.ok linked, written)
    | some shift =>
      match shift.apply s.program with
      | (.error e, program) => (.error e, { written with program })
      | (.ok (), program) =>
        (.ok linked, { written with program, log := written.log ++ [shift.summary] })

end WordAsm
