/-
# Shifted addresses

When a header goes ahead of a program, the addresses on record for its units
can be moved past it: those of nodes, of the unit itself, of source lines and
of labels. All new addresses are found before any is put on record, so a shift
that does not fit leaves the program alone.
-/
import WordAsm.Program.Program

namespace WordAsm

def Node.shifted (shift : Word) (n : Node) : Except Error Node :=
  match n.address with
  | none => .ok n
  | some address => do return { n with address := some (← addWords address shift) }

def shiftedTree (shift : Word) : Option SyntaxTree → Except Error (Option SyntaxTree)
  | none => .ok none
  | some nodes => do return some (← nodes.mapM (Node.shifted shift))

/-- The end of a unit, moved; it may not go past 0x10000. -/
def shiftedEnd (shift : Word) : Option Nat → Except Error (Option Nat)
  | none => .ok none
  | some stop =>
    if 0x10000 < stop + shift.toNat then
      .error (.addressOutOfRange (UInt16.ofNat (stop - 1)) shift)
    else .ok (some (stop + shift.toNat))

def SourceUnit.shifted (shift : Word) (u : SourceUnit) : Except Error SourceUnit := do
  let tree ← shiftedTree shift u.tree
  let start ← addWords u.start shift
  let stop ← shiftedEnd shift u.stop
  let lines ← u.lines.mapM fun (address, line) => do pure (← addWords address shift, line)
  return { u with tree, start, stop, lines }

def Store.shiftedLabels (shift : Word) (s : Store) :
    Except Error (List (SymbolId × Address)) :=
  (s.ordered.filterMap fun (id, symbol) => symbol.address?.map (id, ·)).mapM
    fun (id, address) => do return (id, ← addWords address shift)

def Table.shiftedLabels (shift : Word) (t : Table) (unit : UnitId) :
    Except Error (List (SymbolId × Address)) :=
  match t.store? unit with
  | some store => store.shiftedLabels shift
  | none => .ok []

/-- The new state of a unit, and the new addresses of its labels. -/
structure UnitShift where
  id : UnitId
  unit : SourceUnit
  labels : List (SymbolId × Address)

structure ShiftPlan where
  shift : Word
  units : List UnitShift

def ShiftPlan.labels (plan : ShiftPlan) : List (SymbolId × Address) :=
  plan.units.flatMap UnitShift.labels

def planUnit (p : Program) (shift : Word) (id : UnitId) : Except Error UnitShift := do
  let unit ← (← p.get id).shifted shift
  let labels ← p.symbols.shiftedLabels shift id
  return { id, unit, labels }

/-- The new addresses of the given units and their labels. -/
def planShift (p : Program) (shift : Word) (ids : List UnitId) : Except Error ShiftPlan := do
  return { shift, units := ← ids.mapM (planUnit p shift) }

/-- Puts units on record in their new state, up to the first one that is unknown. -/
def replaceUnits : List UnitShift → Units → Except Error Unit × Units
  | [], us => (.ok (), us)
  | x :: rest, us =>
    match us.get x.id with
    | .error e => (.error e, us)
    | .ok _ => replaceUnits rest (us.modify x.id fun _ => x.unit)

/-- Puts the new addresses of labels on record. -/
def replaceLabels (labels : List (SymbolId × Address)) (t : Table) : Table :=
  labels.foldl (fun t (id, address) => t.modify id (·.withAddress (some address))) t

/-- Puts the new addresses on record, those of units first. -/
def ShiftPlan.apply (plan : ShiftPlan) (p : Program) : Except Error Unit × Program :=
  match replaceUnits plan.units p.units with
  | (.error e, units) => (.error e, { p with units })
  | (.ok (), units) => (.ok (), { units, symbols := replaceLabels plan.labels p.symbols })

end WordAsm
