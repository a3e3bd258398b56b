/-
# Working order

The units that nothing includes are the roots, and each brings in the units it
includes. When there are several roots, they go by their start addresses, or
only the root that includes a given source counts.
-/
import WordAsm.Depend.Graph
import WordAsm.Program.Units

namespace WordAsm

/-- What to do about several roots. -/
inductive RootSelector
  /-- All of them, by ascending start address. -/
  | byStart
  /-- The first one that includes the given source. -/
  | byRoot (root : Resource)
  deriving DecidableEq

def equalNeighbours? {α κ : Type} [DecidableEq κ] (key : α → κ) : List α → Option (α × α)
  | a :: b :: rest => if key a = key b then some (a, b) else equalNeighbours? key (b :: rest)
  | _ => none

namespace Graph

/-- The roots by ascending start address, which must all differ. -/
def rootsByStart (g : Graph) (units : Units) (roots : List UnitId) :
    Except Error (List UnitId) :=
  let sorted := roots.mergeSort fun a b => (g.startOf a).toNat ≤ (g.startOf b).toNat
  match equalNeighbours? g.startOf sorted with
  | some (a, b) => .error (.ambiguousOrder (units.nameOf a) (units.nameOf b) (g.startOf a))
  | none => .ok sorted

def rootIncluding (g : Graph) (units : Units) (tree : FileTree) (root : Resource)
    (roots : List UnitId) : Except Error (List UnitId) :=
  let found := (units.find? tree root).bind fun target => roots.find? (g.contains · target)
  match found with
  | some root => .ok [root]
  | none => .error (.noCompilationRoot root.identifier)

def order (g : Graph) (units : Units) (tree : FileTree) (selector : RootSelector) :
    Except Error (List UnitId) :=
  match g.nodes, g.roots with
  | [], _ => .ok []
  | _, [] =>
    .error (.circularInclude ((g.units.filterMap units.get?).map SourceUnit.identifier))
  | _, [root] => .ok (g.linearizeAll [root])
  | _, roots =>
    (match selector with
      | .byStart => g.rootsByStart units roots
      | .byRoot root => g.rootIncluding units tree root roots).map g.linearizeAll

end Graph

end WordAsm
