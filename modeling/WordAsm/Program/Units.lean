/-
# The units of a program

Units are numbered as they come, and worked on in an order of their own. A
unit that turns up on the way goes to the end of the order. The order may leave
units out.
-/
import WordAsm.Program.SourceUnit

namespace WordAsm

structure Units where
  all : List SourceUnit := []
  order : List UnitId := []
  deriving DecidableEq

namespace Units

def get? (us : Units) (id : UnitId) : Option SourceUnit := us.all[id]?

def get (us : Units) (id : UnitId) : Except Error SourceUnit :=
  match us.get? id with
  | some unit => .ok unit
  | none => .error (.unknownUnit id)

def modify (us : Units) (id : UnitId) (f : SourceUnit → SourceUnit) : Units :=
  { us with all := us.all.modify id f }

/-- What messages call a unit: its identifier, or its number if it is unknown. -/
def nameOf (us : Units) (id : UnitId) : String :=
  match us.get? id with
  | some unit => unit.identifier
  | none => unitTag id

def add (us : Units) (resource : Resource) : UnitId × Units :=
  let id := us.all.length
  (id, { all := us.all ++ [{ id, resource }], order := us.order ++ [id] })

def find? (us : Units) (tree : FileTree) (resource : Resource) : Option UnitId :=
  (us.all.find? fun unit => unit.resource.same tree resource).map SourceUnit.id

def findByName? (us : Units) (identifier : String) : Option UnitId :=
  (us.all.find? (·.identifier == identifier)).map SourceUnit.id

def enqueue (us : Units) (id : UnitId) : Units := { us with order := insertNew us.order id }

/-- The unit of a resource, which is in the order afterwards. -/
def findOrAdd (us : Units) (tree : FileTree) (resource : Resource) : UnitId × Units :=
  match us.find? tree resource with
  | some id => (id, us.enqueue id)
  | none => us.add resource

def setOrder (us : Units) (order : List UnitId) : Except Error Units :=
  match order.find? fun id => us.all.length ≤ id with
  | some id => .error (.unknownUnit id)
  | none => .ok { us with order }

def ordered (us : Units) : List SourceUnit := us.order.filterMap us.get?

def hasErrors (us : Units) : Bool := us.all.any SourceUnit.hasErrors

end Units

end WordAsm
