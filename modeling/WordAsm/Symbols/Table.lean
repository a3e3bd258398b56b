/-
# Symbol tables

A table is the program's view of all its symbols: one store for each unit, and
no global name in two of them. A name that its own unit does not know may be a
global of any other unit.
-/
import WordAsm.Symbols.Store

namespace WordAsm

structure Table where
  stores : List Store := []
  /-- The identity of the next new store. -/
  supply : StoreId := 1
  deriving DecidableEq

namespace Table

def fresh (t : Table) : StoreId × Table := (t.supply, { t with supply := t.supply + 1 })

def store? (t : Table) (unit : UnitId) : Option Store :=
  t.stores.find? (·.unit == unit)

def owner? (t : Table) (id : SymbolId) : Option Store :=
  t.stores.find? (·.id == id.store)

def handles (t : Table) : List SymbolId := t.stores.flatMap Store.handles

def symbol? (t : Table) (id : SymbolId) : Option Symbol :=
  (t.owner? id).bind (·.symbol? id)

def global? (t : Table) (name : String) : Option SymbolId :=
  t.stores.findSome? (·.find? name none)

def get? (t : Table) (name : String) : Option SymbolId → Option Symbol
  | some scope => (t.owner? scope).bind (·.get? name (some scope))
  | none => (t.global? name).bind t.symbol?

def getAll (t : Table) (name : String) : List Symbol :=
  ((t.stores.flatMap Store.ordered).map (·.2)).filter (·.name == name)

def resolve (t : Table) (unit : UnitId) (name : String) (scope : Option SymbolId) :
    Option SymbolId :=
  ((t.store? unit).bind (·.lookup name scope)) <|> t.global? name

/-- Puts a store in the place of the one of the same unit, or at the end. -/
def put (t : Table) (store : Store) : Table :=
  if t.stores.any (·.unit == store.unit) then
    { t with stores := t.stores.map fun s => if s.unit == store.unit then store else s }
  else { t with stores := t.stores ++ [store] }

def register (t : Table) (unit : UnitId) : Store × Table :=
  match t.store? unit with
  | some store => (store, t)
  | none =>
    let (id, t) := t.fresh
    let store : Store := { id, unit, attached := true }
    (store, t.put store)

/-- Takes in a store in place of the one of its unit, unless one of its
globals is known in another unit. -/
def adopt (t : Table) (store : Store) : Except Error Table :=
  let others := t.stores.filter (·.unit != store.unit)
  match store.globals.find? fun (_, symbol) =>
      others.any fun other => (other.find? symbol.name none).isSome with
  | some (_, symbol) => .error (.duplicateSymbol symbol.name)
  | none => .ok (t.put { store with attached := true })

/-- Adds a symbol to the store of its unit. A refused symbol may leave behind
an empty store. -/
def define (t : Table) (symbol : Symbol) : Except Error SymbolId × Table :=
  if symbol.isGlobal && (t.global? symbol.name).isSome then
    (.error (.duplicateSymbol symbol.name), t)
  else
    let (store, t) := t.register symbol.unit
    match store.define symbol with
    | .ok (id, store) => (.ok id, t.put store)
    | .error e => (.error e, t)

def rename (t : Table) (id : SymbolId) (name : String) : Except Error Unit × Table :=
  match t.owner? id, t.symbol? id with
  | some store, some symbol =>
    if symbol.isGlobal && symbol.name != name && (t.global? name).isSome then
      (.error (.duplicateSymbol name), t)
    else
      let (outcome, store) := store.rename id name
      (outcome, t.put store)
  | _, _ => (.error (.unknownSymbol name), t)

def mapKinds (t : Table) (f : SymbolId → SymbolKind → SymbolKind) : Table :=
  { t with stores := t.stores.map (·.mapKinds f) }

def modify (t : Table) (id : SymbolId) (f : SymbolKind → SymbolKind) : Table :=
  t.mapKinds fun i kind => if i = id then f kind else kind

def setParent (_ : Table) : Except Error Table := .error .noParentScope

/-- Removes the symbols of a unit; its store keeps its identity. -/
def clearUnit (t : Table) (unit : UnitId) : Table :=
  { t with stores := t.stores.map fun s => if s.unit == unit then s.clear else s }

def clear (t : Table) : Table := { t with stores := [] }

end Table

end WordAsm
