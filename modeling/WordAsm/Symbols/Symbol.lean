/-
# Symbols

A symbol is a name with a meaning: a label for an address, an equation for an
expression, or a macro. Labels and equations may be local to a global symbol,
their scope; the local names an equation uses are those of its context.
-/
import WordAsm.Error
import WordAsm.Source.Expr
import WordAsm.Source.Location

namespace WordAsm

inductive SymbolKind
  /-- A place in the code, with its address once that is known. -/
  | label (address : Option Address)
  /-- A named expression; one that refers to itself loses its expression. -/
  | equation (e : Option Expr) (context : Option SymbolId)
  | macroDef (node : NodeId)
  deriving DecidableEq

namespace SymbolKind

def inContext (kind : SymbolKind) (context : Option SymbolId) : SymbolKind :=
  match kind with
  | equation e _ => equation e context
  | kind => kind

def withAddress (kind : SymbolKind) (address : Option Address) : SymbolKind :=
  match kind with
  | label _ => label address
  | kind => kind

def withoutExpr : SymbolKind → SymbolKind
  | equation _ context => equation none context
  | kind => kind

end SymbolKind

structure Symbol where
  name : String
  unit : UnitId
  location : Location
  /-- The global symbol that a local one belongs to. -/
  scope : Option SymbolId := none
  kind : SymbolKind
  deriving DecidableEq

namespace Symbol

def label (name : String) (unit : UnitId) (location : Location) : Symbol :=
  { name, unit, location, kind := .label none }

def equation (name : String) (unit : UnitId) (location : Location) (e : Expr)
    (context : Option SymbolId) : Symbol :=
  { name, unit, location, kind := .equation (some e) context }

def macroDef (name : String) (unit : UnitId) (location : Location) (node : NodeId) : Symbol :=
  { name, unit, location, kind := .macroDef node }

def isGlobal (s : Symbol) : Bool := s.scope.isNone

def isMacro (s : Symbol) : Bool :=
  match s.kind with
  | .macroDef _ => true
  | _ => false

def isEquation (s : Symbol) : Bool :=
  match s.kind with
  | .equation _ _ => true
  | _ => false

def isLabel (s : Symbol) : Bool :=
  match s.kind with
  | .label _ => true
  | _ => false

/-- The symbol, local to the global symbol `scope`. A macro is never local. -/
def under (s : Symbol) (scope : SymbolId) : Except Error Symbol :=
  if s.isMacro then .error (.invalidScope s.name) else .ok { s with scope := some scope }

def mapKind (f : SymbolKind → SymbolKind) (s : Symbol) : Symbol := { s with kind := f s.kind }

def withAddress (s : Symbol) (address : Option Address) : Symbol :=
  s.mapKind (·.withAddress address)

def withoutExpr (s : Symbol) : Symbol := s.mapKind .withoutExpr

def address? (s : Symbol) : Option Address :=
  match s.kind with
  | .label address => address
  | _ => none

end Symbol

end WordAsm
