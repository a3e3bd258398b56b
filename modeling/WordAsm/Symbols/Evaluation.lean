/-
# Values of symbols

A label stands for its address, and an equation for the value of its
expression, with names read in the equation's own unit and context. A name met
again while it is being read has no value, so reading ends on every table: the
equations that are not being read grow fewer with each step.

Values and relocation weights are read in the same way, and `Interpretation` says
what differs between them.
-/
import WordAsm.Symbols.Table

namespace WordAsm

/-- How labels and expressions are read. -/
structure Interpretation (α : Type) where
  label : Option Address → Option α
  expr : (String → Option α) → Expr → Option α

namespace Interpretation

/-- Values. Labels may be left unknown, so that only constants have one. -/
def value (labels : Bool) : Interpretation Int64 where
  label address := if labels then address.map fun a => Int64.ofNat a.toNat else none
  expr lookup e := e.eval { lookup, current := none }

/-- Relocation weights. A label moves with its module, assigned or not. -/
def weight : Interpretation Int32 where
  label _ := some 1
  expr weigh e := e.weight weigh

end Interpretation

namespace Table

/-- Reads a symbol, where only the equations in `remaining` may be entered. -/
def read {α : Type} (t : Table) (r : Interpretation α) (remaining : List SymbolId)
    (id : SymbolId) : Option α :=
  match t.symbol? id with
  | none => none
  | some symbol =>
    match symbol.kind with
    | .label address => r.label address
    | .macroDef _ => none
    | .equation none _ => none
    | .equation (some e) context =>
      if _h : id ∈ remaining then
        r.expr (fun name =>
          match t.resolve symbol.unit name context with
          | some next => t.read r (without remaining id) next
          | none => none) e
      else none
termination_by remaining.length
decreasing_by
  exact length_without_lt _h

def value? (t : Table) (id : SymbolId) : Option Int64 :=
  t.read (.value true) t.handles id

def weight? (t : Table) (id : SymbolId) : Option Int32 :=
  t.read .weight t.handles id

end Table

/-- Where an expression stands. -/
structure Viewpoint where
  unit : UnitId
  scope : Option SymbolId := none
  /-- The value of `$`. -/
  current : Option Address := none
  /-- Whether labels have values. -/
  labels : Bool := true
  deriving DecidableEq

namespace Table

/-- What names mean for an expression at `v`. -/
def readName {α : Type} (t : Table) (r : Interpretation α) (v : Viewpoint) (name : String) :
    Option α :=
  (t.resolve v.unit name v.scope).bind (t.read r t.handles)

def environment (t : Table) (v : Viewpoint) : Environment where
  lookup := t.readName (.value v.labels) v
  current := v.current.map fun a => Int64.ofNat a.toNat

/-- The value of an expression. -/
def eval (t : Table) (v : Viewpoint) (e : Expr) : Option Int64 := e.eval (t.environment v)

def weigh (t : Table) (v : Viewpoint) (e : Expr) : Option Int32 :=
  e.weight (t.readName .weight v)

/-- The expression with the parts that do not move replaced by their values. -/
def fold (t : Table) (v : Viewpoint) (e : Expr) : Expr :=
  e.fold (t.environment v) (t.readName .weight v)

end Table

end WordAsm
