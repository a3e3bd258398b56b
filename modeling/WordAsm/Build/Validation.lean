/-
# Validation

The last look at the expressions before words are made of them: each must have
a value that fits into a word, and, when relocation information is wanted, must
move with its module or not at all.
-/
import WordAsm.Build.Folding
import WordAsm.Build.Layout

namespace WordAsm

def fitsWord (v : Int64) : Bool := -0x8000 ≤ v.toInt && v.toInt ≤ 0xFFFF

/-- A value cut down to a word. -/
def toWord (v : Int64) : Word := v.toUInt64.toUInt16

def valueProblem? (switches : Switches) (inlined : Bool) (e : Expr) : Option Int64 → Option Marker
  | none => some (.error s!"Expression `{e.text}` has no value")
  | some v =>
    if !fitsWord v then
      some (if switches.has .relaxedValidation then
        .warning (s!"Value {v.toInt} truncated to " ++ hexPrefixed (toWord v).toNat)
      else .error s!"Value {v.toInt} does not fit in a word")
    else if inlined && !fitsInline v then
      some (.error s!"Inlined operand `{e.text}` changed to {v.toInt}")
    else none

/-- Whether a weight can be relocated. -/
def isRelocatable (weight : Option Int32) : Bool := weight == some 0 || weight == some 1

def exprProblems (switches : Switches) (t : Table) (v : Viewpoint) (inlined : Bool)
    (e : Expr) : List Marker :=
  (valueProblem? switches inlined e (t.eval v e)).toList ++
    if switches.has .relocationInformation && !isRelocatable (t.weigh v e) then
      [.error s!"Expression `{e.text}` cannot be relocated"]
    else []

def validateNode (switches : Switches) (t : Table) (unit : UnitId) (node : Node) :
    List Marker :=
  (node.statement.codeExprs.flatMap
    (exprProblems switches t (node.viewpoint unit) node.inlined)).map fun marker =>
      (marker.located node.location).on node.id

def validationPhase : Phase where
  name := "validate-pre-codegen"
  run cfg unit b :=
    withTree unit b fun tree =>
      let problems := tree.flatMap (validateNode cfg.switches b.symbols unit.id)
      (.ok (), b.mark unit.id problems)

end WordAsm
