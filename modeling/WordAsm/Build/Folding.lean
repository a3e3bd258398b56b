/-
# Folding

Replaces the parts of expressions that do not move by their values. What moves
stays symbolic.
-/
import WordAsm.Build.Build
import WordAsm.Symbols.Evaluation

namespace WordAsm

/-- Where the expressions of a node stand once it has its address. -/
def Node.viewpoint (node : Node) (unit : UnitId) : Viewpoint :=
  { unit, scope := node.scope, current := node.address }

def foldNode (t : Table) (unit : UnitId) (node : Node) : Node :=
  { node with statement := node.statement.mapCode (t.fold (node.viewpoint unit)) }

def foldTrace (t : Table) (unit : UnitId) (node : Node) : List LogLine :=
  node.statement.codeExprs.filterMap fun e =>
    let folded := t.fold (node.viewpoint unit) e
    if folded = e then none else some ⟨.trace, e.text ++ " => " ++ folded.text⟩

def foldingPhase : Phase where
  name := "fold-expressions"
  run _ unit b :=
    withTree unit b fun tree =>
      let t := b.symbols
      (.ok (), (b.sayAll (tree.flatMap (foldTrace t unit.id))).modifyUnit unit.id fun u =>
        { u with tree := some (tree.map (foldNode t unit.id)) })

end WordAsm
