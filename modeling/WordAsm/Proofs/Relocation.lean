/-
# Tables read alike

Reading a symbol asks a table for symbols and for what names find, and for nothing else.
If every symbol of one table has a counterpart in another, and names find counterparts
in both, then a symbol and its counterpart are read alike (`Relocation.read_eq`),
whatever the handles are.

Which equations may still be entered is compared by membership only, so the two tables
may have their handles in different orders.
-/
import WordAsm.Symbols.Evaluation

namespace WordAsm

def SymbolKind.relocate (move : SymbolId → SymbolId) : SymbolKind → SymbolKind
  | equation e context => equation e (context.map move)
  | kind => kind

/-- The symbol where handles have moved: another scope, and another context. -/
def Symbol.relocate (move : SymbolId → SymbolId) (x : Symbol) : Symbol :=
  { x with scope := x.scope.map move, kind := x.kind.relocate move }

@[simp] theorem SymbolKind.relocate_id (kind : SymbolKind) : kind.relocate id = kind := by
  cases kind <;> simp [relocate]

namespace Table

/-- What stands in `t'` for a symbol of `t`, if there is one: a label of the same address,
some macro, or an equation with the same expression, whose names find in `t'` what stands
for what they find in `t`. -/
inductive Counterpart (t t' : Table) (live : SymbolId → Prop) (move : SymbolId → SymbolId) :
    Option Symbol → Option Symbol → Prop
  | missing : Counterpart t t' live move none none
  | label {x y : Symbol} {address : Option Address} (hx : x.kind = .label address)
    (hy : y.kind = .label address) : Counterpart t t' live move (some x) (some y)
  | macroDef {x y : Symbol} {node node' : NodeId} (hx : x.kind = .macroDef node)
    (hy : y.kind = .macroDef node') : Counterpart t t' live move (some x) (some y)
  | equation {x y : Symbol} {e : Option Expr} {context context' : Option SymbolId}
    (hx : x.kind = .equation e context) (hy : y.kind = .equation e context')
    (hnames : ∀ name, t'.resolve y.unit name context' = (t.resolve x.unit name context).map move)
    (hlive : ∀ name i, t.resolve x.unit name context = some i → live i) :
    Counterpart t t' live move (some x) (some y)

theorem Counterpart.of_relocate {t t' : Table} {live : SymbolId → Prop}
    {move shift : SymbolId → SymbolId} {x y : Symbol} (hkind : y.kind = x.kind.relocate shift)
    (hnames : ∀ e context, x.kind = .equation e context → ∀ name,
      t'.resolve y.unit name (context.map shift) = (t.resolve x.unit name context).map move)
    (hlive : ∀ name context i, t.resolve x.unit name context = some i → live i) :
    Counterpart t t' live move (some x) (some y) := by
  cases hx : x.kind with
  | label address => exact .label hx (hkind.trans (by rw [hx]; rfl))
  | macroDef node => exact .macroDef hx (hkind.trans (by rw [hx]; rfl))
  | equation e context =>
    exact .equation hx (hkind.trans (by rw [hx]; rfl)) (hnames e context hx)
      fun name => hlive name context

/-- The symbols `i` of `t` for which `live i` are in `t'` under the handles `move i`. -/
structure Relocation (t t' : Table) (live : SymbolId → Prop) (move : SymbolId → SymbolId) :
    Prop where
  injective : ∀ i j, live i → live j → move i = move j → i = j
  symbols : ∀ i, live i → Counterpart t t' live move (t.symbol? i) (t'.symbol? (move i))

namespace Relocation

variable {t t' : Table} {live : SymbolId → Prop} {move : SymbolId → SymbolId}

/-- **Counterparts are read alike.** By induction on the equations that may still be
entered. -/
theorem read_eq (h : t.Relocation t' live move) {α : Type} (r : Interpretation α)
    {remaining remaining' : List SymbolId}
    (hremaining : ∀ i, live i → (move i ∈ remaining' ↔ i ∈ remaining)) {id : SymbolId}
    (hid : live id) : t'.read r remaining' (move id) = t.read r remaining id := by
  induction hn : remaining.length using Nat.strongRecOn generalizing remaining remaining' id with
  | _ n ih =>
    have hcounterpart := h.symbols id hid
    rw [read, read]
    revert hcounterpart
    generalize t.symbol? id = x
    generalize t'.symbol? (move id) = y
    intro hcounterpart
    cases hcounterpart with
    | missing => rfl
    | label hx hy | macroDef hx hy => simp only [hx, hy]
    | @equation x y e context context' hx hy hnames hlive =>
      cases e with
      | none => simp only [hx, hy]
      | some e =>
        simp only [hx, hy, hnames]
        by_cases hmem : id ∈ remaining
        · rw [dif_pos hmem, dif_pos ((hremaining id hid).mpr hmem)]
          congr 1
          funext name
          cases hnext : t.resolve x.unit name context with
          | none => rfl
          | some next =>
            refine ih _ (hn ▸ length_without_lt hmem) (fun i hi => ?_) (hlive name next hnext) rfl
            have hsame : move i = move id ↔ i = id := ⟨h.injective i id hi hid, congrArg move⟩
            simp only [without, List.mem_filter, hremaining i hi, decide_eq_true_eq, ne_eq, hsame]
        · rw [dif_neg hmem, dif_neg (mt (hremaining id hid).mp hmem)]

end Relocation

end Table

end WordAsm
