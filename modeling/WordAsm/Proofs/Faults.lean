/-
# Why an expression has no value

An expression has no value if an operator has none for the values of its operands, if
`$` has no address, or if a name in it has no value. Where every name finds a label
with an address or an equation with its expression, and no equation leads back to
itself, a name without a value is that of an equation whose expression has none, and
so on down: at the bottom there is an operator or a `$` (`Faulty`).
-/
import Mathlib.Order.WellFoundedSet
import WordAsm.Proofs.EquationGraph
import WordAsm.Proofs.Meaning

namespace WordAsm

open Relation (TransGen)

/-! ### Operators -/

/-- The operands that an operator has no value for. -/
inductive BinaryOp.Undefined : BinaryOp → Int64 → Int64 → Prop
  | divZero (l : Int64) : Undefined .div l 0
  | modZero (l : Int64) : Undefined .mod l 0
  | divOverflow : Undefined .div Int64.minValue (-1)
  | modOverflow : Undefined .mod Int64.minValue (-1)
  | shl (l : Int64) {r : Int64} (h : ¬ (0 ≤ r.toInt ∧ r.toInt ≤ 63)) : Undefined .shl l r
  | shr (l : Int64) {r : Int64} (h : ¬ (0 ≤ r.toInt ∧ r.toInt ≤ 63)) : Undefined .shr l r

theorem divides_eq_false_iff {l r : Int64} :
    divides l r = false ↔ r = 0 ∨ (l = Int64.minValue ∧ r = -1) := by
  unfold divides
  rw [Bool.and_eq_false_iff, bne_eq_false_iff_eq, Bool.not_eq_false', Bool.and_eq_true, beq_iff_eq,
    beq_iff_eq]

theorem shiftAmount?_eq_none_iff {r : Int64} :
    shiftAmount? r = none ↔ ¬ (0 ≤ r.toInt ∧ r.toInt ≤ 63) := by
  unfold shiftAmount?
  split <;> simp <;> omega

theorem BinaryOp.apply_eq_none_iff {op : BinaryOp} {l r : Int64} :
    op.apply l r = none ↔ op.Undefined l r := by
  constructor
  · intro h
    cases op with
    | div =>
      simp only [apply, ite_eq_right_iff, reduceCtorEq, imp_false, Bool.not_eq_true] at h
      rcases divides_eq_false_iff.mp h with rfl | ⟨rfl, rfl⟩
      · exact .divZero l
      · exact .divOverflow
    | mod =>
      simp only [apply, ite_eq_right_iff, reduceCtorEq, imp_false, Bool.not_eq_true] at h
      rcases divides_eq_false_iff.mp h with rfl | ⟨rfl, rfl⟩
      · exact .modZero l
      · exact .modOverflow
    | shl => exact .shl l (shiftAmount?_eq_none_iff.mp (Option.map_eq_none_iff.mp h))
    | shr => exact .shr l (shiftAmount?_eq_none_iff.mp (Option.map_eq_none_iff.mp h))
    | _ => cases h
  · intro h
    cases h with
    | divZero | modZero => rw [apply, if_neg]; simp [divides]
    | divOverflow => rfl
    | modOverflow => rfl
    | shl _ h => exact Option.map_eq_none_iff.mpr (shiftAmount?_eq_none_iff.mpr h)
    | shr _ h => exact Option.map_eq_none_iff.mpr (shiftAmount?_eq_none_iff.mpr h)

/-! ### Faults -/

/-- **What keeps an expression from having a value**, other than its names: once equations
are replaced by their expressions, it has an operator without a value, or a `$` where
there is no address. There is none in the expression of an equation. -/
inductive Faulty (t : Table) : UnitId → Option SymbolId → Option Address → Expr → Prop
  | current {unit : UnitId} {scope : Option SymbolId} : Faulty t unit scope none .current
  | equation {unit : UnitId} {scope : Option SymbolId} {here : Option Address} {name : String}
    {id : SymbolId} {symbol : Symbol} {e : Expr} {context : Option SymbolId}
    (hname : t.resolve unit name scope = some id) (hsymbol : t.symbol? id = some symbol)
    (hkind : symbol.kind = .equation (some e) context)
    (he : Faulty t symbol.unit context none e) : Faulty t unit scope here (.ident name)
  | unary {unit : UnitId} {scope : Option SymbolId} {here : Option Address} {op : UnaryOp}
    {e : Expr} (he : Faulty t unit scope here e) : Faulty t unit scope here (.unary op e)
  | left {unit : UnitId} {scope : Option SymbolId} {here : Option Address} {op : BinaryOp}
    {l r : Expr} (hl : Faulty t unit scope here l) : Faulty t unit scope here (.binary op l r)
  | right {unit : UnitId} {scope : Option SymbolId} {here : Option Address} {op : BinaryOp}
    {l r : Expr} (hr : Faulty t unit scope here r) : Faulty t unit scope here (.binary op l r)
  | operator {unit : UnitId} {scope : Option SymbolId} {here : Option Address} {op : BinaryOp}
    {l r : Expr} {a b : Int64} (ha : Denotes t (.value true) unit scope here l a)
    (hb : Denotes t (.value true) unit scope here r b) (hop : op.Undefined a b) :
    Faulty t unit scope here (.binary op l r)

namespace Table

variable {t : Table} {unit : UnitId} {scope : Option SymbolId} {here : Option Address}
  {e : Expr}

/-- The name finds a label that has an address, or an equation that has its expression. -/
def Settles (t : Table) (unit : UnitId) (scope : Option SymbolId) (name : String) : Prop :=
  ∃ id x, t.resolve unit name scope = some id ∧ t.symbol? id = some x ∧
    ((∃ address, x.kind = .label (some address)) ∨ ∃ e context, x.kind = .equation (some e) context)

/-- All names in the expressions of equations are settled, and no equation leads back to
itself. -/
structure Grounded (t : Table) : Prop where
  settled : ∀ id x e context, t.symbol? id = some x → x.kind = .equation (some e) context →
    ∀ name ∈ e.identifiers, t.Settles x.unit context name
  acyclic : ∀ id, ¬ TransGen t.Refers id id

theorem denotes_value_iff {a : Int64} :
    t.eval { unit, scope, current := here } e = some a ↔
      Denotes t (.value true) unit scope here e a := by
  have hiff := t.denotes_iff (m := .value true) (v := { unit, scope, current := here }) (e := e)
    (a := a)
  rw [Meaning.interpretation_value, Meaning.expr_value] at hiff
  exact hiff

theorem denotes_unique {a b : Int64} (ha : Denotes t (.value true) unit scope here e a)
    (hb : Denotes t (.value true) unit scope here e b) : a = b :=
  Option.some.inj ((denotes_value_iff.mpr ha).symm.trans (denotes_value_iff.mpr hb))

theorem not_denotes_of_faulty (h : Faulty t unit scope here e) :
    ∀ a, ¬ Denotes t (.value true) unit scope here e a := by
  induction h with
  | current =>
    intro a ha
    cases ha with
    | here ha => cases ha
  | equation hname hsymbol hkind _ ih =>
    intro a ha
    cases ha with
    | label hname' hsymbol' hkind' _ =>
      cases hname.symm.trans hname'
      cases hsymbol.symm.trans hsymbol'
      cases hkind.symm.trans hkind'
    | equation hname' hsymbol' hkind' hbody =>
      cases hname.symm.trans hname'
      cases hsymbol.symm.trans hsymbol'
      cases hkind.symm.trans hkind'
      exact ih _ hbody
  | unary _ ih =>
    intro a ha
    cases ha with
    | unary ha _ => exact ih _ ha
  | left _ ih =>
    intro a ha
    cases ha with
    | binary ha _ _ => exact ih _ ha
  | right _ ih =>
    intro a ha
    cases ha with
    | binary _ hb _ => exact ih _ hb
  | operator ha hb hop =>
    intro c hc
    cases hc with
    | binary ha' hb' hc =>
      rw [← denotes_unique ha ha', ← denotes_unique hb hb'] at hc
      exact absurd (hc.symm.trans (BinaryOp.apply_eq_none_iff.mpr hop)) (by simp)

theorem denotes_or_faulty_of_names (e : Expr)
    (h : ∀ name ∈ e.identifiers, (∃ a, Denotes t (.value true) unit scope here (.ident name) a) ∨
      Faulty t unit scope here (.ident name)) :
    (∃ a, Denotes t (.value true) unit scope here e a) ∨ Faulty t unit scope here e := by
  induction e with
  | number v => exact .inl ⟨_, .number v⟩
  | ident name => exact h name (List.mem_singleton_self name)
  | current =>
    cases here with
    | none => exact .inr .current
    | some address => exact .inl ⟨_, .here rfl⟩
  | unary op e ih =>
    rcases ih h with ⟨a, ha⟩ | he
    · exact .inl ⟨_, .unary ha rfl⟩
    · exact .inr (.unary he)
  | binary op l r ihl ihr =>
    rcases ihl fun name hname => h name (List.mem_append_left _ hname) with ⟨a, ha⟩ | hl
    · rcases ihr fun name hname => h name (List.mem_append_right _ hname) with ⟨b, hb⟩ | hr
      · cases hop : op.apply a b with
        | none => exact .inr (.operator ha hb (BinaryOp.apply_eq_none_iff.mp hop))
        | some c => exact .inl ⟨c, .binary ha hb hop⟩
      · exact .inr (.right hr)
    · exact .inr (.left hl)

/-- **References without circles come to an end**, since a table has finitely many symbols. -/
theorem wellFounded_refers (h : ∀ id, ¬ TransGen t.Refers id id) :
    WellFounded fun b a => t.Refers a b := by
  have horder : IsStrictOrder SymbolId fun b a => TransGen t.Refers a b :=
    { irrefl := h, trans := fun _ _ _ hba hcb => hcb.trans hba }
  have hfinite : {id | id ∈ t.handles}.WellFoundedOn fun b a => TransGen t.Refers a b :=
    (List.finite_toSet t.handles).wellFoundedOn
  refine Subrelation.wf (fun {b a} hab => ?_) (Set.wellFoundedOn_iff.mp hfinite)
  obtain ⟨x, _, _, ha, _, _, _, _, y, hb, _⟩ := id hab
  exact ⟨.single hab, mem_handles_of_symbol? hb, mem_handles_of_symbol? ha⟩

namespace Grounded

/-- An equation has a value or is faulty. The induction is on where its references lead. -/
theorem denotes_or_faulty_equation (h : t.Grounded) {id : SymbolId} {x : Symbol} {e : Expr}
    {context : Option SymbolId} (hx : t.symbol? id = some x)
    (hkind : x.kind = .equation (some e) context) :
    (∃ a, Denotes t (.value true) x.unit context none e a) ∨ Faulty t x.unit context none e := by
  induction id using (wellFounded_refers h.acyclic).induction generalizing x e context with
  | _ id ih =>
    refine denotes_or_faulty_of_names e fun name hname => ?_
    obtain ⟨next, y, hnext, hy, ⟨address, hlabel⟩ | ⟨body, context', hequation⟩⟩ :=
      h.settled id x e context hx hkind name hname
    · exact .inl ⟨_, .label hnext hy hlabel rfl⟩
    · have hrefers : t.Refers id next :=
        ⟨x, e, context, hx, hkind, name, hname, hnext, y, hy, by rw [Symbol.isEquation, hequation]⟩
      rcases ih next hrefers hy hequation with ⟨a, ha⟩ | hfaulty
      · exact .inl ⟨a, .equation hnext hy hequation ha⟩
      · exact .inr (.equation hnext hy hequation hfaulty)

/-- **An expression has no value just if it is faulty**, where its names are settled. -/
theorem eval_eq_none_iff (h : t.Grounded) (he : ∀ name ∈ e.identifiers, t.Settles unit scope name) :
    t.eval { unit, scope, current := here } e = none ↔ Faulty t unit scope here e := by
  have hcases : (∃ a, Denotes t (.value true) unit scope here e a) ∨
      Faulty t unit scope here e := by
    refine denotes_or_faulty_of_names e fun name hname => ?_
    obtain ⟨id, x, hid, hx, ⟨address, hlabel⟩ | ⟨body, context, hequation⟩⟩ := he name hname
    · exact .inl ⟨_, .label hid hx hlabel rfl⟩
    · rcases h.denotes_or_faulty_equation hx hequation with ⟨a, ha⟩ | hfaulty
      · exact .inl ⟨a, .equation hid hx hequation ha⟩
      · exact .inr (.equation hid hx hequation hfaulty)
  constructor
  · intro hnone
    rcases hcases with ⟨a, ha⟩ | hfaulty
    · exact absurd (hnone.symm.trans (denotes_value_iff.mpr ha)) (by simp)
    · exact hfaulty
  · intro hfaulty
    refine Option.eq_none_iff_forall_ne_some.mpr fun a ha => ?_
    exact not_denotes_of_faulty hfaulty a (denotes_value_iff.mp ha)

end Grounded

end Table

end WordAsm
