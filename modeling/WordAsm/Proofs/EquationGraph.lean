/-
# The graph of equations

An equation refers to the equations that the names in its expression find. A circle
is a way along such references from an equation back to it that meets no equation
twice.

Without its expression an equation refers to nothing. So a table in which some
equations have lost theirs (`Table.cleared`) has just the references of all
the others (`Table.refers_cleared`).
-/
import Mathlib.Data.List.Chain
import Mathlib.Logic.Relation
import WordAsm.Proofs.InPlace
import WordAsm.Symbols.Cycle

namespace WordAsm

open List

namespace Symbol

variable (x : Symbol)

@[simp] theorem isEquation_withoutExpr : x.withoutExpr.isEquation = x.isEquation := by
  obtain ⟨name, unit, location, scope, kind⟩ := x
  cases kind <;> rfl

@[simp] theorem withoutExpr_withoutExpr : x.withoutExpr.withoutExpr = x.withoutExpr := by
  obtain ⟨name, unit, location, scope, kind⟩ := x
  cases kind <;> rfl

theorem kind_withoutExpr_ne (e : Expr) (context : Option SymbolId) :
    x.withoutExpr.kind ≠ .equation (some e) context := by
  obtain ⟨name, unit, location, scope, kind⟩ := x
  cases kind <;> rintro ⟨⟩

end Symbol

namespace Table

variable {t : Table} {ids : List SymbolId} {a b id : SymbolId}

/-- The equation `a` has an expression, and a name in it finds the equation `b`. -/
def Refers (t : Table) (a b : SymbolId) : Prop :=
  ∃ x e context, t.symbol? a = some x ∧ x.kind = .equation (some e) context ∧
    ∃ name ∈ e.identifiers, t.resolve x.unit name context = some b ∧
      ∃ y, t.symbol? b = some y ∧ y.isEquation = true

/-- The way from `id` along `others` and back to `id` follows references and meets
no equation twice. -/
def Circle (t : Table) (id : SymbolId) (others : List SymbolId) : Prop :=
  (id :: others ++ [id]).IsChain t.Refers ∧ (id :: others).Nodup

def Circles (t : Table) (circles : List (List SymbolId)) : Prop :=
  ∀ c ∈ circles, ∃ first rest, c = first :: rest ∧ t.Circle first rest

/-! ### References -/

theorem references?_eq_some {references : List SymbolId} :
    t.references? id = some references ↔
      ∃ x e context, t.symbol? id = some x ∧ x.kind = .equation (some e) context ∧
        references = (e.identifiers.filterMap fun name => t.resolve x.unit name context).filter
          fun next => (t.symbol? next).any Symbol.isEquation := by
  unfold references?
  constructor
  · intro h
    split at h
    · rename_i hsymbol
      cases h
      exact ⟨_, _, _, hsymbol, rfl, rfl⟩
    · cases h
  · rintro ⟨⟨name, unit, location, scope, kind⟩, e, context, hsymbol, rfl, rfl⟩
    rw [hsymbol]

theorem refers_iff :
    t.Refers a b ↔ ∃ references, t.references? a = some references ∧ b ∈ references := by
  simp only [references?_eq_some]
  constructor
  · rintro ⟨x, e, context, hx, hkind, name, hname, hb, y, hy, hequation⟩
    refine ⟨_, ⟨x, e, context, hx, hkind, rfl⟩, ?_⟩
    rw [mem_filter, mem_filterMap]
    exact ⟨⟨name, hname, hb⟩, by rw [hy, Option.any_some, hequation]⟩
  · rintro ⟨_, ⟨x, e, context, hx, hkind, rfl⟩, hb⟩
    rw [mem_filter, mem_filterMap] at hb
    obtain ⟨⟨name, hname, hfound⟩, hequation⟩ := hb
    obtain ⟨y, hy, hequation⟩ := (Option.any_eq_true _ _).mp hequation
    exact ⟨x, e, context, hx, hkind, name, hname, hfound, y, hy, hequation⟩

theorem Refers.references?_ne_none (h : t.Refers a b) : t.references? a ≠ none := by
  obtain ⟨references, hreferences, -⟩ := refers_iff.mp h
  rw [hreferences]
  exact Option.some_ne_none references

/-! ### Circles -/

/-- **A circle may be entered anywhere.** -/
theorem Circle.rotate {first : SymbolId} {rest front back : List SymbolId}
    (h : t.Circle first rest) (hsplit : first :: rest = front ++ id :: back) :
    t.Circle id (back ++ front) := by
  cases front with
  | nil =>
    cases hsplit
    rw [append_nil]
    exact h
  | cons f front =>
    cases hsplit
    obtain ⟨hchain, hnodup⟩ := h
    -- the way splits at `id`, and its two parts meet at `first`
    have hin : (first :: front ++ [id]).IsChain t.Refers :=
      hchain.prefix ⟨back ++ [first], by simp⟩
    have hout : (id :: back ++ [first]).IsChain t.Refers :=
      hchain.suffix ⟨first :: front, by simp⟩
    have hround : (id :: back ++ [first] ++ (front ++ [id])).IsChain t.Refers :=
      hout.append_overlap hin (by simp)
    have hperm : (first :: front ++ id :: back).Perm (id :: back ++ first :: front) :=
      perm_append_comm
    constructor
    · simpa using hround
    · exact hperm.nodup_iff.mp hnodup

theorem transGen_of_isChain {others : List SymbolId} {a b : SymbolId}
    (h : (a :: others ++ [b]).IsChain t.Refers) : Relation.TransGen t.Refers a b := by
  induction others generalizing a with
  | nil => exact .single (isChain_pair.mp h)
  | cons next others ih =>
    obtain ⟨hstep, hrest⟩ := isChain_cons_cons.mp h
    exact .head hstep (ih hrest)

/-! ### Equations that lost their expressions -/

/-- The table with the expressions of some equations gone. -/
def cleared (t : Table) (ids : List SymbolId) : Table :=
  t.mapKinds fun id kind => if id ∈ ids then kind.withoutExpr else kind

theorem cleared_nil (t : Table) : t.cleared [] = t := by
  simp [cleared, mapKinds_id]

theorem modify_cleared (t : Table) (ids : List SymbolId) (id : SymbolId) :
    (t.cleared ids).modify id .withoutExpr = t.cleared (id :: ids) := by
  unfold cleared
  rw [modify_mapKinds]
  congr 1
  funext i kind
  by_cases hid : i = id
  · by_cases hi : i ∈ ids
    · cases kind <;> simp [hid ▸ hi, hid, SymbolKind.withoutExpr]
    · simp [hid ▸ hi, hid]
  · simp [hid]

theorem symbol?_cleared (t : Table) (ids : List SymbolId) (id : SymbolId) :
    (t.cleared ids).symbol? id =
      (t.symbol? id).map fun x => if id ∈ ids then x.withoutExpr else x := by
  rw [cleared, symbol?_mapKinds]
  by_cases hid : id ∈ ids
  · simp [hid, Symbol.withoutExpr]
  · simp [hid]

theorem symbol?_cleared_of_notMem (t : Table) (h : id ∉ ids) :
    (t.cleared ids).symbol? id = t.symbol? id := by
  rw [symbol?_cleared]
  simp [h]

/-- **References of a cleared table** are those of the equations that it left alone. -/
theorem references?_cleared (t : Table) (ids : List SymbolId) (id : SymbolId) :
    (t.cleared ids).references? id = if id ∈ ids then none else t.references? id := by
  have hequation : ∀ next, ((t.cleared ids).symbol? next).any Symbol.isEquation =
      (t.symbol? next).any Symbol.isEquation := by
    intro next
    rw [symbol?_cleared, Option.any_map]
    refine congrArg (Option.any · _) (funext fun x => ?_)
    by_cases hnext : next ∈ ids <;> simp [hnext]
  have hresolve : ∀ unit name scope, (t.cleared ids).resolve unit name scope =
      t.resolve unit name scope := t.resolve_mapKinds _
  split
  · rename_i hid
    by_contra hsome
    obtain ⟨references, hreferences⟩ := Option.ne_none_iff_exists'.mp hsome
    obtain ⟨x, e, context, hx, hkind, -⟩ := references?_eq_some.mp hreferences
    rw [symbol?_cleared] at hx
    obtain ⟨y, -, rfl⟩ := Option.map_eq_some_iff.mp hx
    rw [if_pos hid] at hkind
    exact y.kind_withoutExpr_ne e context hkind
  · rename_i hid
    refine Option.ext fun references => ?_
    simp only [references?_eq_some, symbol?_cleared_of_notMem t hid, hresolve, hequation]

theorem refers_cleared : (t.cleared ids).Refers a b ↔ a ∉ ids ∧ t.Refers a b := by
  rw [refers_iff, refers_iff, references?_cleared]
  by_cases ha : a ∈ ids <;> simp [ha]

theorem Refers.of_cleared {more : List SymbolId} (hmore : ids ⊆ more)
    (h : (t.cleared more).Refers a b) : (t.cleared ids).Refers a b := by
  obtain ⟨ha, hab⟩ := refers_cleared.mp h
  exact refers_cleared.mpr ⟨fun hin => ha (hmore hin), hab⟩

end Table

end WordAsm
