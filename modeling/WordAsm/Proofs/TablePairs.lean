/-
# Symbol tables of the same shape

Two tables are alike when they hold the same symbols under the same handles,
where the units may be numbered differently (by `g`) and labels may have
different addresses (related by `L`). Names are then found at the same handles
in both, so two evaluations can be compared step by step.

The relation is used twice. While a program is laid out, a table is compared
with a later one in which more labels have their addresses. And when a program
is compared with the same program elsewhere in memory, all addresses differ by
a fixed distance.
-/
import WordAsm.Proofs.StoreNames
import WordAsm.Symbols.Table
import Mathlib.Data.List.Forall2
import Mathlib.Data.Option.Basic

namespace WordAsm

open List

variable {α β : Type} {R : α → β → Prop} {x : Option α} {y : Option β}

/-! ### Searches in related lists -/

section Lists

variable {α β γ : Type} {R : α → β → Prop} {xs : List α} {ys : List β} (h : List.Forall₂ R xs ys)
  {p : α → Bool} {q : β → Bool}

include h

theorem forall₂_find? (hpq : ∀ a b, R a b → p a = q b) :
    Option.Rel R (xs.find? p) (ys.find? q) := by
  induction h with
  | nil => exact .none
  | cons hab _ ih =>
    rw [find?_cons, find?_cons, hpq _ _ hab]
    split
    · exact .some hab
    · exact ih

theorem forall₂_findIdx? (hpq : ∀ a b, R a b → p a = q b) : ys.findIdx? q = xs.findIdx? p := by
  induction h with
  | nil => rfl
  | cons hab _ ih => rw [findIdx?_cons, findIdx?_cons, hpq _ _ hab, ih]

theorem forall₂_findSome? {f : α → Option γ} {g : β → Option γ} (hfg : ∀ a b, R a b → g b = f a) :
    ys.findSome? g = xs.findSome? f := by
  induction h with
  | nil => rfl
  | cons hab _ ih => rw [findSome?_cons, findSome?_cons, hfg _ _ hab, ih]

theorem forall₂_flatMap {f : α → List γ} {g : β → List γ} (hfg : ∀ a b, R a b → g b = f a) :
    ys.flatMap g = xs.flatMap f := by
  induction h with
  | nil => rfl
  | cons hab _ ih => rw [flatMap_cons, flatMap_cons, hfg _ _ hab, ih]

theorem forall₂_any (hpq : ∀ a b, R a b → p a = q b) : ys.any q = xs.any p := by
  induction h with
  | nil => rfl
  | cons hab _ ih => rw [any_cons, any_cons, hpq _ _ hab, ih]

theorem forall₂_getElem? (i : ℕ) : Option.Rel R xs[i]? ys[i]? := by
  induction h generalizing i with
  | nil => exact .none
  | cons hab _ ih =>
    cases i with
    | zero => exact .some hab
    | succ i => simpa using ih i

theorem forall₂_modify {f : α → α} {g : β → β} (hfg : ∀ a b, R a b → R (f a) (g b)) (i : ℕ) :
    Forall₂ R (xs.modify i f)
      (ys.modify i g) := by
  induction h generalizing i with
  | nil => simp
  | cons hab hrest ih =>
    cases i with
    | zero => exact .cons (hfg _ _ hab) hrest
    | succ i => exact .cons hab (ih i)

theorem forall₂_mem_right {b : β} (hb : b ∈ ys) : ∃ a ∈ xs, R a b := by
  induction h with
  | nil => cases hb
  | cons hab _ ih =>
    rcases mem_cons.mp hb with rfl | hb
    · exact ⟨_, mem_cons_self, hab⟩
    · obtain ⟨a, ha, hR⟩ := ih hb
      exact ⟨a, mem_cons_of_mem _ ha, hR⟩

theorem forall₂_imp_of_mem {S : α → β → Prop} (himp : ∀ a ∈ xs, ∀ b ∈ ys, R a b → S a b) :
    Forall₂ S xs ys := by
  induction h with
  | nil => exact .nil
  | cons hab _ ih =>
    exact .cons (himp _ mem_cons_self _ mem_cons_self hab)
      (ih fun a ha b hb => himp a (mem_cons_of_mem _ ha) b (mem_cons_of_mem _ hb))

end Lists

theorem forall₂_trans {R : α → α → Prop} {xs ys zs : List α} (h : Forall₂ R xs ys)
    (h' : Forall₂ R ys zs) (hR : ∀ a b c, R a b → R b c → R a c) : Forall₂ R xs zs := by
  induction h generalizing zs with
  | nil => exact h'
  | cons hab _ ih =>
    cases h' with
    | cons hbc hrest => exact .cons (hR _ _ _ hab hbc) (ih hrest)

theorem rel_some {a : α} (h : Option.Rel R x y) (hx : x = some a) : ∃ b, y = some b ∧ R a b := by
  subst hx
  cases h with
  | some hab => exact ⟨_, rfl, hab⟩

theorem rel_some_right {b : β} (h : Option.Rel R x y) (hy : y = some b) :
    ∃ a, x = some a ∧ R a b := by
  subst hy
  cases h with
  | some hab => exact ⟨_, rfl, hab⟩

theorem rel_none (h : Option.Rel R x y) (hx : x = none) : y = none := by
  subst hx
  cases h
  rfl

theorem rel_imp {S : α → β → Prop} (h : Option.Rel R x y) (hRS : ∀ a b, R a b → S a b) :
    Option.Rel S x y := by
  cases h with
  | none => exact .none
  | some hab => exact .some (hRS _ _ hab)

theorem rel_refl {R : α → α → Prop} (hR : ∀ a, R a a) (x : Option α) : Option.Rel R x x := by
  cases x with
  | none => exact .none
  | some a => exact .some (hR a)

theorem rel_trans {R : α → α → Prop} {y z : Option α} (h : Option.Rel R x y) (h' : Option.Rel R y z)
    (hR : ∀ a b c, R a b → R b c → R a c) : Option.Rel R x z := by
  cases h with
  | none => exact h'
  | some hab =>
    cases h' with
    | some hbc => exact .some (hR _ _ _ hab hbc)

theorem rel_square {T : α → β → Prop} {S : α → α → Prop} {S' : β → β → Prop} {y : Option α}
    {x' y' : Option β} (h : Option.Rel R x x') (hs : Option.Rel S x y) (hs' : Option.Rel S' x' y')
    (hT : ∀ a b a' b', R a a' → S a b → S' a' b' → T b b') : Option.Rel T y y' := by
  cases h with
  | none =>
    cases hs
    cases hs'
    exact .none
  | some hR =>
    cases hs with
    | some hS =>
      cases hs' with
      | some hS' => exact .some (hT _ _ _ _ hR hS hS')

theorem forall₂_square {T : α → β → Prop} {S : α → α → Prop} {S' : β → β → Prop} {xs ys : List α}
    {xs' ys' : List β} (h : Forall₂ R xs xs') (hs : Forall₂ S xs ys) (hs' : Forall₂ S' xs' ys')
    (hT : ∀ a b a' b', R a a' → S a b → S' a' b' → T b b') : Forall₂ T ys ys' := by
  induction h generalizing ys ys' with
  | nil =>
    cases hs
    cases hs'
    exact .nil
  | cons hR _ ih =>
    cases hs with
    | cons hS hrest =>
      cases hs' with
      | cons hS' hrest' => exact .cons (hT _ _ _ _ hR hS hS') (ih hrest hrest')

/-! ### Tables that are alike -/

/-- Two meanings of a symbol: labels are related by `L`, all else is equal. -/
inductive KindAlike (L : Option Address → Option Address → Prop) : SymbolKind → SymbolKind → Prop
  | label {a b : Option Address} (h : L a b) : KindAlike L (.label a) (.label b)
  | equation (e : Option Expr) (context : Option SymbolId) :
    KindAlike L (.equation e context) (.equation e context)
  | macroDef (node : NodeId) : KindAlike L (.macroDef node) (.macroDef node)

structure SymbolAlike (g : UnitId → UnitId) (L : Option Address → Option Address → Prop)
    (a b : Symbol) : Prop where
  name : b.name = a.name
  unit : b.unit = g a.unit
  scope : b.scope = a.scope
  kind : KindAlike L a.kind b.kind

structure StoreAlike (g : UnitId → UnitId) (L : Option Address → Option Address → Prop)
    (s s' : Store) : Prop where
  id : s'.id = s.id
  unit : s'.unit = g s.unit
  symbols : List.Forall₂ (SymbolAlike g L) s.symbols s'.symbols

structure TableAlike (g : UnitId → UnitId) (L : Option Address → Option Address → Prop)
    (t t' : Table) : Prop where
  supply : t'.supply = t.supply
  stores : List.Forall₂ (StoreAlike g L) t.stores t'.stores

section Alike

variable {g : UnitId → UnitId} {L : Option Address → Option Address → Prop} {a b : Symbol}

theorem SymbolAlike.isGlobal (h : SymbolAlike g L a b) : b.isGlobal = a.isGlobal := by
  unfold Symbol.isGlobal
  rw [h.scope]

theorem SymbolAlike.sort (h : SymbolAlike g L a b) :
    b.isMacro = a.isMacro ∧ b.isLabel = a.isLabel ∧ b.isEquation = a.isEquation := by
  have hkind := h.kind
  unfold Symbol.isMacro Symbol.isLabel Symbol.isEquation
  generalize a.kind = k, b.kind = k' at hkind
  cases hkind with
  | label | equation | macroDef => exact ⟨rfl, rfl, rfl⟩

namespace StoreAlike

variable {s s' : Store} (h : StoreAlike g L s s')

include h

theorem handle (slot : ℕ) : s'.handle slot = s.handle slot := by
  unfold Store.handle
  rw [h.id]

theorem length : s'.symbols.length = s.symbols.length :=
  h.symbols.length_eq.symm

theorem handles : s'.handles = s.handles := by
  unfold Store.handles
  rw [h.length]
  exact map_congr_left fun slot _ => h.handle slot

theorem keys : s'.keys = s.keys := by
  have hkeys := h.symbols
  unfold Store.keys
  generalize s.symbols = xs, s'.symbols = ys at hkeys
  induction hkeys with
  | nil => rfl
  | cons hab _ ih => rw [map_cons, map_cons, ih, Symbol.key, Symbol.key, hab.name, hab.scope]

theorem find? (name : String) (scope : Option SymbolId) :
    s'.find? name scope = s.find? name scope :=
  Store.find?_congr s s' h.id h.keys name scope

theorem lookup (name : String) (scope : Option SymbolId) :
    s'.lookup name scope = s.lookup name scope := by
  unfold Store.lookup
  rw [h.find?, h.find?]

theorem symbol? (id : SymbolId) : Option.Rel (SymbolAlike g L) (s.symbol? id) (s'.symbol? id) := by
  unfold Store.symbol?
  rw [h.id]
  split
  · exact forall₂_getElem? h.symbols id.slot
  · exact .none

theorem admits (hab : SymbolAlike g L a b) : s'.admits b = s.admits a := by
  unfold Store.admits
  rw [hab.scope, hab.sort.1]
  cases a.scope with
  | none => rfl
  | some scope =>
    simp only
    congr 1
    cases hs : s.symbol? scope with
    | none => rw [rel_none (h.symbol? scope) hs]
    | some c =>
      obtain ⟨d, hd, hcd⟩ := rel_some (h.symbol? scope) hs
      rw [hd, Option.any_some, Option.any_some, hcd.isGlobal]

/-- Both stores take a symbol under the same handle, or refuse it for the same
reason. -/
theorem define (hab : SymbolAlike g L a b) :
    (∃ e, s.define a = .error e ∧ s'.define b = .error e) ∨
    ∃ id u u', s.define a = .ok (id, u) ∧ s'.define b = .ok (id, u') ∧ StoreAlike g L u u' := by
  have hkey : b.key = a.key := congrArg₂ SymbolKey.mk hab.name hab.scope
  cases hadmits : s.admits a with
  | false =>
    have he' := Store.define_misplaced ((h.admits hab).trans hadmits)
    exact .inl ⟨_, Store.define_misplaced hadmits, hab.name ▸ he'⟩
  | true =>
    have hadmits' := (h.admits hab).trans hadmits
    by_cases hin : a.key ∈ s.keys
    · have he' := Store.define_taken hadmits' (by rwa [hkey, h.keys])
      exact .inl ⟨_, Store.define_taken hadmits hin, hab.name ▸ he'⟩
    · obtain ⟨u, hu, hbecomes⟩ := Store.define_free hadmits hin
      obtain ⟨u', hu', hbecomes'⟩ := Store.define_free hadmits' (by rwa [hkey, h.keys])
      rw [h.handle, h.length] at hu'
      refine .inr ⟨_, u, u', hu, hu', ?_, ?_, ?_⟩
      · rw [hbecomes'.id, hbecomes.id, h.id]
      · rw [hbecomes'.unit, hbecomes.unit, h.unit]
      · rw [hbecomes'.symbols, hbecomes.symbols]
        exact rel_append h.symbols (.cons hab .nil)

end StoreAlike

namespace TableAlike

variable {t t' : Table} (h : TableAlike g L t t')

include h

theorem handles : t'.handles = t.handles :=
  forall₂_flatMap h.stores fun _ _ hs => hs.handles

theorem global? (name : String) : t'.global? name = t.global? name :=
  forall₂_findSome? h.stores fun _ _ hs => hs.find? name none

theorem owner? (id : SymbolId) : Option.Rel (StoreAlike g L) (t.owner? id) (t'.owner? id) :=
  forall₂_find? h.stores fun _ _ hs => by rw [hs.id]

theorem symbol? (id : SymbolId) : Option.Rel (SymbolAlike g L) (t.symbol? id) (t'.symbol? id) := by
  unfold Table.symbol?
  cases ho : t.owner? id with
  | none =>
    rw [rel_none (h.owner? id) ho]
    exact .none
  | some s =>
    obtain ⟨s', hs', hss⟩ := rel_some (h.owner? id) ho
    rw [hs', Option.bind_some, Option.bind_some]
    exact hss.symbol? id

theorem mapKinds {f f' : SymbolId → SymbolKind → SymbolKind}
    (hf : ∀ id a b, KindAlike L a b → KindAlike L (f id a) (f' id b)) :
    TableAlike g L (t.mapKinds f) (t'.mapKinds f') := by
  refine ⟨h.supply, ?_⟩
  unfold Table.mapKinds
  rw [forall₂_map_left_iff, forall₂_map_right_iff]
  refine h.stores.imp fun s s' hs => ⟨hs.id, hs.unit, ?_⟩
  refine forall₂_iff_get.mpr ⟨by simpa [Store.mapKinds] using hs.length.symm,
    fun i hi hi' => ?_⟩
  simp only [Store.mapKinds, get_eq_getElem, getElem_mapIdx, hs.handle]
  simp only [Store.mapKinds, length_mapIdx] at hi hi'
  obtain ⟨hname, hunit, hscope, hkind⟩ := (forall₂_iff_get.mp hs.symbols).2 i hi hi'
  exact ⟨hname, hunit, hscope, hf _ _ _ hkind⟩

theorem modify (id : SymbolId) {f f' : SymbolKind → SymbolKind}
    (hf : ∀ a b, KindAlike L a b → KindAlike L (f a) (f' b)) :
    TableAlike g L (t.modify id f) (t'.modify id f') := by
  refine h.mapKinds fun i a b hab => ?_
  split
  · exact hf a b hab
  · exact hab

variable (hg : Function.Injective g)

include hg

theorem store? (unit : UnitId) :
    Option.Rel (StoreAlike g L) (t.store? unit) (t'.store? (g unit)) := by
  refine forall₂_find? h.stores fun s s' hs => ?_
  rw [hs.unit, Bool.eq_iff_iff, beq_iff_eq, beq_iff_eq, hg.eq_iff]

theorem resolve (unit : UnitId) (name : String) (scope : Option SymbolId) :
    t'.resolve (g unit) name scope = t.resolve unit name scope := by
  unfold Table.resolve
  rw [h.global?]
  cases hs : t.store? unit with
  | none => rw [rel_none (h.store? hg unit) hs]
  | some s =>
    obtain ⟨s', hs', hss⟩ := rel_some (h.store? hg unit) hs
    rw [hs', Option.bind_some, Option.bind_some, hss.lookup]

theorem put {s s' : Store} (hs : StoreAlike g L s s') :
    TableAlike g L (t.put s) (t'.put s') := by
  have hunit : ∀ a b, StoreAlike g L a b → (a.unit == s.unit) = (b.unit == s'.unit) := by
    intro a b hab
    rw [hab.unit, hs.unit, Bool.eq_iff_iff, beq_iff_eq, beq_iff_eq, hg.eq_iff]
  unfold Table.put
  rw [forall₂_any h.stores hunit]
  split
  · refine ⟨h.supply, ?_⟩
    rw [forall₂_map_left_iff, forall₂_map_right_iff]
    refine h.stores.imp fun a b hab => ?_
    rw [← hunit a b hab]
    split
    · exact hs
    · exact hab
  · exact ⟨h.supply, rel_append h.stores (.cons hs .nil)⟩

theorem register (unit : UnitId) :
    StoreAlike g L (t.register unit).1 (t'.register (g unit)).1 ∧
      TableAlike g L (t.register unit).2 (t'.register (g unit)).2 := by
  unfold Table.register
  cases hs : t.store? unit with
  | some s =>
    obtain ⟨s', hs', hss⟩ := rel_some (h.store? hg unit) hs
    rw [hs']
    exact ⟨hss, h⟩
  | none =>
    rw [rel_none (h.store? hg unit) hs]
    have hnew : StoreAlike g L { id := t.supply, unit, attached := true }
        { id := t'.supply, unit := g unit, attached := true } :=
      ⟨h.supply, rfl, .nil⟩
    have hnext : TableAlike g L { t with supply := t.supply + 1 }
        { t' with supply := t'.supply + 1 } :=
      ⟨congrArg (· + 1) h.supply, h.stores⟩
    exact ⟨hnew, hnext.put hg hnew⟩

/-- **Definitions keep tables alike**, and both tables take the same view of a
symbol: they accept it under the same handle, or refuse it for the same reason. -/
theorem define (hab : SymbolAlike g L a b) :
    (t'.define b).1 = (t.define a).1 ∧ TableAlike g L (t.define a).2 (t'.define b).2 := by
  unfold Table.define
  rw [hab.isGlobal, hab.name, h.global?, hab.unit]
  split
  · exact ⟨rfl, h⟩
  · obtain ⟨hstore, htable⟩ := h.register hg a.unit
    simp only
    generalize t.register a.unit = r, t'.register (g a.unit) = r' at hstore htable
    obtain ⟨s, u⟩ := r
    obtain ⟨s', u'⟩ := r'
    rcases hstore.define hab with ⟨e, he, he'⟩ | ⟨id, v, v', hv, hv', hvv⟩
    · rw [he, he']
      exact ⟨rfl, htable⟩
    · rw [hv, hv']
      exact ⟨rfl, htable.put hg hvv⟩

end TableAlike

theorem KindAlike.withAddress {x y : Option Address} {k k' : SymbolKind} (h : KindAlike L k k')
    (hxy : L x y) : KindAlike L (k.withAddress x) (k'.withAddress y) := by
  cases h with
  | label _ => exact .label hxy
  | equation e context => exact .equation e context
  | macroDef node => exact .macroDef node

end Alike

/-! ### Labels that get their addresses -/

/-- The address of a label now and later: once it has one, it keeps it. -/
def Later (a b : Option Address) : Prop := a = none ∨ b = a

theorem Later.eq_some {a b : Option Address} {x : Address} (h : Later a b) (ha : a = some x) :
    b = some x := by
  rcases h with h | h
  · rw [h] at ha
    cases ha
  · exact h.trans ha

theorem SymbolAlike.refl (a : Symbol) : SymbolAlike id Later a a := by
  refine ⟨rfl, rfl, rfl, ?_⟩
  cases a.kind with
  | label _ => exact .label (.inr rfl)
  | equation e context => exact .equation e context
  | macroDef node => exact .macroDef node

theorem storeAlike_refl (s : Store) : StoreAlike id Later s s :=
  ⟨rfl, rfl, forall₂_same.mpr fun a _ => SymbolAlike.refl a⟩

theorem TableAlike.refl (t : Table) : TableAlike id Later t t :=
  ⟨rfl, forall₂_same.mpr fun s _ => storeAlike_refl s⟩

theorem KindAlike.trans {k₁ k₂ k₃ : SymbolKind} (h : KindAlike Later k₁ k₂)
    (h' : KindAlike Later k₂ k₃) : KindAlike Later k₁ k₃ := by
  cases h with
  | label hab =>
    cases h' with
    | label hbc =>
      refine .label ?_
      rcases hab with rfl | rfl
      · exact .inl rfl
      · exact hbc
  | equation | macroDef => exact h'

theorem SymbolAlike.trans {a b c : Symbol} (h : SymbolAlike id Later a b)
    (h' : SymbolAlike id Later b c) : SymbolAlike id Later a c :=
  ⟨h'.name.trans h.name, h'.unit.trans h.unit, h'.scope.trans h.scope, h.kind.trans h'.kind⟩

theorem storeAlike_trans {a b c : Store} (h : StoreAlike id Later a b)
    (h' : StoreAlike id Later b c) : StoreAlike id Later a c :=
  ⟨h'.id.trans h.id, h'.unit.trans h.unit,
    forall₂_trans h.symbols h'.symbols fun _ _ _ => SymbolAlike.trans⟩

theorem TableAlike.trans {a b c : Table} (h : TableAlike id Later a b)
    (h' : TableAlike id Later b c) : TableAlike id Later a c :=
  ⟨h'.supply.trans h.supply, forall₂_trans h.stores h'.stores fun _ _ _ => storeAlike_trans⟩

theorem SymbolAlike.assign {a : Symbol} (h : a.address? = none) (address : Option Address) :
    SymbolAlike id Later a (a.withAddress address) := by
  obtain ⟨_, _, _, _, kind⟩ := a
  cases kind with
  | label old =>
    obtain rfl : old = none := h
    exact ⟨rfl, rfl, rfl, .label (.inl rfl)⟩
  | equation e context => exact ⟨rfl, rfl, rfl, .equation e context⟩
  | macroDef node => exact ⟨rfl, rfl, rfl, .macroDef node⟩

theorem TableAlike.of_mapKinds {f : SymbolId → SymbolKind → SymbolKind} (t : Table)
    (hf : ∀ s ∈ t.stores, ∀ i x, s.symbol? i = some x → SymbolAlike id Later x (x.mapKind (f i))) :
    TableAlike id Later t (t.mapKinds f) := by
  refine ⟨rfl, forall₂_map_right_iff.mpr (forall₂_same.mpr fun s hs => ⟨rfl, rfl, ?_⟩)⟩
  refine forall₂_iff_get.mpr ⟨by simp [Store.mapKinds], fun i hi hi' => ?_⟩
  simp only [Store.mapKinds, get_eq_getElem, getElem_mapIdx]
  exact hf s hs _ _ ((s.symbol?_handle i).trans (getElem?_eq_getElem hi))

def Table.Unassigned (t : Table) (label : SymbolId) : Prop :=
  ∀ s ∈ t.stores, ∀ symbol, s.symbol? label = some symbol → symbol.address? = none

theorem TableAlike.assign {t : Table} {label : SymbolId} (h : t.Unassigned label)
    (address : Option Address) :
    TableAlike id Later t (t.modify label (·.withAddress address)) := by
  refine .of_mapKinds t fun s hs i x hx => ?_
  by_cases hi : i = label
  · simp only [hi, if_true]
    exact .assign (h s hs x (hi ▸ hx)) address
  · simp only [hi, if_false]
    exact .refl x

theorem Table.Unassigned.modify {t : Table} {label other : SymbolId}
    (h : t.Unassigned other) (hne : label ≠ other) (f : SymbolKind → SymbolKind) :
    (t.modify label f).Unassigned other := by
  intro s hs symbol hsym
  obtain ⟨r, hr, rfl⟩ := mem_map.mp hs
  rw [Store.symbol?_mapKinds, Option.map_eq_some_iff] at hsym
  obtain ⟨x, hx, rfl⟩ := hsym
  simp only [hne.symm, if_false]
  exact h r hr x hx

/-! ### Everything further up -/

/-- The address of a label here and `d` words further up. -/
def Shifted (d : ℕ) (a b : Option Address) : Prop :=
  Option.Rel (fun x y : Address => y.toNat = x.toNat + d) a b

theorem Shifted.value {d : ℕ} {a b : Option Address} (h : Shifted d a b) :
    b.map (fun x => Int64.ofNat x.toNat) =
      (a.map fun x => Int64.ofNat x.toNat).map (· + Int64.ofNat d) := by
  cases h with
  | none => rfl
  | some hxy => simp only [Option.map_some, hxy, Int64.ofNat_add]

end WordAsm
