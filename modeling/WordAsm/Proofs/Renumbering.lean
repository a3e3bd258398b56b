/-
# Stores under other numbers

The number of a symbol store tells it from all others, and says nothing else. If the
stores of a table get other numbers, one to one, every symbol is found under the
changed handle, every expression keeps its value and its weight, and the search for
circular equations marks the same ones.

New stores are numbered by a supply. A renumbering that keeps the supply in step
(`f (n + 1) = f n + 1`) can be made before or after a definition.
-/
import WordAsm.Build.Reference
import WordAsm.Build.Validation
import WordAsm.Proofs.Relocation
import WordAsm.Proofs.StoreNames
import Mathlib.Data.Option.Basic
import Mathlib.Data.List.Basic

namespace WordAsm

open List

/-! ### Handles and symbols -/

/-- The handle with another store number. -/
def SymbolId.renumber (f : StoreId → StoreId) (id : SymbolId) : SymbolId :=
  { id with store := f id.store }

def SymbolKind.renumber (f : StoreId → StoreId) : SymbolKind → SymbolKind
  | equation e context => equation e (context.map (SymbolId.renumber f))
  | kind => kind

def Symbol.renumber (f : StoreId → StoreId) (s : Symbol) : Symbol :=
  { s with scope := s.scope.map (SymbolId.renumber f), kind := s.kind.renumber f }

def SymbolKey.renumber (f : StoreId → StoreId) (key : SymbolKey) : SymbolKey :=
  { key with scope := key.scope.map (SymbolId.renumber f) }

/-- The maps of names have slots only, so they stay. -/
theorem NamesInStep.renumber {id : StoreId} {keys : List SymbolKey} {globals : IndexMap String ℕ}
    {locals : IndexMap ℕ (IndexMap String ℕ)} (h : NamesInStep id keys globals locals)
    (f : StoreId → StoreId) :
    NamesInStep (f id) (keys.map (SymbolKey.renumber f)) globals locals := by
  have hparent : ∀ key : SymbolKey, (key.renumber f).parent? = key.parent? := by
    simp [SymbolKey.parent?, SymbolKey.renumber, SymbolId.renumber, Function.comp_def]
  have hslots : ∀ parent, slotsUnder (keys.map (SymbolKey.renumber f)) parent =
      slotsUnder keys parent := by
    intro parent
    simp only [slotsUnder, zipIdx_map, filter_map, map_map, Function.comp_def, Prod.map, hparent]
    rfl
  refine ⟨h.distinct.map_on fun a ha b hb hab => ?_, fun key hkey scope hscope => ?_, ?_, ?_⟩
  · -- all scopes are in the store
    obtain ⟨name, scope⟩ := a
    obtain ⟨name', scope'⟩ := b
    simp only [SymbolKey.renumber, SymbolKey.mk.injEq] at hab
    have hscope := congrArg (Option.map SymbolId.slot) hab.2
    rw [Option.map_map, Option.map_map] at hscope
    exact SymbolKey.mk.injEq .. ▸ ⟨hab.1, h.scope_eq ha hb hscope⟩
  · obtain ⟨old, hold, rfl⟩ := mem_map.mp hkey
    obtain ⟨scope, hold', rfl⟩ := Option.map_eq_some_iff.mp hscope
    obtain ⟨rfl, name, hname⟩ := h.outer old hold scope hold'
    exact ⟨rfl, name, by simp [SymbolId.renumber, hname, SymbolKey.renumber]⟩
  · rw [hslots, h.globals]
  · simp only [localSlots, parents, filterMap_map, Function.comp_def, hparent, hslots]
    exact h.locals

def Store.renumber (f : StoreId → StoreId) (s : Store) : Store :=
  { s with
    id := f s.id
    symbols := s.symbols.map (Symbol.renumber f)
    inStep := by
      have hstep := s.inStep.renumber f
      rw [map_map] at hstep ⊢
      exact hstep }

/-- The table with its stores under other numbers. -/
def Table.renumber (f : StoreId → StoreId) (t : Table) : Table where
  stores := t.stores.map (Store.renumber f)
  supply := f t.supply

def Node.renumber (f : StoreId → StoreId) (n : Node) : Node :=
  { n with
    scope := n.scope.map (SymbolId.renumber f)
    symbol := n.symbol.map (SymbolId.renumber f) }

def Viewpoint.renumber (f : StoreId → StoreId) (v : Viewpoint) : Viewpoint :=
  { v with scope := v.scope.map (SymbolId.renumber f) }

section Symbols

variable {f : StoreId → StoreId}

theorem SymbolId.renumber_injective (hf : Function.Injective f) :
    Function.Injective (SymbolId.renumber f) := by
  rintro ⟨a, i⟩ ⟨b, j⟩ h
  simp only [renumber, mk.injEq] at h
  rw [hf h.1, h.2]

@[simp] theorem Symbol.isGlobal_renumber (s : Symbol) : (s.renumber f).isGlobal = s.isGlobal := by
  simp [isGlobal, renumber]

@[simp] theorem Symbol.isMacro_renumber (s : Symbol) : (s.renumber f).isMacro = s.isMacro := by
  obtain ⟨_, _, _, _, kind⟩ := s
  cases kind <;> rfl

@[simp] theorem Symbol.isEquation_renumber (s : Symbol) :
    (s.renumber f).isEquation = s.isEquation := by
  obtain ⟨_, _, _, _, kind⟩ := s
  cases kind <;> rfl

@[simp] theorem Symbol.isLabel_renumber (s : Symbol) : (s.renumber f).isLabel = s.isLabel := by
  obtain ⟨_, _, _, _, kind⟩ := s
  cases kind <;> rfl

theorem SymbolKind.withAddress_renumber (kind : SymbolKind) (address : Option Address) :
    (kind.withAddress address).renumber f = (kind.renumber f).withAddress address := by
  cases kind <;> rfl

theorem SymbolKind.withoutExpr_renumber (kind : SymbolKind) :
    kind.withoutExpr.renumber f = (kind.renumber f).withoutExpr := by
  cases kind <;> rfl

end Symbols

/-! ### Stores -/

namespace Store

variable {f : StoreId → StoreId} (s : Store)

theorem handles_renumber : (s.renumber f).handles = s.handles.map (SymbolId.renumber f) := by
  simp [handles, renumber, handle, SymbolId.renumber]

/-- A symbol with its handle, under another store number. -/
abbrev entry (f : StoreId → StoreId) : SymbolId × Symbol → SymbolId × Symbol :=
  Prod.map (SymbolId.renumber f) (Symbol.renumber f)

theorem listed_renumber (names : IndexMap String ℕ) :
    (s.renumber f).listed names = (s.listed names).map (entry f) := by
  simp [listed, renumber, map_filterMap, handle, SymbolId.renumber, Function.comp_def]

theorem globals_renumber : (s.renumber f).globals = s.globals.map (entry f) :=
  s.listed_renumber s.globalNames

variable (hf : Function.Injective f)

include hf

theorem symbol?_renumber (id : SymbolId) :
    (s.renumber f).symbol? (id.renumber f) = (s.symbol? id).map (Symbol.renumber f) := by
  have hstore : (id.renumber f).store = (s.renumber f).id ↔ id.store = s.id := hf.eq_iff
  unfold symbol?
  simp only [hstore]
  split
  · exact getElem?_map
  · rfl

theorem names_renumber (scope : Option SymbolId) :
    (s.renumber f).names (scope.map (SymbolId.renumber f)) = s.names scope := by
  cases scope with
  | none => rfl
  | some scope =>
    have hslot : (s.renumber f).scopeSlot? (scope.renumber f) = s.scopeSlot? scope := by
      unfold scopeSlot?
      rw [s.symbol?_renumber hf, Option.bind_map]
      simp
      rfl
    rw [Option.map_some, names, hslot]
    rfl

theorem find?_renumber (name : String) (scope : Option SymbolId) :
    (s.renumber f).find? name (scope.map (SymbolId.renumber f)) =
      (s.find? name scope).map (SymbolId.renumber f) := by
  unfold find?
  rw [s.names_renumber hf, Option.map_map]
  rfl

theorem lookup_renumber (name : String) (scope : Option SymbolId) :
    (s.renumber f).lookup name (scope.map (SymbolId.renumber f)) =
      (s.lookup name scope).map (SymbolId.renumber f) := by
  have hglobal : (s.renumber f).find? name none = (s.find? name none).map (SymbolId.renumber f) :=
    s.find?_renumber hf name none
  unfold lookup
  rw [s.find?_renumber hf, hglobal]
  cases s.find? name scope <;> rfl

theorem locals_renumber (scope : SymbolId) :
    (s.renumber f).locals (scope.renumber f) = (s.locals scope).map (entry f) := by
  have hnames := s.names_renumber hf (some scope)
  rw [locals, locals, ← hnames]
  exact s.listed_renumber _

theorem ordered_renumber : (s.renumber f).ordered = s.ordered.map (entry f) := by
  unfold ordered
  rw [globals_renumber, flatMap_map, map_flatMap]
  refine flatMap_congr fun x _ => ?_
  simp only [Prod.map, locals_renumber s hf, map_cons]

theorem admits_renumber (x : Symbol) : (s.renumber f).admits (x.renumber f) = s.admits x := by
  have hscope : (x.renumber f).scope = x.scope.map (SymbolId.renumber f) := rfl
  unfold admits
  rw [hscope, Symbol.isMacro_renumber]
  cases x.scope with
  | none => rfl
  | some scope =>
    simp only [Option.map_some, s.symbol?_renumber hf]
    cases s.symbol? scope with
    | none => rfl
    | some y => rw [Option.map_some, Option.any_some, Option.any_some, y.isGlobal_renumber]

theorem define_renumber (x : Symbol) :
    (s.renumber f).define (x.renumber f) =
      (s.define x).map (Prod.map (SymbolId.renumber f) (Store.renumber f)) := by
  have hkey : (x.renumber f).key ∈ (s.renumber f).keys ↔ x.key ∈ s.keys := by
    rw [← isSome_find?, ← isSome_find?]
    exact (congrArg Option.isSome (s.find?_renumber hf x.name x.scope)).trans Option.isSome_map ▸ Iff.rfl
  have hadmits := s.admits_renumber hf x
  cases h : s.admits x with
  | false =>
    rw [define_misplaced h, define_misplaced (hadmits.trans h)]
    rfl
  | true =>
    by_cases hin : x.key ∈ s.keys
    · rw [define_taken h hin, define_taken (hadmits.trans h) (hkey.mpr hin)]
      rfl
    · obtain ⟨u, hu, hbecomes⟩ := define_free h hin
      obtain ⟨u', hu', hbecomes'⟩ := define_free (hadmits.trans h) (mt hkey.mp hin)
      have hsymbols : (u.renumber f).symbols = (s.symbols ++ [x]).map (Symbol.renumber f) :=
        congrArg (map (Symbol.renumber f)) hbecomes.symbols
      have hsame : u' = u.renumber f :=
        eq_of_symbols (hbecomes'.id.trans (congrArg f hbecomes.id).symm)
          (hbecomes'.unit.trans hbecomes.unit.symm)
          (hbecomes'.attached.trans hbecomes.attached.symm)
          (hbecomes'.symbols.trans (hsymbols.trans map_append).symm)
      rw [hu, hu', hsame]
      simp [Except.map, renumber, handle, SymbolId.renumber]

variable {g : SymbolKind → SymbolKind}

theorem modify_renumber (id : SymbolId)
    (hg : ∀ kind : SymbolKind, (g kind).renumber f = g (kind.renumber f)) :
    (s.modify id g).renumber f = (s.renumber f).modify (id.renumber f) g := by
  have hid : ∀ slot, (s.renumber f).handle slot = id.renumber f ↔ s.handle slot = id := fun slot =>
    (SymbolId.renumber_injective hf).eq_iff (a := s.handle slot)
  refine eq_of_symbols rfl rfl rfl (ext_getElem? fun slot => ?_)
  simp only [modify, mapKinds, renumber, getElem?_map, getElem?_mapIdx, Option.map_map]
  refine congrArg (Option.map · _) (funext fun x => ?_)
  simp only [renumber] at hid
  by_cases h : s.handle slot = id
  · simp [Symbol.renumber, Symbol.mapKind, hid, h, hg]
  · simp [Symbol.renumber, Symbol.mapKind, hid, h]

end Store

/-! ### Tables -/

namespace Table

variable {f : StoreId → StoreId} (t : Table)

theorem store?_renumber (unit : UnitId) :
    (t.renumber f).store? unit = (t.store? unit).map (Store.renumber f) :=
  find?_map

theorem handles_renumber : (t.renumber f).handles = t.handles.map (SymbolId.renumber f) := by
  unfold handles renumber
  rw [flatMap_map, map_flatMap]
  exact flatMap_congr fun s _ => s.handles_renumber

theorem put_renumber (s : Store) :
    (t.put s).renumber f = (t.renumber f).put (s.renumber f) := by
  have hany : (t.renumber f).stores.any (·.unit == (s.renumber f).unit) =
      t.stores.any (·.unit == s.unit) := any_map
  unfold put
  rw [hany]
  split
  · simp only [renumber, map_map, mk.injEq, and_true]
    refine map_congr_left fun r _ => ?_
    simp only [Function.comp_apply]
    split <;> rename_i h <;> simp [Store.renumber] at h ⊢ <;> simp [h]
  · simp [renumber]

theorem register_renumber (hnext : ∀ n, f (n + 1) = f n + 1) (unit : UnitId) :
    (t.renumber f).register unit = Prod.map (Store.renumber f) (Table.renumber f)
      (t.register unit) := by
  unfold register
  rw [t.store?_renumber]
  cases t.store? unit with
  | some s => rfl
  | none =>
    refine Prod.ext rfl ?_
    show Table.put _ _ = Table.renumber f (Table.put _ _)
    rw [put_renumber]
    congr 1
    simp only [renumber, hnext]

variable (hf : Function.Injective f)

include hf

theorem owner?_renumber (id : SymbolId) :
    (t.renumber f).owner? (id.renumber f) = (t.owner? id).map (Store.renumber f) := by
  have hid : ∀ s : Store, ((s.renumber f).id == (id.renumber f).store) =
      (s.id == id.store) := fun s => by
    rw [Bool.eq_iff_iff, beq_iff_eq, beq_iff_eq]
    exact hf.eq_iff
  unfold owner? renumber
  rw [find?_map]
  simp only [Function.comp_def, hid]

theorem symbol?_renumber (id : SymbolId) :
    (t.renumber f).symbol? (id.renumber f) = (t.symbol? id).map (Symbol.renumber f) := by
  unfold symbol?
  rw [t.owner?_renumber hf]
  cases t.owner? id with
  | none => rfl
  | some s => exact s.symbol?_renumber hf id

theorem global?_renumber (name : String) :
    (t.renumber f).global? name = (t.global? name).map (SymbolId.renumber f) := by
  unfold global? renumber
  induction t.stores with
  | nil => rfl
  | cons s stores ih =>
    have hfind : (s.renumber f).find? name none = (s.find? name none).map (SymbolId.renumber f) :=
      s.find?_renumber hf name none
    rw [map_cons, findSome?_cons, findSome?_cons, hfind]
    cases s.find? name none with
    | none => exact ih
    | some id => rfl

theorem resolve_renumber (unit : UnitId) (name : String) (scope : Option SymbolId) :
    (t.renumber f).resolve unit name (scope.map (SymbolId.renumber f)) =
      (t.resolve unit name scope).map (SymbolId.renumber f) := by
  unfold resolve
  rw [t.store?_renumber, t.global?_renumber hf]
  cases t.store? unit with
  | none => rfl
  | some s =>
    simp only [Option.map_some, Option.bind_some, s.lookup_renumber hf]
    cases s.lookup name scope <;> rfl

theorem getAll_renumber (name : String) :
    (t.renumber f).getAll name = (t.getAll name).map (Symbol.renumber f) := by
  have hordered : (t.renumber f).stores.flatMap Store.ordered =
      (t.stores.flatMap Store.ordered).map (Store.entry f) := by
    unfold renumber
    rw [flatMap_map, map_flatMap]
    exact flatMap_congr fun s _ => s.ordered_renumber hf
  unfold getAll
  rw [hordered, map_map, filter_map, filter_map, map_map]
  rfl

/-- **Definitions under other numbers.** -/
theorem define_renumber (hnext : ∀ n, f (n + 1) = f n + 1) (x : Symbol) :
    (t.renumber f).define (x.renumber f) =
      Prod.map (Except.map (SymbolId.renumber f)) (Table.renumber f) (t.define x) := by
  have hglobal : (t.renumber f).global? (x.renumber f).name =
      (t.global? x.name).map (SymbolId.renumber f) := t.global?_renumber hf x.name
  have hregister : (t.renumber f).register (x.renumber f).unit = _ :=
    t.register_renumber hnext x.unit
  unfold define
  rw [hglobal, hregister, Symbol.isGlobal_renumber, Option.isSome_map]
  split
  · rfl
  · rcases t.register x.unit with ⟨s, u⟩
    simp only [Prod.map, s.define_renumber hf]
    cases s.define x with
    | error e => rfl
    | ok r =>
      simp only [Except.map, Prod.map, put_renumber]

theorem modify_renumber (id : SymbolId)
    (hg : ∀ kind : SymbolKind, (g kind).renumber f = g (kind.renumber f)) :
    (t.modify id g).renumber f = (t.renumber f).modify (id.renumber f) g := by
  simp only [modify, mapKinds, renumber, map_map, mk.injEq, and_true]
  exact map_congr_left fun s _ => s.modify_renumber hf id hg

end Table

/-! ### Values -/

theorem without_map {α β : Type} [DecidableEq α] [DecidableEq β] {g : α → β}
    (hg : Function.Injective g) (xs : List α) (a : α) :
    without (xs.map g) (g a) = (without xs a).map g := by
  unfold without
  rw [filter_map]
  congr 1
  exact filter_congr fun x _ => by simp [hg.eq_iff]

namespace Table

variable {f : StoreId → StoreId} (t : Table) (hf : Function.Injective f)

include hf

theorem relocation_renumber :
    t.Relocation (t.renumber f) (fun _ => True) (SymbolId.renumber f) := by
  refine ⟨fun i j _ _ h => SymbolId.renumber_injective hf h, fun i _ => ?_⟩
  rw [t.symbol?_renumber hf]
  cases t.symbol? i with
  | none => exact .missing
  | some x =>
    have hkind : (x.renumber f).kind = x.kind.relocate (SymbolId.renumber f) := by
      unfold Symbol.renumber
      cases x.kind <;> rfl
    exact .of_relocate hkind (fun _ context _ name => t.resolve_renumber hf x.unit name context)
      fun _ _ _ _ => trivial

theorem readName_renumber {α : Type} (r : Interpretation α) (v : Viewpoint) :
    (t.renumber f).readName r (v.renumber f) = t.readName r v := by
  funext name
  have hresolve : (t.renumber f).resolve (v.renumber f).unit name (v.renumber f).scope =
      (t.resolve v.unit name v.scope).map (SymbolId.renumber f) :=
    t.resolve_renumber hf v.unit name v.scope
  unfold readName
  rw [hresolve, handles_renumber]
  cases t.resolve v.unit name v.scope with
  | none => rfl
  | some id =>
    exact (t.relocation_renumber hf).read_eq r
      (fun _ _ => mem_map_of_injective (SymbolId.renumber_injective hf)) trivial

theorem environment_renumber (v : Viewpoint) :
    (t.renumber f).environment (v.renumber f) = t.environment v := by
  unfold environment
  rw [readName_renumber t hf]
  rfl

/-- **Values do not depend on the numbers of stores.** -/
theorem eval_renumber (v : Viewpoint) (e : Expr) :
    (t.renumber f).eval (v.renumber f) e = t.eval v e := by
  unfold eval
  rw [environment_renumber t hf]

theorem weigh_renumber (v : Viewpoint) (e : Expr) :
    (t.renumber f).weigh (v.renumber f) e = t.weigh v e := by
  unfold weigh
  rw [readName_renumber t hf]

theorem fold_renumber (v : Viewpoint) (e : Expr) :
    (t.renumber f).fold (v.renumber f) e = t.fold v e := by
  unfold fold
  rw [environment_renumber t hf, readName_renumber t hf]

/-! ### Circular equations -/

theorem references?_renumber (id : SymbolId) :
    (t.renumber f).references? (id.renumber f) =
      (t.references? id).map (List.map (SymbolId.renumber f)) := by
  unfold references?
  rw [t.symbol?_renumber hf]
  cases t.symbol? id with
  | none => rfl
  | some x =>
    obtain ⟨name, unit, location, scope, kind⟩ := x
    cases kind with
    | label | macroDef => rfl
    | equation e context =>
      cases e with
      | none => rfl
      | some e =>
        simp only [Option.map_some, Symbol.renumber, SymbolKind.renumber, t.resolve_renumber hf]
        rw [← map_filterMap, filter_map]
        congr 2
        refine filter_congr fun next _ => ?_
        rw [Function.comp_apply, t.symbol?_renumber hf]
        cases t.symbol? next with
        | none => rfl
        | some y => exact y.isEquation_renumber

end Table

def CycleSearch.renumber (f : StoreId → StoreId) (s : CycleSearch) : CycleSearch where
  table := s.table.renumber f
  poisoned := s.poisoned.map (SymbolId.renumber f)
  done := s.done.map (SymbolId.renumber f)
  markers := s.markers

namespace CycleSearch

variable {f : StoreId → StoreId} (s : CycleSearch) (hf : Function.Injective f)

include hf

theorem poisonMember_renumber (names : List String) (member : SymbolId × Nat) :
    (s.renumber f).poisonMember names (member.1.renumber f, member.2) =
      (s.poisonMember names member).renumber f := by
  obtain ⟨id, i⟩ := member
  have hmem : id.renumber f ∈ (s.renumber f).poisoned ↔ id ∈ s.poisoned :=
    mem_map_of_injective (SymbolId.renumber_injective hf)
  have hsymbol : (s.renumber f).table.symbol? (id.renumber f) =
      (s.table.symbol? id).map (Symbol.renumber f) := s.table.symbol?_renumber hf id
  unfold poisonMember
  simp only [hmem, hsymbol]
  split
  · rfl
  · cases s.table.symbol? id with
    | none => rfl
    | some x =>
      simp only [Option.map_some, renumber, map_cons, Symbol.renumber,
        s.table.modify_renumber hf id SymbolKind.withoutExpr_renumber]

theorem poison_renumber (cycle : List SymbolId) :
    (s.renumber f).poison (cycle.map (SymbolId.renumber f)) = (s.poison cycle).renumber f := by
  have hnames : ((cycle.map (SymbolId.renumber f)).filterMap fun id =>
      ((s.renumber f).table.symbol? id).map Symbol.name) =
      cycle.filterMap fun id => (s.table.symbol? id).map Symbol.name := by
    rw [filterMap_map]
    refine filterMap_congr fun id _ => ?_
    rw [Function.comp_apply, show (s.renumber f).table.symbol? (id.renumber f) = _ from
      s.table.symbol?_renumber hf id, Option.map_map]
    rfl
  unfold poison
  simp only [hnames, zipIdx_map, foldl_map]
  exact foldl_hom (CycleSearch.renumber f) fun s member => s.poisonMember_renumber hf _ member

/-- A visit goes the same way under other numbers. By induction on the number of equations
that are not on the path. -/
theorem visit_renumber (remaining path : List SymbolId) (id : SymbolId) :
    (s.renumber f).visit (remaining.map (SymbolId.renumber f)) (path.map (SymbolId.renumber f))
      (id.renumber f) = (s.visit remaining path id).renumber f := by
  induction hn : remaining.length using Nat.strongRecOn generalizing remaining path id s with
  | _ n ih =>
    have hinj := SymbolId.renumber_injective hf
    have hmem : ∀ xs : List SymbolId, id.renumber f ∈ xs.map (SymbolId.renumber f) ↔ id ∈ xs :=
      fun xs => mem_map_of_injective hinj
    have hpoisoned : ∀ s : CycleSearch,
        id.renumber f ∈ (s.renumber f).poisoned ↔ id ∈ s.poisoned := fun s => hmem s.poisoned
    have hdone : id.renumber f ∈ (s.renumber f).done ↔ id ∈ s.done := hmem s.done
    have hreferences : (s.renumber f).table.references? (id.renumber f) = _ :=
      s.table.references?_renumber hf id
    unfold visit
    simp only [hpoisoned, hdone, hmem, hreferences]
    split
    · rfl
    · split
      · rw [← poison_renumber s hf, dropWhile_map]
        congr 3
        funext x
        simp [hinj.eq_iff]
      · cases s.table.references? id with
        | none => rfl
        | some references =>
          simp only [Option.map_some]
          by_cases h : id ∈ remaining
          · rw [dif_pos h, dif_pos h, foldl_map, without_map hinj,
              show path.map (SymbolId.renumber f) ++ [id.renumber f] =
                (path ++ [id]).map (SymbolId.renumber f) by simp]
            have hstep : ∀ (s : CycleSearch) (next : SymbolId),
                (if id.renumber f ∈ (s.renumber f).poisoned then s.renumber f
                  else (s.renumber f).visit ((without remaining id).map (SymbolId.renumber f))
                    ((path ++ [id]).map (SymbolId.renumber f)) (next.renumber f)) =
                CycleSearch.renumber f (if id ∈ s.poisoned then s
                  else s.visit (without remaining id) (path ++ [id]) next) := by
              intro s next
              simp only [hpoisoned]
              split
              · rfl
              · exact ih _ (hn ▸ length_without_lt h) s _ _ next rfl
            rw [foldl_hom (CycleSearch.renumber f) hstep]
            rfl
          · rw [dif_neg h, dif_neg h]

/-- **The same equations are found to be circular**, and the same markers tell so. -/
theorem checkUnit_renumber (t : Table) (poisoned : List SymbolId) (unit : UnitId) :
    checkUnit (t.renumber f) (poisoned.map (SymbolId.renumber f)) unit =
      (checkUnit t poisoned unit).renumber f := by
  have hroots : ∀ s : Store, ((s.renumber f).ordered.filter fun entry =>
      entry.2.isEquation).map Prod.fst = ((s.ordered.filter fun entry =>
        entry.2.isEquation).map Prod.fst).map (SymbolId.renumber f) := by
    intro s
    rw [s.ordered_renumber hf, filter_map, map_map, map_map]
    congr 1
    exact filter_congr fun x _ => x.2.isEquation_renumber
  unfold checkUnit
  rw [t.store?_renumber, t.handles_renumber]
  cases t.store? unit with
  | none => rfl
  | some s =>
    simp only [Option.map_some, hroots, foldl_map]
    have hstart : ({ table := t.renumber f, poisoned := poisoned.map (SymbolId.renumber f) } :
        CycleSearch) = CycleSearch.renumber f { table := t, poisoned } := rfl
    rw [hstart]
    exact foldl_hom (CycleSearch.renumber f) fun s root =>
      s.visit_renumber hf t.handles [] root.1

end CycleSearch

end WordAsm
