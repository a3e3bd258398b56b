/-
# A store and the list of its symbols

The maps of a store hold nothing that its symbols do not say. A name in a scope finds the
first symbol with that name and that scope (`Store.find?_eq`), which is the only one
(`Store.find?_eq_some`); the globals and the locals are the symbols without a scope
and with it, in definition order (`Store.globals_eq`, `Store.locals_eq`). To
define a symbol is to append it (`Store.define_cases`), and to rename it is to
change its name in its place (`Store.rename_cases`), with all maps rewritten on the
way. So two stores with the same symbols are the same (`Store.eq_of_symbols`).
-/
import Mathlib.Data.List.Basic
import Mathlib.Data.List.Nodup
import WordAsm.Symbols.Store

namespace WordAsm

open List

@[simp] theorem Symbol.mapKind_id : Symbol.mapKind (fun kind => kind) = id := rfl

namespace Store

variable {s s' : Store} {id outer : SymbolId} {symbol x : Symbol} {name : String}
  {scope : Option SymbolId} {slot : ℕ}

abbrev keys (s : Store) : List SymbolKey := s.symbols.map Symbol.key

/-- The symbols with their handles, in definition order. -/
def entries (s : Store) : List (SymbolId × Symbol) :=
  s.symbols.zipIdx.map fun (symbol, slot) => (s.handle slot, symbol)

theorem eq_of_symbols (hid : s.id = s'.id) (hunit : s.unit = s'.unit)
    (hattached : s.attached = s'.attached) (hsymbols : s.symbols = s'.symbols) : s = s' := by
  have hglobals : s.globalNames = s'.globalNames := by
    rw [s.inStep.globals, s'.inStep.globals, hsymbols]
  have hlocals : s.localNames = s'.localNames := by
    rw [s.inStep.locals, s'.inStep.locals, hsymbols]
  cases s
  cases s'
  simp_all

theorem symbol?_eq_some : s.symbol? id = some x ↔ id.store = s.id ∧ s.symbols[id.slot]? = some x := by
  unfold symbol?
  split <;> simp_all

theorem symbol?_handle (s : Store) (slot : ℕ) :
    s.symbol? (s.handle slot) = s.symbols[slot]? := by
  simp [symbol?, handle]

theorem mem_of_symbol? (h : s.symbol? id = some x) : x ∈ s.symbols :=
  mem_of_getElem? (symbol?_eq_some.mp h).2

theorem store_of_symbol? (h : s.symbol? id = some x) : id.store = s.id :=
  (symbol?_eq_some.mp h).1

theorem mem_handles : id ∈ s.handles ↔ id.store = s.id ∧ id.slot < s.symbols.length := by
  unfold handles handle
  rw [mem_map]
  constructor
  · rintro ⟨slot, hslot, rfl⟩
    exact ⟨rfl, mem_range.mp hslot⟩
  · rintro ⟨hs, hslot⟩
    exact ⟨id.slot, mem_range.mpr hslot, by rw [← hs]⟩

theorem mem_entries : (id, x) ∈ s.entries ↔ s.symbol? id = some x := by
  simp only [entries, mem_map, Prod.mk.injEq, Prod.exists, mk_mem_zipIdx_iff_getElem?,
    symbol?_eq_some]
  constructor
  · rintro ⟨y, slot, hy, rfl, rfl⟩
    exact ⟨rfl, hy⟩
  · rintro ⟨hstore, hslot⟩
    exact ⟨x, id.slot, hslot, by rw [handle, ← hstore], rfl⟩

theorem mem_keys : ⟨name, scope⟩ ∈ s.keys ↔ ∃ x ∈ s.symbols, x.name = name ∧ x.scope = scope := by
  simp [keys, Symbol.key]

theorem symbol?_mapKinds (f : SymbolId → SymbolKind → SymbolKind) (s : Store) (id : SymbolId) :
    (s.mapKinds f).symbol? id = (s.symbol? id).map (Symbol.mapKind (f id)) := by
  have hid : (s.mapKinds f).id = s.id := rfl
  unfold symbol?
  rw [hid]
  split
  · rename_i hstore
    simp only [mapKinds, getElem?_mapIdx, handle, ← hstore]
  · rfl

theorem keys_mapKinds (f : SymbolId → SymbolKind → SymbolKind) (s : Store) :
    (s.mapKinds f).keys = s.keys := by
  refine ext_getElem? fun slot => ?_
  simp only [keys, mapKinds, getElem?_map, getElem?_mapIdx, Option.map_map]
  rfl

/-! ### What names find -/

theorem outer_of_mem (hx : x ∈ s.symbols) (hscope : x.scope = some outer) :
    ∃ g, s.symbol? outer = some g ∧ g.isGlobal = true := by
  obtain ⟨hstore, name, hname⟩ := s.inStep.outer x.key (mem_map_of_mem hx) outer hscope
  rw [getElem?_map, Option.map_eq_some_iff] at hname
  obtain ⟨g, hg, hkey⟩ := hname
  have hnone : g.scope = none := congrArg SymbolKey.scope hkey
  exact ⟨g, symbol?_eq_some.mpr ⟨hstore, hg⟩, by rw [Symbol.isGlobal, hnone]; rfl⟩

theorem get?_slotsUnder (s : Store) (parent : Option ℕ) :
    (slotsUnder s.keys parent).get? name = some slot ↔
      ∃ key, s.keys[slot]? = some key ∧ key.name = name ∧ key.parent? = parent := by
  rw [IndexMap.get?_eq_some (s.inStep.nodup_names parent), mem_slotsUnder]

theorem scopeSlot?_of_global (hx : s.symbol? id = some x) (hglobal : x.isGlobal = true) :
    s.scopeSlot? id = some id.slot := by
  have hscope : x.scope = none := Option.isNone_iff_eq_none.mp hglobal
  have hname : s.globalNames.get? x.name = some id.slot := by
    rw [s.inStep.globals]
    refine (s.get?_slotsUnder none).mpr ⟨x.key, (key_of_symbol? hx).2, rfl, ?_⟩
    simp [SymbolKey.parent?, Symbol.key, hscope]
  rw [scopeSlot?, hx, Option.bind_some, if_pos ⟨hname, hglobal⟩]

theorem global_of_scopeSlot? (h : s.scopeSlot? id = some slot) :
    ∃ g, s.symbol? id = some g ∧ g.isGlobal = true := by
  obtain ⟨g, hg, h⟩ := Option.bind_eq_some_iff.mp h
  split at h
  · exact ⟨g, hg, ‹_ ∧ _›.2⟩
  · cases h

theorem names_of_global (hx : s.symbol? id = some x) (hglobal : x.isGlobal = true) :
    s.names (some id) = slotsUnder s.keys (some id.slot) := by
  rw [names, scopeSlot?_of_global hx hglobal, Option.bind_some, s.inStep.locals]
  exact getD_localSlots

theorem names_eq (s : Store) (scope : Option SymbolId) :
    s.names scope = [] ∨ s.names scope = slotsUnder s.keys (scope.map SymbolId.slot) := by
  cases scope with
  | none => exact .inr s.inStep.globals
  | some outer =>
    cases hscope : s.scopeSlot? outer with
    | none => exact .inl (by rw [names, hscope]; rfl)
    | some slot =>
      obtain ⟨g, hg, hglobal⟩ := global_of_scopeSlot? hscope
      exact .inr (names_of_global hg hglobal)

theorem mem_names_iff_key : (name, slot) ∈ s.names scope ↔ s.keys[slot]? = some ⟨name, scope⟩ := by
  constructor
  · intro hslot
    cases scope with
    | none =>
      rw [names, s.inStep.globals] at hslot
      obtain ⟨⟨_, scope⟩, hkey, rfl, hparent⟩ := mem_slotsUnder.mp hslot
      obtain rfl : scope = none := Option.map_eq_none_iff.mp hparent
      exact hkey
    | some outer =>
      cases hscope : s.scopeSlot? outer with
      | none =>
        rw [names, hscope] at hslot
        cases hslot
      | some p =>
        obtain ⟨g, hg, hglobal⟩ := global_of_scopeSlot? hscope
        rw [names_of_global hg hglobal] at hslot
        obtain ⟨⟨_, _⟩, hkey, rfl, hparent⟩ := mem_slotsUnder.mp hslot
        obtain ⟨⟨store, _⟩, rfl, rfl⟩ := Option.map_eq_some_iff.mp hparent
        obtain ⟨rfl, -⟩ := s.inStep.outer _ (mem_of_getElem? hkey) _ rfl
        rw [hkey, ← store_of_symbol? hg]
  · intro hkey
    have hslot := mem_slotsUnder.mpr ⟨_, hkey, rfl, rfl⟩
    cases scope with
    | none =>
      rw [names, s.inStep.globals]
      exact hslot
    | some outer =>
      obtain ⟨x, hx, hname⟩ := mem_map.mp (mem_of_getElem? hkey)
      obtain ⟨g, hg, hglobal⟩ := outer_of_mem hx (congrArg SymbolKey.scope hname)
      rw [names_of_global hg hglobal]
      exact hslot

/-- **The maps hold the names of the symbols**, and nothing else. -/
theorem mem_names : (name, slot) ∈ s.names scope ↔
    ∃ x, s.symbols[slot]? = some x ∧ x.name = name ∧ x.scope = scope := by
  rw [mem_names_iff_key, keys, getElem?_map]
  simp [Symbol.key]

/-- **A name in a scope finds** the slot that has both, and nothing else. -/
theorem find?_eq_some_iff_key : s.find? name scope = some id ↔
    id.store = s.id ∧ s.keys[id.slot]? = some ⟨name, scope⟩ := by
  have hnodup : ((s.names scope).map Prod.fst).Nodup := by
    rcases s.names_eq scope with h | h <;> rw [h]
    · exact nodup_nil
    · exact s.inStep.nodup_names _
  have hhandle : ∀ slot, s.handle slot = id ↔ id.store = s.id ∧ slot = id.slot := by
    obtain ⟨store, i⟩ := id
    simp [handle, eq_comm]
  simp only [find?, Option.map_eq_some_iff, hhandle, IndexMap.get?_eq_some hnodup,
    mem_names_iff_key]
  exact ⟨fun ⟨slot, hkey, hstore, hslot⟩ => ⟨hstore, hslot ▸ hkey⟩,
    fun ⟨hstore, hkey⟩ => ⟨_, hkey, hstore, rfl⟩⟩

/-- **A symbol is found by its name in its scope**, and by nothing else. -/
theorem find?_eq_some : s.find? name scope = some id ↔
    ∃ x, s.symbol? id = some x ∧ x.name = name ∧ x.scope = scope := by
  rw [find?_eq_some_iff_key, keys, getElem?_map]
  simp [symbol?_eq_some, Symbol.key, and_assoc]

theorem find?_congr (s s' : Store) (hid : s'.id = s.id) (hkeys : s'.keys = s.keys)
    (name : String) (scope : Option SymbolId) : s'.find? name scope = s.find? name scope :=
  Option.ext fun i => by rw [find?_eq_some_iff_key, find?_eq_some_iff_key, hid, hkeys]

theorem isSome_find? : (s.find? name scope).isSome ↔ ⟨name, scope⟩ ∈ s.keys := by
  simp only [Option.isSome_iff_exists, find?_eq_some_iff_key, mem_iff_getElem?]
  exact ⟨fun ⟨i, _, hi⟩ => ⟨i.slot, hi⟩, fun ⟨slot, hslot⟩ => ⟨⟨s.id, slot⟩, rfl, hslot⟩⟩

/-! ### The walk of a store -/

theorem listed_slotsUnder (s : Store) (parent : Option ℕ) :
    s.listed (slotsUnder s.keys parent) = s.entries.filter (·.2.key.parent? = parent) := by
  have hkeys : s.keys.zipIdx = s.symbols.zipIdx.map fun e => (e.1.key, e.2) := by
    rw [keys, zipIdx_map]
    rfl
  have hfound : ∀ e ∈ s.symbols.zipIdx.filter (·.1.key.parent? = parent),
      (s.symbols[e.2]?.map fun x => (s.handle e.2, x)) = some (s.handle e.2, e.1) := by
    rintro ⟨x, slot⟩ he
    rw [mk_mem_zipIdx_iff_getElem?.mp (mem_filter.mp he).1]
    rfl
  unfold listed slotsUnder IndexMap.values entries
  rw [hkeys, filter_map, filter_map, map_map, map_map, filterMap_map]
  exact (filterMap_congr hfound).trans (congrFun filterMap_eq_map _)

theorem globals_eq (s : Store) : s.globals = s.entries.filter (·.2.isGlobal) := by
  have hglobal : ∀ x : Symbol, decide (x.key.parent? = none) = x.isGlobal := by
    simp [SymbolKey.parent?, Symbol.key, Symbol.isGlobal, ← Option.isNone_iff_eq_none]
  rw [globals, names, s.inStep.globals]
  refine (s.listed_slotsUnder none).trans ?_
  simp only [hglobal]

theorem locals_eq (s : Store) (scope : SymbolId) :
    s.locals scope = s.entries.filter (·.2.scope = some scope) := by
  rw [locals]
  by_cases h : ∃ g, s.symbol? scope = some g ∧ g.isGlobal = true
  · obtain ⟨g, hg, hglobal⟩ := h
    rw [names_of_global hg hglobal, listed_slotsUnder]
    refine filter_congr ?_
    rintro ⟨i, x⟩ hx
    have hmem := mem_of_symbol? (mem_entries.mp hx)
    rw [decide_eq_decide, SymbolKey.parent?, Option.map_eq_some_iff]
    constructor
    · rintro ⟨⟨store, _⟩, hscope, rfl⟩
      obtain ⟨rfl, -⟩ := s.inStep.outer _ (mem_map_of_mem hmem) _ hscope
      rw [← store_of_symbol? hg] at hscope
      exact hscope
    · exact fun hscope => ⟨scope, hscope, rfl⟩
  · -- what is no global has neither names nor locals
    have hnone : s.scopeSlot? scope = none := by
      rw [Option.eq_none_iff_forall_ne_some]
      exact fun p hp => h (global_of_scopeSlot? hp)
    rw [names, hnone]
    refine (filter_eq_nil_iff.mpr ?_).symm
    rintro ⟨i, x⟩ hx hscope
    exact h (outer_of_mem (mem_of_symbol? (mem_entries.mp hx)) (of_decide_eq_true hscope))

theorem mem_globals : (id, x) ∈ s.globals ↔ s.symbol? id = some x ∧ x.isGlobal = true := by
  rw [globals_eq, mem_filter, mem_entries]

theorem mem_locals : (id, x) ∈ s.locals outer ↔ s.symbol? id = some x ∧ x.scope = some outer := by
  rw [locals_eq, mem_filter, mem_entries, decide_eq_true_eq]

/-- **The walk of a store** meets its symbols, and each under its handle. -/
theorem mem_ordered : (id, x) ∈ s.ordered ↔ s.symbol? id = some x := by
  simp only [ordered, mem_flatMap, mem_cons, Prod.exists, Prod.mk.injEq, mem_globals, mem_locals]
  constructor
  · rintro ⟨i, y, ⟨hy, -⟩, ⟨rfl, rfl⟩ | ⟨hx, -⟩⟩
    · exact hy
    · exact hx
  · intro hx
    cases hscope : x.scope with
    | none => exact ⟨id, x, ⟨hx, by rw [Symbol.isGlobal, hscope]; rfl⟩, .inl ⟨rfl, rfl⟩⟩
    | some outer =>
      obtain ⟨g, hg⟩ := outer_of_mem (mem_of_symbol? hx) hscope
      exact ⟨outer, g, hg, .inr ⟨hx, rfl⟩⟩

/-! ### Definitions and renamings -/

/-- `s'` is `s` with other symbols. -/
structure Becomes (s : Store) (symbols : List Symbol) (s' : Store) : Prop where
  id : s'.id = s.id
  unit : s'.unit = s.unit
  attached : s'.attached = s.attached
  symbols : s'.symbols = symbols

/-- Whether a symbol may stand where it wants to: among the globals, or, if it
is no macro, under a global of this store. -/
def admits (s : Store) (symbol : Symbol) : Bool :=
  match symbol.scope with
  | none => true
  | some scope => !symbol.isMacro && (s.symbol? scope).any Symbol.isGlobal

theorem contains_globalNames : s.globalNames.contains name = true ↔ ⟨name, none⟩ ∈ s.keys := by
  rw [← isSome_find?, find?, Option.isSome_map]
  rfl

theorem contains_localNames (hx : s.symbol? outer = some x) (hglobal : x.isGlobal = true)
    (name : String) :
    ((s.localNames.get? outer.slot).getD []).contains name = true ↔
      ⟨name, some outer⟩ ∈ s.keys := by
  rw [← isSome_find?, find?, Option.isSome_map, names_of_global hx hglobal, s.inStep.locals,
    getD_localSlots]
  rfl

theorem define_global (s : Store) (hscope : symbol.scope = none) :
    ⟨symbol.name, none⟩ ∈ s.keys ∧ s.define symbol = .error (.duplicateSymbol symbol.name) ∨
    ⟨symbol.name, none⟩ ∉ s.keys ∧ ∃ s', s.define symbol = .ok (s.handle s.symbols.length, s') ∧
      s.Becomes (s.symbols ++ [symbol]) s' := by
  generalize hresult : s.define symbol = result
  unfold define at hresult
  split at hresult
  · split at hresult <;> cases hresult
    · rename_i hin
      exact .inl ⟨contains_globalNames.mp hin, rfl⟩
    · rename_i hfree
      exact .inr ⟨fun hin => hfree (contains_globalNames.mpr hin), _, rfl, rfl, rfl, rfl, rfl⟩
  · rename_i h
    cases hscope.symm.trans h

theorem define_local (s : Store) (hscope : symbol.scope = some outer) :
    (symbol.isMacro = true ∨ (s.symbol? outer).any Symbol.isGlobal = false) ∧
      s.define symbol = .error (.invalidScope symbol.name) ∨
    (symbol.isMacro = false ∧ (s.symbol? outer).any Symbol.isGlobal = true) ∧
      (⟨symbol.name, some outer⟩ ∈ s.keys ∧
        s.define symbol = .error (.duplicateSymbol symbol.name) ∨
      ⟨symbol.name, some outer⟩ ∉ s.keys ∧
        ∃ s', s.define symbol = .ok (s.handle s.symbols.length, s') ∧
          s.Becomes (s.symbols ++ [symbol]) s') := by
  generalize hresult : s.define symbol = result
  unfold define at hresult
  split at hresult
  · rename_i h
    cases hscope.symm.trans h
  · rename_i scope h
    obtain rfl : outer = scope := Option.mem_unique hscope h
    split at hresult
    · rename_i hkind
      cases hresult
      exact .inl ⟨.inl hkind, rfl⟩
    · rename_i hkind
      split at hresult
      · rename_i hnone
        cases hresult
        refine .inl ⟨.inr ?_, rfl⟩
        rw [Bool.eq_false_iff]
        intro hany
        obtain ⟨g, hg, hglobal⟩ := (Option.any_eq_true ..).mp hany
        rw [scopeSlot?_of_global hg hglobal] at hnone
        cases hnone
      · rename_i parent hparent
        obtain ⟨g, hg, hglobal⟩ := global_of_scopeSlot? hparent
        obtain ⟨rfl, -⟩ := outer_of_scopeSlot? hparent
        refine .inr ⟨⟨by simpa using hkind, (Option.any_eq_true ..).mpr ⟨g, hg, hglobal⟩⟩, ?_⟩
        split at hresult <;> cases hresult
        · rename_i hin
          exact .inl ⟨(contains_localNames hg hglobal _).mp hin, rfl⟩
        · rename_i hfree
          exact .inr ⟨fun hin => hfree ((contains_localNames hg hglobal _).mpr hin), _, rfl,
            rfl, rfl, rfl, rfl⟩

/-- **What a store makes of a symbol**: it refuses it because of its scope or its name, or
appends it. -/
theorem define_cases (s : Store) (symbol : Symbol) :
    s.admits symbol = false ∧ s.define symbol = .error (.invalidScope symbol.name) ∨
    s.admits symbol = true ∧ (symbol.key ∈ s.keys ∧
        s.define symbol = .error (.duplicateSymbol symbol.name) ∨
      symbol.key ∉ s.keys ∧ ∃ s', s.define symbol = .ok (s.handle s.symbols.length, s') ∧
        s.Becomes (s.symbols ++ [symbol]) s') := by
  unfold admits Symbol.key
  cases hscope : symbol.scope with
  | none => exact .inr ⟨rfl, s.define_global hscope⟩
  | some outer =>
    refine (s.define_local hscope).imp (And.imp_left ?_) (And.imp_left ?_)
    · rintro (h | h) <;> simp [h]
    · rintro ⟨hkind, hglobal⟩
      simp [hkind, hglobal]

theorem define_misplaced (h : s.admits symbol = false) :
    s.define symbol = .error (.invalidScope symbol.name) := by
  rcases s.define_cases symbol with ⟨-, he⟩ | ⟨hadmits, -⟩
  · exact he
  · cases h.symm.trans hadmits

theorem define_taken (h : s.admits symbol = true) (hin : symbol.key ∈ s.keys) :
    s.define symbol = .error (.duplicateSymbol symbol.name) := by
  rcases s.define_cases symbol with ⟨hadmits, -⟩ | ⟨-, ⟨-, he⟩ | ⟨hfree, -⟩⟩
  · cases h.symm.trans hadmits
  · exact he
  · exact absurd hin hfree

theorem define_free (h : s.admits symbol = true) (hfree : symbol.key ∉ s.keys) :
    ∃ s', s.define symbol = .ok (s.handle s.symbols.length, s') ∧
      s.Becomes (s.symbols ++ [symbol]) s' := by
  rcases s.define_cases symbol with ⟨hadmits, -⟩ | ⟨-, ⟨hin, -⟩ | ⟨-, he⟩⟩
  · cases h.symm.trans hadmits
  · exact absurd hin hfree
  · exact he

/-- No macro is under a global symbol. -/
def PlainLocals (s : Store) : Prop :=
  ∀ x ∈ s.symbols, x.isMacro = true → x.isGlobal = true

theorem rescope_ok {slots : List ℕ} {symbols : List Symbol}
    (h : ∀ slot ∈ slots, ∀ x, symbols[slot]? = some x → x.scope = some outer)
    (hplain : ∀ x ∈ symbols, x.isMacro = true → x.isGlobal = true) :
    (rescope outer slots symbols).1 = .ok () := by
  induction slots with
  | nil => rfl
  | cons slot slots ih =>
    have hrest := ih fun i hi => h i (mem_cons_of_mem _ hi)
    unfold rescope
    split
    · exact hrest
    · rename_i x hx
      have hscope := h slot mem_cons_self x hx
      have hkind : x.isMacro = false := by
        rw [Bool.eq_false_iff]
        intro hkind
        have hglobal := hplain x (mem_of_getElem? hx) hkind
        simp [Symbol.isGlobal, hscope] at hglobal
      have hunder : x.under outer = .ok x := by
        simp only [Symbol.under, hkind, ← hscope]
        rfl
      obtain ⟨hlt, hget⟩ := List.getElem?_eq_some_iff.mp hx
      simp only [hunder]
      rw [← hget, set_getElem_self]
      exact hrest

/-- What renaming a symbol leaves behind. -/
structure Renaming (s : Store) (id : SymbolId) (old : Symbol) (name : String)
    (outcome : Except Error Unit) (s' : Store) : Prop
    extends s.Becomes (s.symbols.set id.slot { old with name }) s' where
  outcome : s.PlainLocals → outcome = .ok ()

theorem Renaming.of_name (hx : s.symbol? id = some x) (hname : x.name = name) :
    s.Renaming id x name (.ok ()) s := by
  obtain ⟨hlt, hget⟩ := List.getElem?_eq_some_iff.mp (symbol?_eq_some.mp hx).2
  refine ⟨⟨rfl, rfl, rfl, ?_⟩, fun _ => rfl⟩
  rw [← hname, ← hget, set_getElem_self]

theorem renameGlobal_cases (hold : s.symbol? id = some x) (hglobal : x.scope = none)
    (name : String) :
    ⟨name, none⟩ ∈ s.keys ∧
      s.renameGlobal id x name hold hglobal = (.error (.duplicateSymbol name), s) ∨
    ⟨name, none⟩ ∉ s.keys ∧ s.Renaming id x name (s.renameGlobal id x name hold hglobal).1
      (s.renameGlobal id x name hold hglobal).2 := by
  generalize hresult : s.renameGlobal id x name hold hglobal = result
  unfold renameGlobal at hresult
  split at hresult
  · rename_i hin
    exact .inl ⟨contains_globalNames.mp hin, hresult.symm⟩
  · rename_i hfree
    refine .inr ⟨fun hin => hfree (contains_globalNames.mpr hin), ?_⟩
    split at hresult
    · -- the old name is in the map
      rename_i hnone
      have hkey := (key_of_symbol? hold).2
      rw [Symbol.key, hglobal] at hkey
      rw [IndexMap.contains_iff, s.inStep.globals] at hfree
      rw [s.inStep.globals] at hnone
      cases hnone.symm.trans (s.inStep.rekey_eq hkey hfree)
    · subst hresult
      have hlocals := scope_of_local name hold hglobal
      refine ⟨⟨rfl, rfl, rfl, rescope_eq hlocals⟩, fun hplain => rescope_ok hlocals fun y hy => ?_⟩
      rcases mem_or_eq_of_mem_set hy with hy | rfl
      · exact hplain y hy
      · simp [Symbol.isGlobal, hglobal]

theorem renameLocal_cases (hold : s.symbol? id = some x) (hscope : x.scope = some outer)
    (name : String) :
    ⟨name, some outer⟩ ∈ s.keys ∧
      s.renameLocal id x name hold hscope = (.error (.duplicateSymbol name), s) ∨
    ⟨name, some outer⟩ ∉ s.keys ∧ s.Renaming id x name (s.renameLocal id x name hold hscope).1
      (s.renameLocal id x name hold hscope).2 := by
  obtain ⟨g, hg, hglobal⟩ := outer_of_mem (mem_of_symbol? hold) hscope
  have hkey := (key_of_symbol? hold).2
  rw [Symbol.key, hscope] at hkey
  have hparent : outer.slot ∈ parents s.keys := mem_parents.mpr ⟨_, mem_of_getElem? hkey, rfl⟩
  have hget : s.localNames.get? outer.slot = some (slotsUnder s.keys (some outer.slot)) := by
    rw [s.inStep.locals, get?_localSlots, if_pos hparent]
  have hcontains := contains_localNames hg hglobal name
  generalize hresult : s.renameLocal id x name hold hscope = result
  unfold renameLocal at hresult
  split at hresult
  · rename_i hnone
    cases hget.symm.trans hnone
  · rename_i names hnames
    obtain rfl := Option.mem_unique hget hnames
    rw [hget, Option.getD_some] at hcontains
    split at hresult
    · rename_i hin
      exact .inl ⟨hcontains.mp hin, hresult.symm⟩
    · rename_i hfree
      refine .inr ⟨fun hin => hfree (hcontains.mpr hin), ?_⟩
      split at hresult
      · rename_i hnone
        rw [IndexMap.contains_iff] at hfree
        cases hnone.symm.trans (s.inStep.rekey_eq hkey hfree)
      · subst hresult
        exact ⟨⟨rfl, rfl, rfl, rfl⟩, fun _ => rfl⟩

/-- **What a store makes of a new name**: it refuses it because another symbol of the scope
has it, or gives it to the symbol in its place. -/
theorem rename_cases (s : Store) (id : SymbolId) (name : String) :
    s.symbol? id = none ∧ s.rename id name = (.error (.unknownSymbol s!"#{id.slot}"), s) ∨
    ∃ old, s.symbol? id = some old ∧
      (old.name = name ∧ s.rename id name = (.ok (), s) ∨
        old.name ≠ name ∧ (⟨name, old.scope⟩ ∈ s.keys ∧
            s.rename id name = (.error (.duplicateSymbol name), s) ∨
          ⟨name, old.scope⟩ ∉ s.keys ∧
            s.Renaming id old name (s.rename id name).1 (s.rename id name).2)) := by
  generalize hresult : s.rename id name = result
  unfold rename at hresult
  split at hresult
  · exact .inl ⟨‹_›, hresult.symm⟩
  · rename_i old hold
    refine .inr ⟨old, hold, ?_⟩
    split at hresult
    · exact .inl ⟨‹_›, hresult.symm⟩
    · rename_i hne
      refine .inr ⟨hne, ?_⟩
      split at hresult
      · rename_i hscope
        rw [hscope]
        subst hresult
        exact renameGlobal_cases hold hscope name
      · rename_i outer hscope
        rw [hscope]
        subst hresult
        exact renameLocal_cases hold hscope name

end Store

end WordAsm
