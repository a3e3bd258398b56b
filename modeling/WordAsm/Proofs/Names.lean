/-
# Names in symbol tables

No global name is used in two stores of a table, and there is one store for each unit
(`Table.Tidy`). Every operation keeps both, whatever the identities of the stores are.

Renaming changes one symbol of one store in its place, so all that can be said about it
follows from what names find in that store: the new name finds the symbol, the old one
nothing, and all others what they found before (`Table.Tidy.renamed`). A
definition that is refused leaves at most an empty store behind, and those change no answer
of the table at all (`Table.sameAnswers_append`).
-/
import WordAsm.Proofs.InPlace
import WordAsm.Proofs.Relocation
import Mathlib.Data.List.Find

namespace WordAsm

open List

variable {symbol : Symbol}

/-! ### A symbol with another name -/

namespace Store

variable {s s' : Store} {id : SymbolId} {name : String} {scope : Option SymbolId} {x : Symbol}

theorem map_filter_entries (s : Store) (p : SymbolId × Symbol → Bool) :
    (s.entries.filter p).map Prod.fst =
      s.handles.filter fun i => (s.symbol? i).any fun x => p (i, x) := by
  have hhandles : s.handles = s.entries.map Prod.fst := by
    unfold entries handles
    rw [map_map, range_eq_range', ← zipIdx_map_snd 0 s.symbols, map_map]
    rfl
  rw [hhandles, filter_map]
  congr 1
  refine filter_congr ?_
  rintro ⟨i, x⟩ hx
  simp [mem_entries.mp hx]

section Renaming

variable {outcome : Except Error Unit} (h : s.Renaming id x name outcome s')

include h

theorem Renaming.keys : s'.keys = s.keys.set id.slot ⟨name, x.scope⟩ := by
  rw [Store.keys, h.symbols, map_set]
  rfl

theorem Renaming.handles : s'.handles = s.handles := by
  unfold Store.handles handle
  rw [h.symbols, h.id, length_set]

variable (hx : s.symbol? id = some x)

include hx

theorem Renaming.symbol?_self : s'.symbol? id = some { x with name } := by
  obtain ⟨hstore, hslot⟩ := symbol?_eq_some.mp hx
  refine symbol?_eq_some.mpr ⟨hstore.trans h.id.symm, ?_⟩
  rw [h.symbols, getElem?_set_self (List.getElem?_eq_some_iff.mp hslot).1]

theorem Renaming.symbol?_other {i : SymbolId} (hi : i ≠ id) : s'.symbol? i = s.symbol? i := by
  have hstore := store_of_symbol? hx
  refine Option.ext fun y => ?_
  rw [symbol?_eq_some, symbol?_eq_some, h.id, h.symbols]
  refine and_congr_right fun hi' => ?_
  rw [getElem?_set_ne fun hslot => hi ?_]
  obtain ⟨a, j⟩ := i
  obtain ⟨b, k⟩ := id
  simp_all

theorem Renaming.find?_self : s'.find? name x.scope = some id :=
  find?_eq_some.mpr ⟨_, h.symbol?_self hx, rfl, rfl⟩

theorem Renaming.find?_other {n : String} (hne : (n, scope) ≠ (x.name, x.scope))
    (hne' : (n, scope) ≠ (name, x.scope)) : s'.find? n scope = s.find? n scope := by
  refine Option.ext fun i => ?_
  rw [find?_eq_some, find?_eq_some]
  by_cases hi : i = id
  · rw [hi, h.symbol?_self hx, hx]
    constructor
    · rintro ⟨y, hy, rfl, rfl⟩
      cases hy
      exact absurd rfl hne'
    · rintro ⟨y, hy, rfl, rfl⟩
      cases hy
      exact absurd rfl hne
  · rw [h.symbol?_other hx hi]

theorem Renaming.find?_old (hne : x.name ≠ name) : s'.find? x.name x.scope = none := by
  rw [Option.eq_none_iff_forall_ne_some]
  intro i hi
  obtain ⟨y, hy, hname, hscope⟩ := find?_eq_some.mp hi
  by_cases hid : i = id
  · rw [hid, h.symbol?_self hx] at hy
    cases hy
    exact hne hname.symm
  · -- the symbol would have had the name of the renamed one before
    rw [h.symbol?_other hx hid] at hy
    have hfind := find?_eq_some.mpr ⟨y, hy, hname, hscope⟩
    rw [find?_eq_some.mpr ⟨x, hx, rfl, rfl⟩] at hfind
    exact hid (Option.some.inj hfind).symm

theorem Renaming.any_scope (p : Option SymbolId → Bool) (i : SymbolId) :
    ((s'.symbol? i).any fun x => p x.scope) = (s.symbol? i).any fun x => p x.scope := by
  by_cases hi : i = id
  · rw [hi, h.symbol?_self hx, hx]
    rfl
  · rw [h.symbol?_other hx hi]

theorem Renaming.map_locals (i : SymbolId) :
    (s'.locals i).map Prod.fst = (s.locals i).map Prod.fst := by
  rw [locals_eq, locals_eq, map_filter_entries, map_filter_entries, h.handles]
  exact filter_congr fun j _ => h.any_scope hx (decide <| · = some i) j

theorem Renaming.ordered : s'.ordered.map Prod.fst = s.ordered.map Prod.fst := by
  have hglobals : s'.globals.map Prod.fst = s.globals.map Prod.fst := by
    rw [globals_eq, globals_eq, map_filter_entries, map_filter_entries, h.handles]
    exact filter_congr fun i _ => h.any_scope hx Option.isNone i
  have hwalk : ∀ r : Store, r.ordered.map Prod.fst =
      (r.globals.map Prod.fst).flatMap fun i => i :: (r.locals i).map Prod.fst := by
    intro r
    simp [Store.ordered, map_flatMap, flatMap_map]
  rw [hwalk, hwalk, hglobals]
  simp only [h.map_locals hx]

theorem Renaming.locals (hglobal : x.isGlobal = true) : s'.locals id = s.locals id := by
  have hread : ∀ r : Store, r.locals id =
      ((r.locals id).map Prod.fst).filterMap fun i => (r.symbol? i).map (i, ·) := by
    intro r
    rw [filterMap_map]
    refine ((filterMap_congr ?_).trans filterMap_some).symm
    rintro ⟨i, y⟩ hy
    simp [(mem_locals.mp hy).1]
  rw [hread s', hread s, h.map_locals hx]
  refine filterMap_congr fun i hi => ?_
  -- the symbol is no local of its own
  have hne : i ≠ id := by
    obtain ⟨⟨_, y⟩, hy, rfl⟩ := mem_map.mp hi
    rintro rfl
    obtain ⟨hy, hscope⟩ := mem_locals.mp hy
    obtain rfl : x = y := Option.mem_unique hx hy
    simp [Symbol.isGlobal, hscope] at hglobal
  rw [h.symbol?_other hx hne]

end Renaming

end Store

/-! ### Names in a table -/

namespace Table

variable {t t' : Table} {s store : Store} {id : SymbolId} {x : Symbol} {name : String}
  {scope : Option SymbolId}

def find? (t : Table) (name : String) : Option SymbolId → Option SymbolId
  | some scope => (t.owner? scope).bind (·.find? name (some scope))
  | none => t.global? name

/-- A table as its operations make it: one store for each unit, and no global name in two
stores. -/
structure Tidy (t : Table) : Prop where
  units : (t.stores.map Store.unit).Nodup
  globals : ∀ s ∈ t.stores, ∀ r ∈ t.stores, ∀ name,
    ⟨name, none⟩ ∈ s.keys → ⟨name, none⟩ ∈ r.keys → s = r

theorem Tidy.unit_inj (h : t.Tidy) {r : Store} (hs : s ∈ t.stores) (hr : r ∈ t.stores)
    (hunit : s.unit = r.unit) : s = r :=
  inj_on_of_nodup_map h.units hs hr hunit

theorem get?_eq_find? (t : Table) (name : String) (scope : Option SymbolId) :
    t.get? name scope = (t.find? name scope).bind t.symbol? := by
  cases scope with
  | none => rfl
  | some scope =>
    rw [get?, find?]
    cases howner : t.owner? scope with
    | none => rfl
    | some s =>
      rw [Option.bind_some, Option.bind_some, Store.get?]
      cases hfind : s.find? name (some scope) with
      | none => rfl
      | some i =>
        obtain ⟨x, hx, -⟩ := Store.find?_eq_some.mp hfind
        -- the local is in the store that its scope is in
        have hsame : t.owner? i = t.owner? scope := by
          unfold owner?
          rw [Store.store_of_symbol? hx, (mem_of_owner? howner).2]
        rw [Option.bind_some, Option.bind_some, symbol?, hsame, howner, Option.bind_some]

theorem global?_eq_none : t.global? name = none ↔ ∀ s ∈ t.stores, ⟨name, none⟩ ∉ s.keys := by
  unfold global?
  simp only [findSome?_eq_none_iff, ← Store.isSome_find?, Bool.not_eq_true,
    Option.isSome_eq_false_iff, Option.isNone_iff_eq_none]

/-- A global name finds what the store that has it finds. -/
theorem Tidy.global?_eq (h : t.Tidy) (hs : s ∈ t.stores) (hfind : s.find? name none = some id) :
    t.global? name = some id := by
  obtain ⟨i, hi⟩ := Option.isSome_iff_exists.mp (global?_isSome.mpr ⟨s, hs, by rw [hfind]; rfl⟩)
  obtain ⟨r, hr, hir⟩ := exists_of_findSome?_eq_some hi
  have hsame : s = r := h.globals s hs r hr name
    (Store.isSome_find?.mp (by rw [hfind]; rfl))
    (Store.isSome_find?.mp (by rw [hir]; rfl))
  rw [hi, ← hir, ← hsame, hfind]

/-- **A symbol is found by its name in its scope**, and by nothing else, if the stores have
identities of their own. -/
theorem Tidy.find?_eq_some (h : t.Tidy) (hids : t.Distinct) : t.find? name scope = some id ↔
    ∃ x, t.symbol? id = some x ∧ x.name = name ∧ x.scope = scope := by
  have hstores : (∃ x, t.symbol? id = some x ∧ x.name = name ∧ x.scope = scope) ↔
      ∃ s ∈ t.stores, s.find? name scope = some id := by
    simp only [hids.symbol?_eq_some, Store.find?_eq_some]
    exact ⟨fun ⟨x, ⟨s, hs, hx⟩, hkey⟩ => ⟨s, hs, x, hx, hkey⟩,
      fun ⟨s, hs, x, hx, hkey⟩ => ⟨x, ⟨s, hs, hx⟩, hkey⟩⟩
  rw [hstores]
  cases scope with
  | none =>
    exact ⟨exists_of_findSome?_eq_some, fun ⟨s, hs, hfind⟩ => h.global?_eq hs hfind⟩
  | some scope =>
    constructor
    · intro hfind
      obtain ⟨s, howner, hfind⟩ := Option.bind_eq_some_iff.mp hfind
      exact ⟨s, (mem_of_owner? howner).1, hfind⟩
    · rintro ⟨s, hs, hfind⟩
      obtain ⟨x, hx, -, hscope⟩ := Store.find?_eq_some.mp hfind
      obtain ⟨g, hg, -⟩ := Store.outer_of_mem (Store.mem_of_symbol? hx) hscope
      exact Option.bind_eq_some_iff.mpr
        ⟨s, hids.owner?_eq hs (Store.store_of_symbol? hg), hfind⟩

/-! ### What operations on a table keep -/

theorem units_put (t : Table) (store : Store) :
    (t.put store).stores.map Store.unit = if store.unit ∈ t.stores.map Store.unit
      then t.stores.map Store.unit else t.stores.map Store.unit ++ [store.unit] := by
  by_cases hex : store.unit ∈ t.stores.map Store.unit
  · obtain ⟨r, hr, hunit⟩ := mem_map.mp hex
    rw [if_pos hex, put_old hr hunit.symm, map_map]
    refine map_congr_left fun s _ => ?_
    by_cases hs : s.unit = store.unit <;> simp [hs]
  · have hne : ∀ s ∈ t.stores, s.unit ≠ store.unit := fun s hs hunit =>
      hex (mem_map.mpr ⟨s, hs, hunit⟩)
    rw [if_neg hex, put_new store hne, map_append]
    rfl

/-- **A store may be put in** if its global names are not used in other stores. -/
theorem Tidy.put (h : t.Tidy) (hfree : ∀ r ∈ t.stores, r.unit ≠ store.unit → ∀ name,
      ⟨name, none⟩ ∈ store.keys → ⟨name, none⟩ ∉ r.keys) : (t.put store).Tidy := by
  refine ⟨?_, fun a ha b hb name hna hnb => ?_⟩
  · rw [units_put]
    split
    · exact h.units
    · rename_i hunit
      refine nodup_append.mpr ⟨h.units, nodup_singleton _, ?_⟩
      rintro unit hin _ hlast rfl
      exact hunit (mem_singleton.mp hlast ▸ hin)
  · rcases mem_put.mp ha with rfl | ⟨hat, hau⟩ <;>
      rcases mem_put.mp hb with rfl | ⟨hbt, hbu⟩
    · rfl
    · exact absurd hnb (hfree b hbt hbu name hna)
    · exact absurd hna (hfree a hat hau name hnb)
    · exact h.globals a hat b hbt name hna hnb

theorem tidy_of_nil (h : t.stores = []) : t.Tidy := by
  refine ⟨?_, ?_⟩ <;> simp [h]

theorem Tidy.of_stores (h : t.Tidy) (hstores : t'.stores = t.stores) : t'.Tidy :=
  ⟨hstores ▸ h.units, hstores ▸ h.globals⟩

theorem Tidy.register (h : t.Tidy) (unit : UnitId) : (t.register unit).2.Tidy := by
  unfold Table.register
  split
  · exact h
  · have hfresh : t.fresh.2.Tidy := h.of_stores rfl
    exact hfresh.put fun r _ _ name hname => by cases hname

/-- A store of the table may be put back with more or other names, as far as they are
not used in other stores. -/
theorem Tidy.put_back (h : t.Tidy) (hstore : store ∈ t.stores) {changed : Store}
    (hunit : changed.unit = store.unit) (hkeys : ∀ name, ⟨name, none⟩ ∈ changed.keys →
      ⟨name, none⟩ ∈ store.keys ∨ t.global? name = none) : (t.put changed).Tidy := by
  refine h.put fun r hr hne name hname hin => ?_
  rcases hkeys name hname with hold | hfree
  · exact hne (hunit ▸ congrArg Store.unit (h.globals r hr store hstore name hin hold))
  · exact global?_eq_none.mp hfree r hr hin

theorem Tidy.define (h : t.Tidy) (symbol : Symbol) : (t.define symbol).2.Tidy := by
  obtain ⟨hmem, -, -, hold⟩ := t.register_spec symbol.unit
  have hr := h.register symbol.unit
  rcases t.define_cases symbol with ⟨e, -, heq | heq⟩ | ⟨⟨hfree, -⟩, s, hs, heq⟩ <;> rw [heq]
  · exact h
  · exact hr
  · refine hr.put_back hmem hs.unit fun name hname => ?_
    rw [Store.keys, hs.symbols, map_append, mem_append, map_singleton, mem_singleton,
      Symbol.key, SymbolKey.mk.injEq] at hname
    rcases hname with hname | ⟨rfl, hscope⟩
    · exact .inl hname
    · -- a global name that the table knows is refused before the store is asked
      have hnone := hfree (by rw [Symbol.isGlobal, ← hscope]; rfl)
      refine .inr (global?_eq_none.mpr fun r hr => ?_)
      rcases hold r hr with hr | ⟨hnil, -⟩
      · exact global?_eq_none.mp hnone r hr
      · simp [Store.keys, hnil]

theorem Tidy.put_self (h : t.Tidy) (hs : s ∈ t.stores) : t.put s = t := by
  rw [put_old hs rfl]
  have hsame : t.stores.map (fun r => if r.unit == s.unit then s else r) = t.stores := by
    refine (map_congr_left fun r hr => ?_).trans (map_id' _)
    by_cases hunit : r.unit = s.unit
    · rw [if_pos (beq_iff_eq.mpr hunit), h.unit_inj hr hs hunit]
    · rw [if_neg (by simpa using hunit)]
  rw [hsame]

/-- **What a table makes of a new name**: it refuses it and stays the same, or gives it to the
symbol in its place; then no other global symbol has it. -/
theorem Tidy.rename_cases (h : t.Tidy) (id : SymbolId) (name : String) :
    (∃ e, t.rename id name = (.error e, t)) ∨
    ∃ s x outcome s', t.owner? id = some s ∧ s.symbol? id = some x ∧
      (x.isGlobal = true → x.name = name ∨ t.global? name = none) ∧
      s.Renaming id x name outcome s' ∧ t.rename id name = (outcome, t.put s') := by
  unfold Table.rename
  split
  · rename_i s x howner hsymbol
    rw [symbol?, howner, Option.bind_some] at hsymbol
    have hput := h.put_self (mem_of_owner? howner).1
    split
    · exact .inl ⟨_, rfl⟩
    · rename_i hfree
      have hglobal : x.isGlobal = true → x.name = name ∨ t.global? name = none := by
        intro hglobal
        by_cases hname : x.name = name
        · exact .inl hname
        · exact .inr (by simpa [hglobal, hname] using hfree)
      rcases s.rename_cases id name with ⟨hnone, -⟩ | ⟨old, hold, ⟨hname, heq⟩ | ⟨-, ⟨-, heq⟩ | ⟨-, hr⟩⟩⟩
      · cases hnone.symm.trans hsymbol
      · obtain rfl := Option.mem_unique hsymbol hold
        exact .inr ⟨s, x, .ok (), s, howner, hsymbol, hglobal, .of_name hsymbol hname, by rw [heq]⟩
      · exact .inl ⟨.duplicateSymbol name, by simp only [heq, hput]⟩
      · obtain rfl := Option.mem_unique hsymbol hold
        exact .inr ⟨s, x, _, _, howner, hsymbol, hglobal, hr, rfl⟩
  · exact .inl ⟨_, rfl⟩

theorem Tidy.put_renaming (h : t.Tidy) {outcome : Except Error Unit} (howner : t.owner? id = some s)
    (hx : s.symbol? id = some x) (hfree : x.isGlobal = true → x.name = name ∨ t.global? name = none)
    (hs : s.Renaming id x name outcome store) : (t.put store).Tidy := by
  refine h.put_back (mem_of_owner? howner).1 hs.unit fun n hn => ?_
  rw [hs.keys] at hn
  rcases mem_or_eq_of_mem_set hn with hn | hn
  · exact .inl hn
  · obtain ⟨rfl, hscope⟩ := SymbolKey.mk.inj hn
    rcases hfree (by rw [Symbol.isGlobal, ← hscope]; rfl) with rfl | hnone
    · exact .inl (Store.mem_keys.mpr ⟨x, Store.mem_of_symbol? hx, rfl, hscope.symm⟩)
    · exact .inr hnone

theorem Tidy.rename (h : t.Tidy) (id : SymbolId) (name : String) : (t.rename id name).2.Tidy := by
  rcases h.rename_cases id name with ⟨e, heq⟩ | ⟨s, x, outcome, s', howner, hx, hfree, hs, heq⟩ <;>
    rw [heq]
  · exact h
  · exact h.put_renaming howner hx hfree hs

theorem adopt_eq (hok : t.adopt store = .ok t') : t' = t.put { store with attached := true } := by
  unfold Table.adopt at hok
  simp only at hok
  split at hok <;> cases hok
  rfl

theorem Tidy.adopt (h : t.Tidy) (hok : t.adopt store = .ok t') : t'.Tidy := by
  obtain rfl := adopt_eq hok
  unfold Table.adopt at hok
  simp only at hok
  split at hok
  · cases hok
  · rename_i hfree
    refine h.put fun r hr hne name hname hin => ?_
    obtain ⟨x, hx, rfl, hscope⟩ := Store.mem_keys.mp hname
    obtain ⟨slot, hslot⟩ := mem_iff_getElem?.mp hx
    have hglobal : (store.handle slot, x) ∈ store.globals := by
      refine Store.mem_globals.mpr ⟨?_, by simp [Symbol.isGlobal, hscope]⟩
      rw [Store.symbol?_handle, hslot]
    refine List.find?_eq_none.mp hfree _ hglobal ?_
    refine any_eq_true.mpr ⟨r, mem_filter.mpr ⟨hr, by simpa using hne⟩, ?_⟩
    exact Store.isSome_find?.mpr hin

theorem Tidy.mapStores (h : t.Tidy) {f : Store → Store} (hunit : ∀ s, (f s).unit = s.unit)
    (hkeys : ∀ s ∈ t.stores, (f s).keys ⊆ s.keys) :
    ({ t with stores := t.stores.map f } : Table).Tidy := by
  constructor
  · rw [map_map, show Store.unit ∘ f = Store.unit from funext hunit]
    exact h.units
  · intro a ha b hb name hna hnb
    obtain ⟨s, hs, rfl⟩ := mem_map.mp ha
    obtain ⟨r, hr, rfl⟩ := mem_map.mp hb
    rw [h.globals s hs r hr name (hkeys s hs hna) (hkeys r hr hnb)]

theorem Tidy.mapKinds (h : t.Tidy) (f : SymbolId → SymbolKind → SymbolKind) : (t.mapKinds f).Tidy :=
  h.mapStores (fun _ => rfl) fun s _ => by
    rw [Store.keys_mapKinds]
    exact List.Subset.refl _

theorem Tidy.clearUnit (h : t.Tidy) (unit : UnitId) : (t.clearUnit unit).Tidy := by
  refine h.mapStores (fun s => ?_) fun s hs => ?_
  · split <;> rfl
  · split
    · exact nil_subset _
    · exact List.Subset.refl _

/-! ### Renaming in a table -/

/-- What follows when `x`, the symbol `id`, has been given the name `name`. -/
structure Renamed (t : Table) (id : SymbolId) (x : Symbol) (name : String)
    (t' : Table) : Prop where
  /-- The symbol has another name, and is the same otherwise. -/
  symbol : t'.symbol? id = some { x with name }
  /-- Every other symbol is the same. -/
  others : ∀ i, i ≠ id → t'.symbol? i = t.symbol? i
  /-- The new name finds the symbol. -/
  found : t'.find? name x.scope = some id
  /-- The old name finds nothing. -/
  freed : x.name ≠ name → t'.find? x.name x.scope = none
  /-- Every other name finds what it found. -/
  kept : ∀ n scope, (n, scope) ≠ (x.name, x.scope) → (n, scope) ≠ (name, x.scope) →
    t'.find? n scope = t.find? n scope
  /-- Symbols stand in the order in which they were defined. -/
  handles : t'.handles = t.handles
  /-- The walks of the stores go the same way. -/
  ordered : t'.stores.map (fun s => s.ordered.map Prod.fst) =
    t.stores.map fun s => s.ordered.map Prod.fst
  /-- A global symbol still has its locals. -/
  locals : x.isGlobal = true → (t'.owner? id).map (·.locals id) = (t.owner? id).map (·.locals id)

section Put

variable {s' : Store} (h : t.Tidy) (hs : s ∈ t.stores) (hid : s'.id = s.id)
  (hunit : s'.unit = s.unit)

include h hs hunit

theorem Tidy.ask_back {r : Store} (hr : r ∈ t.stores) {β : Type} (ask : Store → β)
    (hask : ask s' = ask s) : ask (if r.unit == s'.unit then s' else r) = ask r := by
  by_cases hr' : r.unit = s'.unit
  · rw [if_pos (beq_iff_eq.mpr hr'), hask, h.unit_inj hr hs (hr'.trans hunit)]
  · rw [if_neg (by simpa using hr')]

/-- What is asked of all stores in turn is answered as before, if the store that is put back
answers as before. -/
theorem Tidy.map_put_back {β : Type} (ask : Store → β) (hask : ask s' = ask s) :
    (t.put s').stores.map ask = t.stores.map ask := by
  rw [put_old hs hunit, map_map]
  exact map_congr_left fun r hr => h.ask_back hs hunit hr ask hask

theorem Tidy.global?_put_back (n : String) (hask : s'.find? n none = s.find? n none) :
    (t.put s').global? n = t.global? n := by
  have hglobal : ∀ t : Table, t.global? n = (t.stores.map (·.find? n none)).findSome? id := by
    intro t
    rw [findSome?_map]
    rfl
  rw [hglobal, hglobal, h.map_put_back hs hunit _ hask]

include hid

theorem Tidy.owner?_put_back (i : SymbolId) : (t.put s').owner? i = (t.owner? i).map fun r =>
    if r.unit == s'.unit then s' else r := by
  unfold owner?
  rw [put_old hs hunit, find?_map]
  refine congrArg (Option.map _) (List.find?_congr fun r hr => ?_)
  exact h.ask_back hs hunit hr (·.id == i.store) (by rw [hid])

theorem Tidy.ask_put_back {β : Type} (i : SymbolId) (ask : Store → Option β)
    (hask : ask s' = ask s) : ((t.put s').owner? i).bind ask = (t.owner? i).bind ask := by
  rw [h.owner?_put_back hs hid hunit]
  cases hi : t.owner? i with
  | none => rfl
  | some r => exact h.ask_back hs hunit (mem_of_owner? hi).1 ask hask

end Put

theorem owner?_eq_of_store {i : SymbolId} (hi : i.store = id.store) : t.owner? i = t.owner? id := by
  unfold owner?
  rw [hi]

/-- **Renaming a symbol** moves it from one name to another, and leaves all the rest. -/
theorem Tidy.renamed (h : t.Tidy) {outcome : Except Error Unit} (howner : t.owner? id = some s)
    (hx : s.symbol? id = some x) (hfree : x.isGlobal = true → x.name = name ∨ t.global? name = none)
    (hr : s.Renaming id x name outcome store) : t.Renamed id x name (t.put store) := by
  have hmem := (mem_of_owner? howner).1
  have htidy := h.put_renaming howner hx hfree hr
  have hself : (t.put store).owner? id = some store := by
    rw [h.owner?_put_back hmem hr.id hr.unit, howner]
    simp [hr.unit]
  have hnew : store ∈ (t.put store).stores := mem_put.mpr (.inl rfl)
  -- the scope of a local symbol is in the same store
  have hscope : ∀ scope, x.scope = some scope → (t.put store).owner? scope = some store := by
    intro scope hscope
    obtain ⟨g, hg, -⟩ := Store.outer_of_mem (Store.mem_of_symbol? hx) hscope
    rw [← hself]
    exact owner?_eq_of_store
      ((Store.store_of_symbol? hg).trans (Store.store_of_symbol? hx).symm)
  refine ⟨?_, fun i hi => ?_, ?_, fun hne => ?_, fun n scope hold hn => ?_, ?_, ?_, fun hglobal => ?_⟩
  · rw [symbol?, hself, Option.bind_some, hr.symbol?_self hx]
  · exact h.ask_put_back hmem hr.id hr.unit i (·.symbol? i) (hr.symbol?_other hx hi)
  · have hfind := hr.find?_self hx
    cases houter : x.scope with
    | none => exact htidy.global?_eq hnew (houter ▸ hfind)
    | some scope =>
      rw [find?, hscope scope houter, Option.bind_some, ← houter]
      exact hfind
  · have hfind := hr.find?_old hx hne
    cases houter : x.scope with
    | none =>
      rw [houter] at hfind
      refine global?_eq_none.mpr fun r hr' hin => ?_
      rcases mem_put.mp hr' with rfl | ⟨hr', hne'⟩
      · rw [← Store.isSome_find?, hfind] at hin
        cases hin
      · have hkey := Store.mem_keys.mpr ⟨x, Store.mem_of_symbol? hx, rfl, houter⟩
        rw [h.globals r hr' s hmem x.name hin hkey] at hne'
        exact hne' hr.unit.symm
    | some scope =>
      rw [find?, hscope scope houter, Option.bind_some, ← houter]
      exact hfind
  · have hfind := hr.find?_other hx hold hn
    cases scope with
    | none => exact h.global?_put_back hmem hr.unit n hfind
    | some scope => exact h.ask_put_back hmem hr.id hr.unit scope (·.find? n (some scope)) hfind
  · rw [Table.handles, Table.handles, flatMap_def, flatMap_def,
      h.map_put_back hmem hr.unit Store.handles hr.handles]
  · exact h.map_put_back hmem hr.unit _ (hr.ordered hx)
  · rw [hself, howner, Option.map_some, Option.map_some, hr.locals hx hglobal]

/-! ### Answers -/

/-- Whatever is asked of the tables, they answer the same. -/
structure SameAnswers (t t' : Table) : Prop where
  symbol? : ∀ id, t'.symbol? id = t.symbol? id
  find? : ∀ name scope, t'.find? name scope = t.find? name scope
  get? : ∀ name scope, t'.get? name scope = t.get? name scope
  getAll : ∀ name, t'.getAll name = t.getAll name
  lookup : ∀ unit name scope, (t'.store? unit).bind (·.lookup name scope) =
    (t.store? unit).bind (·.lookup name scope)
  getLocal? : ∀ unit scope name, (t'.store? unit).bind (·.getLocal? scope name) =
    (t.store? unit).bind (·.getLocal? scope name)
  resolve : ∀ unit name scope, t'.resolve unit name scope = t.resolve unit name scope
  value? : ∀ id, t'.value? id = t.value? id
  weight? : ∀ id, t'.weight? id = t.weight? id
  eval : ∀ v e, t'.eval v e = t.eval v e
  weigh : ∀ v e, t'.weigh v e = t.weigh v e
  fold : ∀ v e, t'.fold v e = t.fold v e

theorem read_congr {α : Type} (r : Interpretation α) (hsymbol : ∀ id, t'.symbol? id = t.symbol? id)
    (hresolve : ∀ unit name scope, t'.resolve unit name scope = t.resolve unit name scope)
    (remaining : List SymbolId) (id : SymbolId) :
    t'.read r remaining id = t.read r remaining id := by
  have hsame : t.Relocation t' (fun _ => True) (fun i => i) := by
    refine ⟨fun i j _ _ h => h, fun i _ => ?_⟩
    rw [hsymbol]
    cases t.symbol? i with
    | none => exact .missing
    | some x =>
      refine .of_relocate (SymbolKind.relocate_id _).symm (fun e context _ name => ?_)
        fun _ _ _ _ => trivial
      rw [hresolve, Option.map_id, Option.map_id']
      rfl
  exact hsame.read_eq r (fun _ _ => Iff.rfl) trivial

/-- Stores without symbols make no difference. -/
theorem sameAnswers_append {empties : List Store} (hstores : t'.stores = t.stores ++ empties)
    (hempty : ∀ s ∈ empties, s.symbols = []) : t.SameAnswers t' := by
  have hnone : ∀ s ∈ empties, ∀ name scope, s.find? name scope = none := fun s hs name scope =>
    Option.not_isSome_iff_eq_none.mp fun hsome => by
      have hin := Store.isSome_find?.mp hsome
      rw [Store.keys, hempty s hs] at hin
      cases hin
  have hask : ∀ {β : Type} (p : Store → Bool) (ask : Store → Option β),
      (∀ s ∈ empties, ask s = none) →
        (t'.stores.find? p).bind ask = (t.stores.find? p).bind ask := by
    intro β p ask hnone
    rw [hstores, List.find?_append]
    cases t.stores.find? p with
    | some s => rfl
    | none =>
      rw [Option.none_or]
      cases hfind : empties.find? p with
      | none => rfl
      | some s => exact hnone s (mem_of_find?_eq_some hfind)
  have hsymbol : ∀ id, t'.symbol? id = t.symbol? id := fun id =>
    hask _ (·.symbol? id) fun s hs => by simp [Store.symbol?, hempty s hs]
  have hglobal : ∀ name, t'.global? name = t.global? name := by
    intro name
    have hlast : empties.findSome? (·.find? name none) = none :=
      findSome?_eq_none_iff.mpr fun s hs => hnone s hs name none
    rw [global?, hstores, findSome?_append, hlast, Option.or_none]
    rfl
  have hfind : ∀ name scope, t'.find? name scope = t.find? name scope := by
    intro name scope
    cases scope with
    | none => exact hglobal name
    | some scope => exact hask _ (·.find? name (some scope)) fun s hs => hnone s hs _ _
  have hlookup : ∀ u name scope, (t'.store? u).bind (·.lookup name scope) =
      (t.store? u).bind (·.lookup name scope) := fun u name scope =>
    hask _ (·.lookup name scope) fun s hs => by
      rw [Store.lookup, hnone s hs, hnone s hs]
      rfl
  have hresolve : ∀ u name scope, t'.resolve u name scope = t.resolve u name scope := by
    intro u name scope
    unfold Table.resolve
    rw [hglobal, hlookup]
  have hhandles : t'.handles = t.handles := by
    have hlast : empties.flatMap Store.handles = [] :=
      flatMap_eq_nil_iff.mpr fun s hs => by simp [Store.handles, hempty s hs]
    rw [handles, hstores, flatMap_append, hlast, append_nil]
    rfl
  have hread : ∀ {α : Type} (r : Interpretation α), t'.read r t'.handles = t.read r t.handles := by
    intro α r
    rw [hhandles]
    exact funext (read_congr r hsymbol hresolve t.handles)
  have hname : ∀ {α : Type} (r : Interpretation α) v, t'.readName r v = t.readName r v := by
    intro α r v
    funext name
    rw [readName, readName, hresolve, hread]
  have henvironment : ∀ v, t'.environment v = t.environment v := by
    intro v
    unfold environment
    rw [hname]
  exact
    { symbol? := hsymbol
      find? := hfind
      get? := fun name scope => by
        rw [get?_eq_find?, get?_eq_find?, hfind, funext hsymbol]
      getAll := fun name => by
        have hlast : empties.flatMap Store.ordered = [] :=
          flatMap_eq_nil_iff.mpr fun s hs => eq_nil_iff_forall_not_mem.mpr fun _ hx => by
            have hin := Store.mem_of_symbol? (Store.mem_ordered.mp hx)
            rw [hempty s hs] at hin
            cases hin
        rw [Table.getAll, hstores, flatMap_append, hlast, append_nil]
        rfl
      lookup := hlookup
      getLocal? := fun u scope name => hask _ (·.getLocal? scope name) fun s hs => by
        rw [Store.getLocal?, hnone s hs]
        rfl
      resolve := hresolve
      value? := fun id => by rw [Table.value?, Table.value?, hread]
      weight? := fun id => by rw [Table.weight?, Table.weight?, hread]
      eval := fun v e => by rw [Table.eval, Table.eval, henvironment]
      weigh := fun v e => by rw [Table.weigh, Table.weigh, hname]
      fold := fun v e => by rw [Table.fold, Table.fold, henvironment, hname] }

/-- **A symbol that is refused** may leave a store behind, but an empty one. -/
theorem stores_of_refused {e : Error} (hrefused : t.define symbol = (.error e, t')) :
    ∃ empties, t'.stores = t.stores ++ empties ∧ ∀ s ∈ empties, s.symbols = [] := by
  rcases t.define_cases symbol with ⟨e', -, heq | heq⟩ | ⟨-, s, -, heq⟩ <;> rw [heq] at hrefused <;>
    cases hrefused
  · exact ⟨[], (append_nil _).symm, by simp⟩
  · rcases t.register_cases symbol.unit with ⟨s, -, -, hregister⟩ | ⟨-, hregister⟩ <;> rw [hregister]
    · exact ⟨[], (append_nil _).symm, by simp⟩
    · exact ⟨_, rfl, by simp⟩

end Table

end WordAsm
