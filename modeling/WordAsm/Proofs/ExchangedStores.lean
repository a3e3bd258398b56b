/-
# Stores exchanged for their copies

A table may take in the copy of a store in place of the store. The handles of the store
are then gone, and those of the copy are there instead; all others stay. Names find what
they found, up to this exchange of handles, because the copy knows the same names under
the corresponding scopes (`Table.Exchange.resolve`). So all symbols are read
as before (`Table.Exchange.read`).

Two things can go wrong. The identity of the copy may be that of another store, if so many
stores have been made that identities come again. And an equation is looked up in the store of the unit that it names,
and a store that is made apart from the table may hold an equation of another unit, with a
context in the store of that unit. Such a context is not moved when the store is
exchanged, and the equation loses its local names (`exchanged_store_strands_context`).
-/
import WordAsm.Proofs.StoreCopies

namespace WordAsm

namespace Store

variable {s : Store} {new : StoreId} {i : SymbolId}

/-- Where a handle is after `s` has been exchanged for its copy. -/
def exchanged (s : Store) (new : StoreId) (i : SymbolId) : SymbolId :=
  if i.store = s.id then s.place new i else i

theorem exchanged_own (hi : i.store = s.id) : s.exchanged new i = s.place new i :=
  if_pos hi

theorem exchanged_other (hi : i.store ≠ s.id) : s.exchanged new i = i :=
  if_neg hi

theorem find?_notGlobal (name : String) (hi : i ∉ s.globals.map Prod.fst) :
    s.find? name (some i) = none := by
  by_contra hsome
  obtain ⟨j, hj⟩ := Option.ne_none_iff_exists'.mp hsome
  obtain ⟨x, hx, -, hscope⟩ := find?_eq_some.mp hj
  obtain ⟨g, hg⟩ := outer_of_mem (mem_of_symbol? hx) hscope
  exact hi (List.mem_map.mpr ⟨(i, g), mem_globals.mpr hg, rfl⟩)

theorem store_of_mem_globals (hi : i ∈ s.globals.map Prod.fst) : i.store = s.id := by
  obtain ⟨⟨_, g⟩, hg, rfl⟩ := List.mem_map.mp hi
  exact store_of_symbol? (mem_globals.mp hg).1

theorem store_of_find? {name : String} {scope : Option SymbolId} (h : s.find? name scope = some i) :
    i.store = s.id := by
  obtain ⟨x, hx, -⟩ := find?_eq_some.mp h
  exact store_of_symbol? hx

theorem map_exchanged_own (s : Store) (new : StoreId) (name : String)
    (scope : Option SymbolId) :
    (s.find? name scope).map (s.exchanged new) = (s.find? name scope).map (s.place new) :=
  Option.map_congr fun _ hi => exchanged_own (store_of_find? hi)

theorem map_exchanged_other {r : Store} (hne : r.id ≠ s.id) (new : StoreId) (name : String)
    (scope : Option SymbolId) :
    (r.find? name scope).map (s.exchanged new) = r.find? name scope := by
  refine (Option.map_congr fun _ hi => exchanged_other ?_).trans Option.map_id'
  rw [store_of_find? hi]
  exact hne

theorem map_lookup (r : Store) (move : SymbolId → SymbolId) (name : String)
    (scope : Option SymbolId) :
    (r.lookup name scope).map move =
      ((r.find? name scope).map move <|> (r.find? name none).map move) := by
  unfold lookup
  cases r.find? name scope <;> rfl

end Store

namespace Table

open Store

variable {t t' : Table} {s c r : Store} {new : StoreId} {scope : Option SymbolId}
  {i : SymbolId}

/-- An identity that no store has, and no context of an equation. -/
structure Unused (t : Table) (new : StoreId) : Prop where
  stores : ∀ r ∈ t.stores, r.id ≠ new
  contexts : ∀ r ∈ t.stores, ∀ x ∈ r.symbols, ∀ i ∈ x.context?, i.store ≠ new

/-- No other store has an equation of the unit of `s` with a context in `s`. -/
def Separate (t : Table) (s : Store) : Prop :=
  ∀ r ∈ t.stores, r.unit ≠ s.unit → ∀ x ∈ r.symbols, x.unit = s.unit →
    ∀ i ∈ x.context?, i ∉ s.globals.map Prod.fst

/-- The copy of `s`, where it stands in place of `s`. -/
def swap (s c r : Store) : Store :=
  if r.unit == s.unit then { c with attached := true } else r

/-- The table `t'` has the copy `c` of the store `s` in place of `s`. -/
structure Exchange (t : Table) (s : Store) (new : StoreId) (c : Store)
    (t' : Table) : Prop where
  distinct : t.Distinct
  store : s ∈ t.stores
  copied : s.Copied new c
  own : s.OwnContexts
  unused : t.Unused new
  separate : t.Separate s
  stores : t'.stores = t.stores.map (swap s c)

/-! ### Taking in the copy -/

/-- **A tidy table takes in the copy** of one of its stores. -/
theorem Tidy.adopt_copied (h : t.Tidy) (hs : s ∈ t.stores) (hc : s.Copied new c) :
    ∃ t', t.adopt c = .ok t' := by
  unfold Table.adopt
  simp only
  split
  · -- a global symbol of the copy is in no other store, since it is in `s`
    rename_i i y hfind
    have hy := List.mem_of_find?_eq_some hfind
    have hany := List.find?_some hfind
    rw [hc.globals] at hy
    obtain ⟨⟨j, x⟩, hx, hsame⟩ := List.mem_map.mp hy
    cases hsame
    obtain ⟨r, hr, hfound⟩ := List.any_eq_true.mp hany
    obtain ⟨hr, hunit⟩ := List.mem_filter.mp hr
    obtain ⟨hsymbol, hglobal⟩ := mem_globals.mp hx
    have hkey : ⟨x.name, none⟩ ∈ s.keys := mem_keys.mpr
      ⟨x, mem_of_symbol? hsymbol, rfl, Option.isNone_iff_eq_none.mp hglobal⟩
    have hsame := h.globals r hr s hs x.name (isSome_find?.mp hfound) hkey
    simp [hsame, hc.unit] at hunit
  · exact ⟨_, rfl⟩

theorem stores_of_adopt (hs : s ∈ t.stores) (hc : s.Copied new c) (hok : t.adopt c = .ok t') :
    t'.stores = t.stores.map (swap s c) := by
  have hunit : c.unit = s.unit := hc.unit
  rw [adopt_eq hok, put_old hs (show { c with attached := true }.unit = s.unit from hunit)]
  refine List.map_congr_left fun r _ => ?_
  rw [swap, ← hunit]

/-! ### What names find -/

theorem Distinct.mem_handles_of_resolve (h : t.Distinct) {unit : UnitId} {name : String}
    (hi : t.resolve unit name scope = some i) : i ∈ t.handles := by
  have hstore : ∃ r ∈ t.stores, ∃ scope, r.find? name scope = some i := by
    unfold resolve at hi
    cases hlocal : (t.store? unit).bind (·.lookup name scope) with
    | none =>
      rw [hlocal] at hi
      obtain ⟨r, hr, hfind⟩ := List.exists_of_findSome?_eq_some hi
      exact ⟨r, hr, none, hfind⟩
    | some j =>
      rw [hlocal] at hi
      cases hi
      obtain ⟨r, hr, hlookup⟩ := Option.bind_eq_some_iff.mp hlocal
      refine ⟨r, (mem_of_store? hr).1, ?_⟩
      unfold lookup at hlookup
      cases hfind : r.find? name scope with
      | none =>
        rw [hfind] at hlookup
        exact ⟨none, hlookup⟩
      | some k =>
        rw [hfind] at hlookup
        exact ⟨scope, hfind.trans hlookup⟩
  obtain ⟨r, hr, scope, hfind⟩ := hstore
  obtain ⟨x, hx, -⟩ := find?_eq_some.mp hfind
  exact mem_handles_of_symbol? (h.symbol?_eq_some.mpr ⟨r, hr, hx⟩)

theorem Distinct.symbol?_of_mem_handles (h : t.Distinct) (hi : i ∈ t.handles) :
    ∃ r ∈ t.stores, ∃ x, r.symbol? i = some x ∧ t.symbol? i = some x := by
  obtain ⟨r, hr, hi⟩ := Table.mem_handles.mp hi
  obtain ⟨hstore, hslot⟩ := Store.mem_handles.mp hi
  have hx : r.symbol? i = some r.symbols[i.slot] :=
    Store.symbol?_eq_some.mpr ⟨hstore, List.getElem?_eq_getElem hslot⟩
  exact ⟨r, hr, _, hx, h.symbol?_eq_some.mpr ⟨r, hr, hx⟩⟩

theorem swap_other (hne : r.unit ≠ s.unit) : swap s c r = r :=
  if_neg (by simpa using hne)

theorem swap_self (s c : Store) : swap s c s = { c with attached := true } :=
  if_pos (beq_self_eq_true _)

namespace Exchange

variable (h : t.Exchange s new c t')

include h

theorem eq_of_unit (hr : r ∈ t.stores) (hunit : r.unit = s.unit) : r = s :=
  h.distinct.units r hr s h.store hunit

theorem id_ne (hr : r ∈ t.stores) (hunit : r.unit ≠ s.unit) : r.id ≠ s.id := fun hid =>
  hunit (h.distinct.ids r hr s h.store hid ▸ rfl)

theorem unit_swap (r : Store) : (swap s c r).unit = r.unit := by
  unfold swap
  split
  · rename_i hunit
    exact h.copied.unit.trans (beq_iff_eq.mp hunit).symm
  · rfl

theorem find?_swap (hr : r ∈ t.stores) (name : String) :
    (swap s c r).find? name none = (r.find? name none).map (s.exchanged new) := by
  by_cases hunit : r.unit = s.unit
  · obtain rfl := h.eq_of_unit hr hunit
    rw [swap_self, map_exchanged_own]
    exact h.copied.find? name fun i (hi : i ∈ none) => by cases hi
  · rw [swap_other hunit, map_exchanged_other (h.id_ne hr hunit)]

theorem global? (name : String) : t'.global? name = (t.global? name).map (s.exchanged new) := by
  unfold Table.global?
  rw [h.stores, List.findSome?_map, List.map_findSome?]
  have hstores : ∀ r ∈ t.stores, (swap s c r).find? name none =
      (r.find? name none).map (s.exchanged new) := fun r hr => h.find?_swap hr name
  generalize t.stores = stores at hstores
  induction stores with
  | nil => rfl
  | cons r stores ih =>
    simp only [List.findSome?_cons, Function.comp_apply, hstores r List.mem_cons_self]
    cases r.find? name none with
    | some i => rfl
    | none => exact ih fun q hq => hstores q (List.mem_cons_of_mem _ hq)

theorem lookup_moved (hr : r ∈ t.stores) (name : String)
    (hscope : ∀ i ∈ scope, i ∈ s.globals.map Prod.fst) :
    (swap s c r).lookup name (scope.map (s.place new)) =
      (r.lookup name scope).map (s.exchanged new) := by
  rw [map_lookup, lookup, h.find?_swap hr]
  congr 1
  by_cases hunit : r.unit = s.unit
  · obtain rfl := h.eq_of_unit hr hunit
    rw [swap_self, map_exchanged_own]
    exact h.copied.find? name hscope
  · cases scope with
    | none => exact h.find?_swap hr name
    | some i =>
      -- another store knows neither the old scope nor the new one
      have hold : i ∉ r.globals.map Prod.fst := fun hin => h.id_ne hr hunit
        ((store_of_mem_globals hin).symm.trans (store_of_mem_globals (hscope i rfl)))
      have hmoved : s.place new i ∉ r.globals.map Prod.fst := fun hin =>
        h.unused.stores r hr (store_of_mem_globals hin).symm
      rw [swap_other hunit, Option.map_some, find?_notGlobal name hold, find?_notGlobal name hmoved]
      rfl

theorem lookup_kept (hr : r ∈ t.stores) (name : String)
    (hscope : r.unit = s.unit → ∀ i ∈ scope, i.store ≠ new ∧ i ∉ s.globals.map Prod.fst) :
    (swap s c r).lookup name scope = (r.lookup name scope).map (s.exchanged new) := by
  rw [map_lookup, lookup, h.find?_swap hr]
  congr 1
  by_cases hunit : r.unit = s.unit
  · obtain rfl := h.eq_of_unit hr hunit
    cases scope with
    | none => exact h.find?_swap hr name
    | some i =>
      obtain ⟨hstore, hglobal⟩ := hscope rfl i rfl
      have hnone : (swap r c r).find? name (some i) = none := by
        rw [swap_self]
        exact find?_notGlobal name fun hin =>
          hstore ((store_of_mem_globals hin).trans h.copied.id)
      rw [hnone, find?_notGlobal name hglobal]
      rfl
  · rw [swap_other hunit, map_exchanged_other (h.id_ne hr hunit)]

/-- **What a name means** is exchanged where its store is. -/
theorem resolve {unit : UnitId} {name : String} {scope' : Option SymbolId}
    (hlookup : ∀ r ∈ t.stores, r.unit = unit → (swap s c r).lookup name scope' =
      (r.lookup name scope).map (s.exchanged new)) :
    t'.resolve unit name scope' = (t.resolve unit name scope).map (s.exchanged new) := by
  have hstore : t'.store? unit = (t.store? unit).map (swap s c) := by
    unfold store?
    simp only [h.stores, List.find?_map, Function.comp_def, h.unit_swap]
  unfold Table.resolve
  rw [hstore, h.global?]
  cases hfind : t.store? unit with
  | none => rfl
  | some r =>
    obtain ⟨hr, hunit⟩ := mem_of_store? hfind
    rw [Option.map_some, Option.bind_some, Option.bind_some, hlookup r hr hunit]
    cases r.lookup name scope <;> rfl

/-! ### Symbols and readings -/

theorem distinct_after : t'.Distinct := by
  have hid : (swap s c s).id = new := by
    rw [swap_self]
    exact h.copied.id
  constructor
  · intro p hp q hq hunit
    rw [h.stores] at hp hq
    obtain ⟨a, ha, rfl⟩ := List.mem_map.mp hp
    obtain ⟨b, hb, rfl⟩ := List.mem_map.mp hq
    rw [h.unit_swap, h.unit_swap] at hunit
    rw [h.distinct.units a ha b hb hunit]
  · intro p hp q hq hsame
    rw [h.stores] at hp hq
    obtain ⟨a, ha, rfl⟩ := List.mem_map.mp hp
    obtain ⟨b, hb, rfl⟩ := List.mem_map.mp hq
    by_cases hau : a.unit = s.unit <;> by_cases hbu : b.unit = s.unit
    · rw [h.eq_of_unit ha hau, h.eq_of_unit hb hbu]
    · rw [h.eq_of_unit ha hau, hid, swap_other hbu] at hsame
      exact absurd hsame.symm (h.unused.stores b hb)
    · rw [h.eq_of_unit hb hbu, hid, swap_other hau] at hsame
      exact absurd hsame (h.unused.stores a ha)
    · rw [swap_other hau, swap_other hbu] at hsame ⊢
      exact h.distinct.ids a ha b hb hsame

theorem symbol?_swap (hr : r ∈ t.stores) {x : Symbol} (hx : (swap s c r).symbol? i = some x) :
    t'.symbol? i = some x :=
  h.distinct_after.symbol?_eq_some.mpr ⟨_, h.stores ▸ List.mem_map.mpr ⟨r, hr, rfl⟩, hx⟩

/-- **A symbol of the exchanged store** is in the copy. -/
theorem symbol?_own {x : Symbol} (hx : s.symbol? i = some x) :
    t'.symbol? (s.place new i) = some (x.relocate (s.place new)) := by
  refine h.symbol?_swap h.store ?_
  rw [swap_self]
  exact h.copied.symbol?_place hx

theorem symbol?_other (hr : r ∈ t.stores) (hunit : r.unit ≠ s.unit) {x : Symbol}
    (hx : r.symbol? i = some x) : t'.symbol? i = some x :=
  h.symbol?_swap hr (by rw [swap_other hunit, hx])

/-- **All symbols have their counterparts** after the exchange. -/
theorem relocation : t.Relocation t' (· ∈ t.handles) (s.exchanged new) := by
  constructor
  · intro i j hi hj hsame
    obtain ⟨r, hr, x, hx, -⟩ := h.distinct.symbol?_of_mem_handles hi
    obtain ⟨q, hq, y, hy, -⟩ := h.distinct.symbol?_of_mem_handles hj
    have hri := store_of_symbol? hx
    have hqj := store_of_symbol? hy
    by_cases his : i.store = s.id <;> by_cases hjs : j.store = s.id
    · rw [exchanged_own his, exchanged_own hjs] at hsame
      obtain rfl := h.distinct.ids r hr s h.store (hri.symm.trans his)
      exact (place_inj (mem_ordered.mpr hx)).mp hsame
    · rw [exchanged_own his, exchanged_other hjs] at hsame
      exact absurd (hqj.symm.trans (congrArg SymbolId.store hsame).symm) (h.unused.stores q hq)
    · rw [exchanged_other his, exchanged_own hjs] at hsame
      exact absurd (hri.symm.trans (congrArg SymbolId.store hsame)) (h.unused.stores r hr)
    · rwa [exchanged_other his, exchanged_other hjs] at hsame
  · intro i hi
    obtain ⟨r, hr, x, hx, hsymbol⟩ := h.distinct.symbol?_of_mem_handles hi
    have hlive : ∀ name context j, t.resolve x.unit name context = some j → j ∈ t.handles :=
      fun name context j => h.distinct.mem_handles_of_resolve
    rw [hsymbol]
    by_cases hunit : r.unit = s.unit
    · obtain rfl := h.eq_of_unit hr hunit
      rw [exchanged_own (store_of_symbol? hx), h.symbol?_own hx]
      refine .of_relocate rfl (fun e context hkind name => ?_) hlive
      refine h.resolve fun q hq _ => h.lookup_moved hq name fun j hj => ?_
      exact h.own x (mem_of_symbol? hx) j (Symbol.mem_context? (hj ▸ hkind))
    · have his : i.store ≠ s.id := store_of_symbol? hx ▸ h.id_ne hr hunit
      rw [exchanged_other his, h.symbol?_other hr hunit hx]
      refine .of_relocate (SymbolKind.relocate_id _).symm (fun e context hkind name => ?_) hlive
      rw [Option.map_id, id_eq]
      refine h.resolve fun q hq hqx => h.lookup_kept hq name fun hqs j hj => ?_
      have hmem := mem_of_symbol? hx
      have hcontext := Symbol.mem_context? (hj ▸ hkind)
      exact ⟨h.unused.contexts r hr x hmem j hcontext,
        h.separate r hr hunit x hmem (hqx.symm.trans hqs) j hcontext⟩

/-- **All symbols are read as before.** -/
theorem read {α : Type} (m : Interpretation α) (hi : i ∈ t.handles) :
    t'.read m t'.handles (s.exchanged new i) = t.read m t.handles i := by
  refine h.relocation.read_eq m (fun j hj => ?_) hi
  refine iff_of_true ?_ hj
  obtain ⟨r, hr, x, hx, -⟩ := h.distinct.symbol?_of_mem_handles hj
  by_cases hunit : r.unit = s.unit
  · obtain rfl := h.eq_of_unit hr hunit
    rw [exchanged_own (store_of_symbol? hx)]
    exact mem_handles_of_symbol? (h.symbol?_own hx)
  · rw [exchanged_other (store_of_symbol? hx ▸ h.id_ne hr hunit)]
    exact mem_handles_of_symbol? (h.symbol?_other hr hunit hx)

end Exchange

end Table

/-- **A copy is as good as its store.** Every store as definitions and renamings make it, in
which equations have their contexts, can be copied. The copy is apart from any table, under
the new identity; its walk meets the symbols of the store in their order, each the same as
before but with its scope and its context moved to where the walk of the copy meets them.
And in every table that holds the store, where stores have identities of their own and none has
that of the copy, the copy can be taken in instead. Then all symbols
of the copy, and all symbols of other units, have the values and the weights that they had
before, unless a store of another unit has an equation of this unit with a context in the
store. -/
theorem copied_store_is_interchangeable {s : Store} (hbuilt : s.Built)
    (hown : s.OwnContexts) (new : StoreId) :
    ∃ c, s.copy new = .ok c ∧ c.id = new ∧ c.unit = s.unit ∧ c.attached = false ∧
      c.ordered = s.ordered.map (fun (i, x) => (s.place new i, x.relocate (s.place new))) ∧
      ∀ t : Table, t.Distinct → s ∈ t.stores → t.Unused new → t.Separate s →
        (t.Tidy → ∃ t', t.adopt c = .ok t') ∧
        ∀ t', t.adopt c = .ok t' →
          (∀ i ∈ s.handles, t'.value? (s.place new i) = t.value? i ∧
            t'.weight? (s.place new i) = t.weight? i) ∧
          ∀ r ∈ t.stores, r.unit ≠ s.unit → ∀ i ∈ r.handles, t'.value? i = t.value? i ∧
            t'.weight? i = t.weight? i := by
  obtain ⟨c, hcopy, hc⟩ := hbuilt.plainLocals.exists_copy hown new
  refine ⟨c, hcopy, hc.id, hc.unit, hc.attached, hc.ordered, fun t ht hs hunused hseparate =>
    ⟨fun htidy => htidy.adopt_copied hs hc, fun t' hok => ?_⟩⟩
  have hexchange : t.Exchange s new c t' :=
    ⟨ht, hs, hc, hown, hunused, hseparate, Table.stores_of_adopt hs hc hok⟩
  have hsame : ∀ r ∈ t.stores, ∀ i ∈ r.handles, t'.value? (s.exchanged new i) = t.value? i ∧
      t'.weight? (s.exchanged new i) = t.weight? i := by
    intro r hr i hi
    have hmem : i ∈ t.handles := Table.mem_handles.mpr ⟨r, hr, hi⟩
    exact ⟨hexchange.read _ hmem, hexchange.read _ hmem⟩
  constructor
  · intro i hi
    rw [← Store.exchanged_own (Store.mem_handles.mp hi).1]
    exact hsame s hs i hi
  · intro r hr hunit i hi
    have hother : i.store ≠ s.id := by
      rw [(Store.mem_handles.mp hi).1]
      exact hexchange.id_ne hr hunit
    have hread := hsame r hr i hi
    rwa [Store.exchanged_other hother] at hread

/-- Two symbols with a local `.x` each, and an equation `d` for the second one's. -/
def namesakes : List Symbol :=
  [.label "a" 0 ⟨0, 0, 0, 1⟩, .label "b" 0 ⟨2, 1, 0, 1⟩,
    { Symbol.label ".x" 0 ⟨4, 2, 0, 2⟩ with scope := some ⟨1, 0⟩, kind := .label (some 3) },
    { Symbol.label ".x" 0 ⟨7, 3, 0, 2⟩ with scope := some ⟨1, 1⟩, kind := .label (some 7) },
    .equation "d" 0 ⟨10, 4, 0, 1⟩ (.ident ".x") (some ⟨1, 1⟩)]

def namesakeStore : Store :=
  (namesakes.map StoreEdit.define ++ [StoreEdit.rename ⟨1, 0⟩ "c"]).foldl
    (fun s change => (change.apply s).2) { id := 1, unit := 0, attached := true }

/-- The same symbols, and an equation `y` of another unit for `d`. -/
def namesakeTable : Table :=
  (Workbench.run {} (namesakes.map .define ++ [.rename ⟨1, 0⟩ "c",
    .define (.equation "y" 1 ⟨0, 0, 0, 1⟩ (.ident "d") none)])).table

/-- The copy has `d` at the end of its walk, with its own `b` for a context, and `y` still finds
it. -/
theorem copied_store_is_interchangeable_renamed :
    namesakeStore.Built ∧ namesakeStore.OwnContexts ∧ namesakeTable.Distinct ∧
      namesakeTable.Unused 3 ∧ namesakeTable.Separate namesakeStore ∧
      ∃ c t', namesakeStore.copy 3 = .ok c ∧ namesakeTable.adopt c = .ok t' ∧
        t'.value? ⟨3, 4⟩ = some 7 ∧ t'.value? ⟨2, 0⟩ = some 7 := by
  have hbuilt : namesakeStore.Built := (Store.Built.empty 1 0 true).run _
  have htidy : namesakeTable.Tidy := (Workbench.tidy_new.run _).table
  have hdistinct : namesakeTable.Distinct := ⟨by decide +kernel, by decide +kernel⟩
  have hown : namesakeStore.OwnContexts := by
    unfold Store.OwnContexts
    decide +kernel
  have hunused : namesakeTable.Unused 3 := ⟨by decide +kernel, by decide +kernel⟩
  have hseparate : namesakeTable.Separate namesakeStore := by
    unfold Table.Separate
    decide +kernel
  obtain ⟨c, hcopy, -, -, -, -, hinto⟩ := copied_store_is_interchangeable hbuilt hown 3
  have hmem : namesakeStore ∈ namesakeTable.stores := by decide +kernel
  obtain ⟨hadopt, hsame⟩ := hinto namesakeTable hdistinct hmem hunused hseparate
  obtain ⟨t', hok⟩ := hadopt htidy
  obtain ⟨hcopied, hothers⟩ := hsame t' hok
  have hreader : ∃ r ∈ namesakeTable.stores, r.unit ≠ namesakeStore.unit ∧ ⟨2, 0⟩ ∈ r.handles := by
    decide +kernel
  have hd : namesakeTable.value? ⟨1, 4⟩ = some 7 := by decide +kernel
  have hy : namesakeTable.value? ⟨2, 0⟩ = some 7 := by decide +kernel
  have hplace : namesakeStore.place 3 ⟨1, 4⟩ = ⟨3, 4⟩ := by decide +kernel
  refine ⟨hbuilt, hown, hdistinct, hunused, hseparate, c, t', hcopy, hok, ?_, ?_⟩
  · rw [← hplace, (hcopied ⟨1, 4⟩ (by decide +kernel)).1, hd]
  · obtain ⟨r, hr, hunit, hi⟩ := hreader
    rw [(hothers r hr hunit _ hi).1, hy]

/-- `.a` at 5 under `g`. -/
def lent : List Symbol :=
  [.label "g" 0 ⟨0, 0, 0, 1⟩,
    { Symbol.label ".a" 0 ⟨2, 1, 0, 2⟩ with scope := some ⟨1, 0⟩, kind := .label (some 5) }]

/-- The store of unit 1, made apart from the table, has an equation `e` for `.a` that names unit 0
and has `g` for its context, and an equation `x` for `e`. -/
def borrowing : List TableStep :=
  lent.map .define ++ [.create 1,
    .edit 0 (.define (.equation "e" 0 ⟨0, 0, 0, 1⟩ (.ident ".a") (some ⟨1, 0⟩))),
    .edit 0 (.define (.equation "x" 1 ⟨0, 1, 0, 1⟩ (.ident "e") none)), .adopt 0]

/-- The copy of unit 0 is made when identities have gone round, and has that of unit 1. -/
def repeatedIdentity : List TableStep :=
  [.define { Symbol.label "g" 0 ⟨0, 0, 0, 1⟩ with kind := .label (some 5) },
    .define { Symbol.label "h" 1 ⟨0, 0, 0, 1⟩ with kind := .label (some 7) },
    .elsewhere 0xFFFFFFFF, .copyUnit 0]

/-- **A context in an exchanged store is lost** to an equation elsewhere: `x`, of another unit,
has a value, and has none after the store of unit 0 has been exchanged for its copy. And where
the copy has the identity of another store, a symbol there takes the value of one of the copy. -/
theorem exchanged_store_strands_context :
    (let t := (Workbench.run {} borrowing).table
    t.Tidy ∧ t.Distinct ∧ t.Unused 3 ∧ ∃ s ∈ t.stores, s.Built ∧ s.OwnContexts ∧ s.unit = 0 ∧
      (t.symbol? ⟨2, 1⟩).map Symbol.unit = some 1 ∧ t.value? ⟨2, 1⟩ = some 5 ∧
      ((s.copy 3).bind t.adopt).map (·.value? ⟨2, 1⟩) = .ok none) ∧
    let d := Workbench.run {} repeatedIdentity
    (d.table.symbol? ⟨2, 0⟩).map Symbol.unit = some 1 ∧ d.table.value? ⟨2, 0⟩ = some 7 ∧
      (d.step (.adopt 0)).1 = .ok () ∧ (d.step (.adopt 0)).2.table.value? ⟨2, 0⟩ = some 5 := by
  constructor
  · intro t
    let s : Store := (lent.map StoreEdit.define).foldl (fun s change => (change.apply s).2)
      { id := 1, unit := 0, attached := true }
    refine ⟨(Workbench.tidy_new.run _).table, ⟨by decide +kernel, by decide +kernel⟩,
      ⟨by decide +kernel, by decide +kernel⟩, s, by decide +kernel,
      (Store.Built.empty 1 0 true).run _, ?_, by decide +kernel, by decide +kernel,
      by decide +kernel, by decide +kernel⟩
    unfold Store.OwnContexts
    decide +kernel
  · decide +kernel

end WordAsm
