/-
# What a definition does to a symbol table

A symbol is refused because its name is taken or its scope is wrong, and for no
other reason (`define_cases`). A symbol that is accepted gets a handle of its
own (`define_fresh`), and a global name is taken from then on
(`global?_define_self`).
-/
import WordAsm.Proofs.StoreNames
import WordAsm.Symbols.Table
import Mathlib.Data.List.Basic

namespace WordAsm

open List

variable {s : Store} {id : SymbolId} {symbol : Symbol}

namespace Store

theorem eq_of_define {s' : Store} (h : s.define symbol = .ok (id, s')) :
    id = s.handle s.symbols.length ∧ s.Becomes (s.symbols ++ [symbol]) s' := by
  rcases s.define_cases symbol with ⟨-, he⟩ | ⟨-, ⟨-, he⟩ | ⟨-, r, he, hr⟩⟩ <;>
    rw [h] at he <;> cases he
  exact ⟨rfl, hr⟩

theorem Becomes.find?_isSome {s' : Store} {more : List Symbol} {name : String}
    {scope : Option SymbolId} (h : s.Becomes (s.symbols ++ more) s')
    (hfind : (s.find? name scope).isSome) : (s'.find? name scope).isSome := by
  rw [isSome_find?] at hfind ⊢
  rw [keys, h.symbols, map_append]
  exact mem_append_left _ hfind

end Store

namespace Table

variable {store : Store} {Q : Symbol → Prop} {name : String} {t t' : Table}

theorem mem_handles {i : SymbolId} : i ∈ t.handles ↔ ∃ s ∈ t.stores, i ∈ s.handles := by
  unfold handles
  rw [mem_flatMap]

theorem mem_handles_of_symbol? (h : t.symbol? id = some symbol) : id ∈ t.handles := by
  obtain ⟨s, ho, hs⟩ := Option.bind_eq_some_iff.mp h
  obtain ⟨hstore, hslot⟩ := Store.symbol?_eq_some.mp hs
  refine mem_handles.mpr ⟨s, mem_of_find?_eq_some ho, ?_⟩
  exact Store.mem_handles.mpr ⟨hstore, (List.getElem?_eq_some_iff.mp hslot).1⟩

/-! ### Stores that are put in -/

theorem supply_put (t : Table) (store : Store) : (t.put store).supply = t.supply := by
  unfold put
  split <;> rfl

theorem put_new (store : Store) (h : ∀ s ∈ t.stores, s.unit ≠ store.unit) :
    t.put store = { t with stores := t.stores ++ [store] } := by
  have hany : ¬ t.stores.any (·.unit == store.unit) = true := by
    rw [any_eq_true]
    rintro ⟨s, hs, hu⟩
    exact h s hs (beq_iff_eq.mp hu)
  unfold put
  rw [if_neg hany]

theorem put_old (hs : s ∈ t.stores) (hunit : store.unit = s.unit) : t.put store =
    { t with stores := t.stores.map fun r => if r.unit == store.unit then store else r } := by
  have hany : t.stores.any (·.unit == store.unit) = true :=
    any_eq_true.mpr ⟨s, hs, beq_iff_eq.mpr hunit.symm⟩
  unfold put
  rw [if_pos hany]

theorem mem_put : s ∈ (t.put store).stores ↔ s = store ∨ s ∈ t.stores ∧ s.unit ≠ store.unit := by
  by_cases h : ∃ r ∈ t.stores, r.unit = store.unit
  · obtain ⟨r, hr, hunit⟩ := h
    rw [put_old hr hunit.symm, mem_map]
    constructor
    · rintro ⟨q, hq, rfl⟩
      by_cases hu : q.unit = store.unit
      · exact .inl (by rw [if_pos (beq_iff_eq.mpr hu)])
      · rw [if_neg (by simpa using hu)]
        exact .inr ⟨hq, hu⟩
    · rintro (rfl | ⟨hs, hne⟩)
      · exact ⟨r, hr, by rw [if_pos (beq_iff_eq.mpr hunit)]⟩
      · exact ⟨s, hs, by rw [if_neg (by simpa using hne)]⟩
  · have hne : ∀ r ∈ t.stores, r.unit ≠ store.unit := fun r hr hu => h ⟨r, hr, hu⟩
    rw [put_new store hne, mem_append, mem_singleton]
    exact ⟨fun hs => hs.symm.imp_right fun hs => ⟨hs, hne s hs⟩, fun hs => hs.symm.imp_left And.left⟩

/-- Stores are told apart by their units and by their identities. -/
structure Distinct (t : Table) : Prop where
  units : ∀ s ∈ t.stores, ∀ r ∈ t.stores, s.unit = r.unit → s = r
  ids : ∀ s ∈ t.stores, ∀ r ∈ t.stores, s.id = r.id → s = r

/-- The supply of identities is ahead of those of the stores. -/
structure Sound (t : Table) : Prop extends t.Distinct where
  supply : ∀ s ∈ t.stores, s.id < t.supply

theorem sound_of_nil (h : t.stores = []) : t.Sound := by
  refine ⟨⟨?_, ?_⟩, ?_⟩ <;> simp [h]

theorem Distinct.put (h : t.Distinct)
    (hid : ∀ r ∈ t.stores, r.id = store.id → r.unit = store.unit) : (t.put store).Distinct := by
  refine ⟨fun a ha b hb hu => ?_, fun a ha b hb hi => ?_⟩
  · rcases mem_put.mp ha with rfl | ⟨hat, hne⟩ <;> rcases mem_put.mp hb with rfl | ⟨hbt, hne'⟩
    · rfl
    · exact absurd hu.symm hne'
    · exact absurd hu hne
    · exact h.units a hat b hbt hu
  · rcases mem_put.mp ha with rfl | ⟨hat, hne⟩ <;> rcases mem_put.mp hb with rfl | ⟨hbt, hne'⟩
    · rfl
    · exact absurd (hid b hbt hi.symm) hne'
    · exact absurd (hid a hat hi) hne
    · exact h.ids a hat b hbt hi

theorem Sound.put (h : t.Sound) (hid : ∀ r ∈ t.stores, r.id = store.id → r.unit = store.unit)
    (hnew : store.id < t.supply) : (t.put store).Sound := by
  refine ⟨h.toDistinct.put hid, fun a ha => ?_⟩
  rw [supply_put]
  rcases mem_put.mp ha with rfl | ⟨hat, -⟩
  · exact hnew
  · exact h.supply a hat

theorem mem_of_store? {unit : UnitId} (h : t.store? unit = some s) :
    s ∈ t.stores ∧ s.unit = unit := by
  have hunit := find?_some h
  exact ⟨mem_of_find?_eq_some h, beq_iff_eq.mp hunit⟩

theorem Distinct.store?_eq (h : t.Distinct) (hs : s ∈ t.stores) : t.store? s.unit = some s := by
  unfold store?
  cases hfind : t.stores.find? (·.unit == s.unit) with
  | none => exact absurd (beq_self_eq_true s.unit) (List.find?_eq_none.mp hfind s hs)
  | some r =>
    have hunit := find?_some hfind
    exact congrArg some
      (h.units r (mem_of_find?_eq_some hfind) s hs (beq_iff_eq.mp hunit))

theorem mem_of_owner? (h : t.owner? id = some s) : s ∈ t.stores ∧ s.id = id.store := by
  have hstore := find?_some h
  exact ⟨mem_of_find?_eq_some h, beq_iff_eq.mp hstore⟩

theorem Distinct.owner?_eq (h : t.Distinct) (hs : s ∈ t.stores) (hid : id.store = s.id) :
    t.owner? id = some s := by
  cases hfind : t.owner? id with
  | none => exact absurd (beq_iff_eq.mpr hid.symm) (List.find?_eq_none.mp hfind s hs)
  | some r =>
    obtain ⟨hr, hstore⟩ := mem_of_owner? hfind
    exact congrArg some (h.ids r hr s hs (hstore.trans hid))

theorem Distinct.symbol?_eq_some (h : t.Distinct) :
    t.symbol? id = some symbol ↔ ∃ s ∈ t.stores, s.symbol? id = some symbol := by
  constructor
  · intro hx
    obtain ⟨s, howner, hs⟩ := Option.bind_eq_some_iff.mp hx
    exact ⟨s, (mem_of_owner? howner).1, hs⟩
  · rintro ⟨s, hs, hx⟩
    exact Option.bind_eq_some_iff.mpr ⟨s, h.owner?_eq hs (Store.store_of_symbol? hx), hx⟩

theorem register_cases (t : Table) (unit : UnitId) :
    (∃ s ∈ t.stores, s.unit = unit ∧ t.register unit = (s, t)) ∨
    ((∀ s ∈ t.stores, s.unit ≠ unit) ∧
      t.register unit = ({ id := t.supply, unit, attached := true },
        { stores := t.stores ++ [{ id := t.supply, unit, attached := true }]
          supply := t.supply + 1 })) := by
  unfold register
  cases h : t.store? unit with
  | some s =>
    obtain ⟨hs, hunit⟩ := mem_of_store? h
    exact .inl ⟨s, hs, hunit, rfl⟩
  | none =>
    have hne : ∀ s ∈ t.stores, s.unit ≠ unit := by
      intro s hs
      have hs' := List.find?_eq_none.mp h s hs
      simpa using hs'
    exact .inr ⟨hne, congrArg (Prod.mk _) (put_new (t := t.fresh.2) _ hne)⟩

theorem register_spec (t : Table) (unit : UnitId) :
    (t.register unit).1 ∈ (t.register unit).2.stores ∧ (t.register unit).1.unit = unit ∧
    (∀ s ∈ t.stores, s ∈ (t.register unit).2.stores) ∧
    (∀ s ∈ (t.register unit).2.stores, s ∈ t.stores ∨ s.symbols = [] ∧ s.id = t.supply) := by
  rcases t.register_cases unit with ⟨s, hs, hunit, heq⟩ | ⟨hne, heq⟩
  · rw [heq]
    exact ⟨hs, hunit, fun _ h => h, fun _ h => .inl h⟩
  · rw [heq]
    refine ⟨by simp, rfl, fun s hs => mem_append_left _ hs, fun s hs => ?_⟩
    rcases mem_append.mp hs with hs | hs
    · exact .inl hs
    · exact .inr (by simp [mem_singleton.mp hs])

theorem Sound.register (h : t.Sound) (unit : UnitId) : (t.register unit).2.Sound := by
  have hfresh : t.fresh.2.Sound :=
    ⟨⟨h.units, h.ids⟩, fun s hs => Nat.lt_succ_of_lt (h.supply s hs)⟩
  unfold Table.register
  cases t.store? unit with
  | some s => exact h
  | none =>
    exact hfresh.put (fun r hr hi => absurd hi (Nat.ne_of_lt (h.supply r hr))) (Nat.lt_succ_self _)

/-! ### What a table makes of a symbol -/

/-- **What a table makes of a symbol**: it refuses it because of its name or its
scope, or appends it to the store of its unit. -/
theorem define_cases (t : Table) (symbol : Symbol) :
    (∃ e, (e = .duplicateSymbol symbol.name ∨ e = .invalidScope symbol.name) ∧
      (t.define symbol = (.error e, t) ∨
        t.define symbol = (.error e, (t.register symbol.unit).2))) ∨
    (((symbol.isGlobal = true → t.global? symbol.name = none) ∧
        (t.register symbol.unit).1.admits symbol = true) ∧
      ∃ s, (t.register symbol.unit).1.Becomes ((t.register symbol.unit).1.symbols ++ [symbol]) s ∧
        t.define symbol =
          (.ok ((t.register symbol.unit).1.handle (t.register symbol.unit).1.symbols.length),
            (t.register symbol.unit).2.put s)) := by
  unfold define
  split
  · exact .inl ⟨_, .inl rfl, .inl rfl⟩
  · rename_i hfree
    have hglobal : symbol.isGlobal = true → t.global? symbol.name = none := by
      intro hg
      simpa [hg] using hfree
    rcases (t.register symbol.unit).1.define_cases symbol with ⟨-, h⟩ | ⟨hadmits, ⟨-, h⟩ | ⟨-, s, h, hs⟩⟩
    · exact .inl ⟨_, .inr rfl, .inr (by simp only [h])⟩
    · exact .inl ⟨_, .inl rfl, .inr (by simp only [h])⟩
    · exact .inr ⟨⟨hglobal, hadmits⟩, s, hs, by simp only [h]⟩

/-- Where the stores come from: each is as it was, or new and empty, or is that of the
unit and has accepted the symbol. -/
theorem define_stores (t : Table) (symbol : Symbol) (hs : s ∈ (t.define symbol).2.stores) :
    ∃ r, (r ∈ t.stores ∨ r.symbols = [] ∧ r.id = t.supply) ∧
      (s = r ∨ r.unit = symbol.unit ∧
        ∃ id, (t.define symbol).1 = .ok id ∧ r.define symbol = .ok (id, s)) := by
  obtain ⟨hmem, hunit, -, hold⟩ := t.register_spec symbol.unit
  unfold define at hs ⊢
  split at hs
  · exact ⟨s, .inl hs, .inl rfl⟩
  · rename_i hfree
    rw [if_neg hfree]
    simp only at hs ⊢
    cases hdefine : (t.register symbol.unit).1.define symbol with
    | error e =>
      rw [hdefine] at hs
      exact ⟨s, hold s hs, .inl rfl⟩
    | ok result =>
      rw [hdefine] at hs
      rcases mem_put.mp hs with rfl | ⟨hs, -⟩
      · exact ⟨_, hold _ hmem, .inr ⟨hunit, result.1, rfl, hdefine⟩⟩
      · exact ⟨s, hold s hs, .inl rfl⟩

theorem mem_define (h : t.Sound) (symbol : Symbol) (hs : s ∈ t.stores) :
    ∃ more, ∃ s' ∈ (t.define symbol).2.stores, s.Becomes (s.symbols ++ more) s' := by
  obtain ⟨hmem, hunit, hsub, -⟩ := t.register_spec symbol.unit
  have hself : s.Becomes (s.symbols ++ []) s := ⟨rfl, rfl, rfl, (append_nil _).symm⟩
  rcases t.define_cases symbol with ⟨e, -, heq | heq⟩ | ⟨-, s', hs', heq⟩ <;> rw [heq]
  · exact ⟨[], s, hs, hself⟩
  · exact ⟨[], s, hsub s hs, hself⟩
  · by_cases hu : s.unit = symbol.unit
    · obtain rfl := (h.register symbol.unit).units s (hsub s hs) _ hmem (hu.trans hunit.symm)
      exact ⟨[symbol], s', mem_put.mpr (.inl rfl), hs'⟩
    · exact ⟨[], s, mem_put.mpr (.inr ⟨hsub s hs, fun hsame => hu (hsame.trans (hs'.unit.trans hunit))⟩),
        hself⟩

theorem define_accepted (hok : t.define symbol = (.ok id, t')) :
    (symbol.isGlobal = true → t.global? symbol.name = none) ∧
    ∃ s ∈ (t.register symbol.unit).2.stores, id = s.handle s.symbols.length ∧
      ∃ s' ∈ t'.stores, s.Becomes (s.symbols ++ [symbol]) s' := by
  rcases t.define_cases symbol with ⟨e, -, heq | heq⟩ | ⟨⟨hfree, -⟩, s', hs', heq⟩ <;> rw [heq] at hok <;>
    cases hok
  exact ⟨hfree, _, (t.register_spec symbol.unit).1, rfl, s', mem_put.mpr (.inl rfl), hs'⟩

/-! ### What definitions keep -/

theorem Sound.define (h : t.Sound) (symbol : Symbol) : (t.define symbol).2.Sound := by
  obtain ⟨hmem, -⟩ := t.register_spec symbol.unit
  have hr := h.register symbol.unit
  rcases t.define_cases symbol with ⟨e, -, heq | heq⟩ | ⟨-, s, hs, heq⟩ <;> rw [heq]
  · exact h
  · exact hr
  · refine hr.put (fun r hr' hi => ?_) (hs.id ▸ hr.supply (t.register symbol.unit).1 hmem)
    rw [hr.ids r hr' (t.register symbol.unit).1 hmem (hi.trans hs.id), hs.unit]

def All (Q : Symbol → Prop) (t : Table) : Prop :=
  ∀ s ∈ t.stores, ∀ symbol ∈ s.symbols, Q symbol

theorem All.define (h : t.All Q) (hq : Q symbol) : (t.define symbol).2.All Q := by
  intro s hs x hx
  obtain ⟨r, hr, hs⟩ := t.define_stores symbol hs
  have hold : ∀ x ∈ r.symbols, Q x := by
    rcases hr with hr | ⟨hnil, -⟩
    · exact h r hr
    · simp [hnil]
  rcases hs with rfl | ⟨-, _, -, hdefine⟩
  · exact hold x hx
  · rw [(Store.eq_of_define hdefine).2.symbols] at hx
    rcases mem_append.mp hx with hx | hx
    · exact hold x hx
    · rw [mem_singleton.mp hx]
      exact hq

theorem All.symbol? (h : t.All Q) (hs : t.symbol? id = some symbol) : Q symbol := by
  obtain ⟨s, ho, hs⟩ := Option.bind_eq_some_iff.mp hs
  exact h s (mem_of_find?_eq_some ho) symbol
    (mem_of_getElem? (Store.symbol?_eq_some.mp hs).2)

/-! ### What definitions add -/

/-- **An accepted symbol has a handle of its own**, and keeps it. -/
theorem define_fresh (h : t.Sound) (hok : t.define symbol = (.ok id, t')) :
    id ∉ t.handles ∧ id ∈ t'.handles := by
  obtain ⟨-, s, hs, rfl, s', hmem, hs'⟩ := define_accepted hok
  constructor
  · intro hold
    obtain ⟨r, hr, hi⟩ := mem_handles.mp hold
    obtain ⟨hstore, hslot⟩ := Store.mem_handles.mp hi
    have hsub := (t.register_spec symbol.unit).2.2.1
    rw [← (h.register symbol.unit).ids s hs r (hsub r hr) hstore] at hslot
    exact absurd hslot (Nat.lt_irrefl _)
  · refine mem_handles.mpr ⟨s', hmem, Store.mem_handles.mpr ⟨hs'.id.symm, ?_⟩⟩
    simp [Store.handle, hs'.symbols]

theorem handles_define (h : t.Sound) (symbol : Symbol) :
    t.handles ⊆ (t.define symbol).2.handles := by
  intro i hi
  obtain ⟨s, hs, hi⟩ := mem_handles.mp hi
  obtain ⟨more, s', hmem, hs'⟩ := mem_define h symbol hs
  obtain ⟨hstore, hslot⟩ := Store.mem_handles.mp hi
  refine mem_handles.mpr ⟨s', hmem, Store.mem_handles.mpr ⟨hstore.trans hs'.id.symm, ?_⟩⟩
  rw [hs'.symbols, length_append]
  exact Nat.lt_add_right _ hslot

theorem global?_isSome : (t.global? name).isSome ↔ ∃ s ∈ t.stores, (s.find? name none).isSome := by
  unfold global?
  rw [isSome_findSome?, any_eq_true]

theorem global?_define (h : t.Sound) (symbol : Symbol) (hn : (t.global? name).isSome) :
    ((t.define symbol).2.global? name).isSome := by
  obtain ⟨s, hs, hfind⟩ := global?_isSome.mp hn
  obtain ⟨more, s', hmem, hs'⟩ := mem_define h symbol hs
  exact global?_isSome.mpr ⟨s', hmem, hs'.find?_isSome hfind⟩

theorem global?_define_self (hok : t.define symbol = (.ok id, t')) (hg : symbol.isGlobal = true) :
    t.global? symbol.name = none ∧ (t'.global? symbol.name).isSome := by
  obtain ⟨hfree, s, -, -, s', hmem, hs'⟩ := define_accepted hok
  refine ⟨hfree hg, global?_isSome.mpr ⟨s', hmem, Store.isSome_find?.mpr ?_⟩⟩
  rw [Store.keys, hs'.symbols, map_append, ← Option.isNone_iff_eq_none.mp hg]
  exact mem_append_right _ (mem_singleton.mpr rfl)

end Table

end WordAsm
