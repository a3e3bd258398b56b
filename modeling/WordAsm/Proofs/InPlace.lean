/-
# Changing symbols in place

Labels get addresses and equations lose their expressions, while names, scopes and
handles stay. `Table.mapKinds` changes all symbols of a table at once, each
by its handle; one change after another adds up to one such change
(`Table.modify_mapKinds`), and names are found where they were
(`Table.resolve_mapKinds`).
-/
import WordAsm.Proofs.Definitions
import WordAsm.Proofs.TablePairs

namespace WordAsm

open List

variable (f : SymbolId → SymbolKind → SymbolKind)

namespace Store

variable (s : Store)

theorem handles_mapKinds : (s.mapKinds f).handles = s.handles := by
  simp [handles, mapKinds, handle]

theorem mapKinds_id : s.mapKinds (fun _ kind => kind) = s :=
  eq_of_symbols rfl rfl rfl (ext_getElem? fun slot => by simp [mapKinds, Symbol.mapKind])

theorem mapKinds_mapKinds (g : SymbolId → SymbolKind → SymbolKind) :
    (s.mapKinds f).mapKinds g = s.mapKinds fun i kind => g i (f i kind) :=
  eq_of_symbols rfl rfl rfl
    (ext_getElem? fun slot => by simp [mapKinds, Symbol.mapKind, handle, Function.comp_def])

theorem find?_mapKinds (name : String) (scope : Option SymbolId) :
    (s.mapKinds f).find? name scope = s.find? name scope :=
  find?_congr s (s.mapKinds f) rfl (s.keys_mapKinds f) name scope

theorem lookup_mapKinds (name : String) (scope : Option SymbolId) :
    (s.mapKinds f).lookup name scope = s.lookup name scope := by
  unfold lookup
  rw [find?_mapKinds, find?_mapKinds]

end Store

namespace Table

variable (t : Table)

theorem handles_mapKinds : (t.mapKinds f).handles = t.handles := by
  simp [handles, mapKinds, flatMap_map, Store.handles_mapKinds]

theorem owner?_mapKinds (id : SymbolId) :
    (t.mapKinds f).owner? id = (t.owner? id).map (·.mapKinds f) :=
  find?_map

theorem symbol?_mapKinds (id : SymbolId) :
    (t.mapKinds f).symbol? id = (t.symbol? id).map (Symbol.mapKind (f id)) := by
  unfold symbol?
  rw [owner?_mapKinds]
  cases t.owner? id with
  | none => rfl
  | some s => exact s.symbol?_mapKinds f id

theorem mapKinds_id : t.mapKinds (fun _ kind => kind) = t := by
  simp [mapKinds, Store.mapKinds_id]

theorem mapKinds_mapKinds (g : SymbolId → SymbolKind → SymbolKind) :
    (t.mapKinds f).mapKinds g = t.mapKinds fun i kind => g i (f i kind) := by
  simp [mapKinds, Store.mapKinds_mapKinds]

/-- **A change of one symbol after a change of all** is a change of all. -/
theorem modify_mapKinds (id : SymbolId) (g : SymbolKind → SymbolKind) : (t.mapKinds f).modify id g =
      t.mapKinds fun i kind => if i = id then g (f i kind) else f i kind :=
  t.mapKinds_mapKinds f _

theorem store?_mapKinds (unit : UnitId) :
    (t.mapKinds f).store? unit = (t.store? unit).map (·.mapKinds f) :=
  find?_map

variable {t} in
theorem Sound.mapStores (h : t.Sound) {change : Store → Store}
    (hchange : ∀ s, (change s).id = s.id ∧ (change s).unit = s.unit) :
    ({ t with stores := t.stores.map change } : Table).Sound := by
  refine ⟨⟨fun s hs r hr hu => ?_, fun s hs r hr hi => ?_⟩, fun s hs => ?_⟩
  · obtain ⟨a, ha, rfl⟩ := mem_map.mp hs
    obtain ⟨b, hb, rfl⟩ := mem_map.mp hr
    rw [(hchange a).2, (hchange b).2] at hu
    rw [h.units a ha b hb hu]
  · obtain ⟨a, ha, rfl⟩ := mem_map.mp hs
    obtain ⟨b, hb, rfl⟩ := mem_map.mp hr
    rw [(hchange a).1, (hchange b).1] at hi
    rw [h.ids a ha b hb hi]
  · obtain ⟨a, ha, rfl⟩ := mem_map.mp hs
    rw [(hchange a).1]
    exact h.supply a ha

variable {t} in
theorem Sound.mapKinds (h : t.Sound) : (t.mapKinds f).Sound :=
  h.mapStores fun _ => ⟨rfl, rfl⟩

/-- **Names are found where they were.** -/
theorem resolve_mapKinds (unit : UnitId) (name : String) (scope : Option SymbolId) :
    (t.mapKinds f).resolve unit name scope = t.resolve unit name scope := by
  have hglobal : (t.mapKinds f).global? name = t.global? name := by
    simp [global?, mapKinds, findSome?_map, Function.comp_def, Store.find?_mapKinds]
  unfold resolve
  rw [hglobal, store?_mapKinds]
  cases t.store? unit with
  | none => rfl
  | some s => rw [Option.map_some, Option.bind_some, Option.bind_some, s.lookup_mapKinds]

end Table

end WordAsm
