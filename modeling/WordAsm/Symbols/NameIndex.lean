/-
# Names in step with symbols

A store keeps every name in two places: with its symbol, and in a map from names to slots,
which is the map of the globals or that of the locals of one global. The maps are in step
(`NamesInStep`) if they are what can be read off the names and scopes of the symbols, and
stay so when a symbol is added or gets another name.
-/
import WordAsm.Symbols.IndexMap
import WordAsm.Symbols.Symbol

namespace WordAsm

open List

/-- What a symbol is found by: a name, and the scope in which it is used. -/
structure SymbolKey where
  name : String
  scope : Option SymbolId
  deriving DecidableEq

def Symbol.key (symbol : Symbol) : SymbolKey := ⟨symbol.name, symbol.scope⟩

/-- The slot of the global that the symbol is under. -/
def SymbolKey.parent? (key : SymbolKey) : Option Nat := key.scope.map SymbolId.slot

/-- The slots of the symbols under a global, or of the globals, by their names. -/
def slotsUnder (keys : List SymbolKey) (parent : Option Nat) : IndexMap String Nat :=
  (keys.zipIdx.filter fun (key, _) => key.parent? = parent).map fun (key, slot) => (key.name, slot)

/-- The slots of the globals that have locals. -/
def parents (keys : List SymbolKey) : List Nat := (keys.filterMap SymbolKey.parent?).eraseDups

def localSlots (keys : List SymbolKey) : IndexMap Nat (IndexMap String Nat) :=
  (parents keys).map fun parent => (parent, slotsUnder keys (some parent))

/-- Whether a scope is a global of the store. -/
def IsGlobal (id : StoreId) (keys : List SymbolKey) (scope : SymbolId) : Prop :=
  scope.store = id ∧ ∃ name, keys[scope.slot]? = some ⟨name, none⟩

/-- No name is used twice in a scope, every local is under a global of the store, and the
maps have the slot of every name. -/
structure NamesInStep (id : StoreId) (keys : List SymbolKey) (globals : IndexMap String Nat)
    (locals : IndexMap Nat (IndexMap String Nat)) : Prop where
  distinct : keys.Nodup
  outer : ∀ key ∈ keys, ∀ scope, key.scope = some scope → IsGlobal id keys scope
  globals : globals = slotsUnder keys none
  locals : locals = localSlots keys

/-! ### The maps that go with a list of keys -/

variable {id : StoreId} {keys : List SymbolKey} {key : SymbolKey} {name new : String}
  {parent : Option Nat} {slot p : Nat}

theorem mem_slotsUnder : (name, slot) ∈ slotsUnder keys parent ↔
    ∃ key, keys[slot]? = some key ∧ key.name = name ∧ key.parent? = parent := by
  simp only [slotsUnder, mem_map, mem_filter, decide_eq_true_eq, Prod.exists]
  constructor
  · rintro ⟨key, i, ⟨hmem, hparent⟩, hentry⟩
    cases hentry
    exact ⟨key, mk_mem_zipIdx_iff_getElem?.mp hmem, rfl, hparent⟩
  · rintro ⟨key, hkey, rfl, hparent⟩
    exact ⟨key, slot, ⟨mk_mem_zipIdx_iff_getElem?.mpr hkey, hparent⟩, rfl⟩

theorem mem_names_slotsUnder : name ∈ (slotsUnder keys parent).map Prod.fst ↔
    ∃ key ∈ keys, key.name = name ∧ key.parent? = parent := by
  simp only [mem_map, Prod.exists, exists_and_right, exists_eq_right, mem_slotsUnder]
  constructor
  · rintro ⟨slot, key, hkey, h⟩
    exact ⟨key, mem_of_getElem? hkey, h⟩
  · rintro ⟨key, hkey, h⟩
    obtain ⟨slot, hslot⟩ := mem_iff_getElem?.mp hkey
    exact ⟨slot, key, hslot, h⟩

theorem slotsUnder_concat : slotsUnder (keys ++ [key]) parent =
    slotsUnder keys parent ++ if key.parent? = parent then [(key.name, keys.length)] else [] := by
  by_cases h : key.parent? = parent <;>
    simp [slotsUnder, zipIdx_append, filter_append, h]

theorem nodup_slots : ((slotsUnder keys parent).map Prod.snd).Nodup := by
  have hsub : List.Sublist ((slotsUnder keys parent).map Prod.snd) (keys.zipIdx.map Prod.snd) := by
    rw [slotsUnder, map_map]
    exact (filter_sublist).map Prod.snd
  rw [zipIdx_map_snd] at hsub
  exact hsub.nodup nodup_range'

theorem mem_parents : p ∈ parents keys ↔ ∃ key ∈ keys, key.parent? = some p := by
  simp [parents]

theorem parents_concat : parents (keys ++ [key]) = match key.parent? with
    | some p => if p ∈ parents keys then parents keys else parents keys ++ [p]
    | none => parents keys := by
  cases h : key.parent? with
  | none => simp [parents, h]
  | some p =>
    simp only [parents, filterMap_append, filterMap_cons, filterMap_nil, h,
      eraseDups_append, mem_eraseDups]
    generalize keys.filterMap SymbolKey.parent? = ps
    by_cases hin : p ∈ ps
    · simp [removeAll, hin]
    · simp [removeAll, hin, eraseDups_cons]

theorem slotsUnder_of_notMem_parents (h : p ∉ parents keys) : slotsUnder keys (some p) = [] := by
  refine eq_nil_iff_forall_not_mem.mpr fun ⟨name, slot⟩ hentry => h ?_
  obtain ⟨key, hkey, -, hparent⟩ := mem_slotsUnder.mp hentry
  exact mem_parents.mpr ⟨key, mem_of_getElem? hkey, hparent⟩

theorem names_localSlots : (localSlots keys).map Prod.fst = parents keys := by
  simp [localSlots, Function.comp_def]

theorem get?_localSlots :
    (localSlots keys).get? p = if p ∈ parents keys then some (slotsUnder keys (some p)) else none := by
  unfold localSlots IndexMap.get?
  induction parents keys with
  | nil => rfl
  | cons q ps ih =>
    by_cases h : p = q
    · simp [h]
    · simp [lookup_cons, h, beq_eq_false_iff_ne.mpr h, ih]

theorem getD_localSlots : ((localSlots keys).get? p).getD [] = slotsUnder keys (some p) := by
  rw [get?_localSlots]
  split
  · rfl
  · rename_i h
    rw [slotsUnder_of_notMem_parents h]
    rfl

/-! ### A new name for a symbol -/

theorem zipIdx_set : (keys.set slot key).zipIdx =
    keys.zipIdx.map fun (k, i) => if i = slot then (key, i) else (k, i) := by
  refine ext_getElem? fun i => ?_
  rw [getElem?_map, getElem?_zipIdx, getElem?_zipIdx, getElem?_set]
  by_cases h : slot = i
  · subst h
    by_cases hlt : slot < keys.length
    · simp [hlt]
    · simp [hlt]
  · have h' : ¬ i = slot := fun he => h he.symm
    simp [h, h', Option.map_map, Function.comp_def]

section Renamed

variable (hkey : keys[slot]? = some key)

include hkey

theorem slotsUnder_set : slotsUnder (keys.set slot { key with name := new }) parent =
    (slotsUnder keys parent).map fun entry => if entry.2 = slot then (new, slot) else entry := by
  rw [slotsUnder, zipIdx_set, filter_map, map_map, slotsUnder, map_map]
  have hparent : ∀ entry ∈ keys.zipIdx,
      SymbolKey.parent? (if entry.2 = slot then ({ key with name := new }, entry.2) else entry).1 =
        entry.1.parent? := by
    rintro ⟨k, i⟩ hentry
    split
    · rename_i hi
      simp only at hi
      subst hi
      rw [mk_mem_zipIdx_iff_getElem?, hkey] at hentry
      cases hentry
      rfl
    · rfl
  rw [filter_congr fun entry hentry => ?_]
  · refine map_congr_left fun entry _ => ?_
    simp only [Function.comp_apply]
    split <;> simp_all
  · simp only [Function.comp_apply]
    rw [hparent entry hentry]

theorem parents_set : parents (keys.set slot { key with name := new }) = parents keys := by
  have hscopes : ∀ keys : List SymbolKey, keys.filterMap SymbolKey.parent? =
      (keys.map SymbolKey.scope).filterMap (·.map SymbolId.slot) := fun keys => by
    rw [filterMap_map]
    rfl
  have hsame : (keys.map SymbolKey.scope).set slot key.scope = keys.map SymbolKey.scope := by
    obtain ⟨hlt, hget⟩ := List.getElem?_eq_some_iff.mp hkey
    refine ext_getElem? fun i => ?_
    by_cases hi : slot = i
    · subst hi
      simp [hlt, hget]
    · simp [hi]
  rw [parents, parents, hscopes, hscopes, map_set, hsame]

theorem slotsUnder_set_other (hother : key.parent? ≠ parent) :
    slotsUnder (keys.set slot { key with name := new }) parent = slotsUnder keys parent := by
  rw [slotsUnder_set hkey]
  refine (map_congr_left fun entry hentry => if_neg ?_).trans (map_id' _)
  rintro rfl
  obtain ⟨_, hslot, -, hparent⟩ := mem_slotsUnder.mp hentry
  rw [hkey] at hslot
  cases hslot
  exact hother hparent

end Renamed

/-! ### Staying in step -/

namespace NamesInStep

variable {globals : IndexMap String Nat} {locals : IndexMap Nat (IndexMap String Nat)}

theorem empty : NamesInStep id [] [] [] :=
  ⟨nodup_nil, by simp, rfl, rfl⟩

variable (h : NamesInStep id keys globals locals)

include h

/-- Symbols under one global, or without one, are of one scope. -/
theorem scope_eq {key' : SymbolKey} (hkey : key ∈ keys) (hkey' : key' ∈ keys)
    (hparent : key.parent? = key'.parent?) : key.scope = key'.scope := by
  unfold SymbolKey.parent? at hparent
  cases hscope : key.scope with
  | none =>
    rw [hscope] at hparent
    exact (Option.map_eq_none_iff.mp hparent.symm).symm
  | some scope =>
    rw [hscope] at hparent
    obtain ⟨scope', hscope', hslot⟩ := Option.map_eq_some_iff.mp hparent.symm
    obtain ⟨hstore, -⟩ := h.outer key hkey scope hscope
    obtain ⟨hstore', -⟩ := h.outer key' hkey' scope' hscope'
    obtain ⟨store, slot⟩ := scope
    obtain ⟨store', slot'⟩ := scope'
    simp_all

theorem nodup_names (parent : Option Nat) : ((slotsUnder keys parent).map Prod.fst).Nodup := by
  refine pairwise_map.mpr ((pairwise_map.mp nodup_slots).imp_of_mem ?_)
  rintro ⟨name, i⟩ ⟨name', j⟩ hentry hentry' hne hsame
  obtain ⟨key, hi, hname, hparent⟩ := mem_slotsUnder.mp hentry
  obtain ⟨key', hj, hname', hparent'⟩ := mem_slotsUnder.mp hentry'
  have hscope := h.scope_eq (mem_of_getElem? hi) (mem_of_getElem? hj)
    (hparent.trans hparent'.symm)
  refine hne ((getElem?_inj (List.getElem?_eq_some_iff.mp hi).1 h.distinct).mp ?_)
  cases key
  cases key'
  simp_all

theorem local_of_mem_values (hslot : slot ∈ ((locals.get? p).getD []).values) :
    ∃ name, keys[slot]? = some ⟨name, some ⟨id, p⟩⟩ := by
  rw [h.locals, getD_localSlots] at hslot
  obtain ⟨⟨name, _⟩, hentry, rfl⟩ := mem_map.mp hslot
  obtain ⟨⟨_, scope⟩, hkey, rfl, hparent⟩ := mem_slotsUnder.mp hentry
  obtain ⟨⟨store, _⟩, rfl, rfl⟩ := Option.map_eq_some_iff.mp hparent
  obtain ⟨rfl, -⟩ := h.outer _ (mem_of_getElem? hkey) _ rfl
  exact ⟨_, hkey⟩

theorem outer_concat (hkey : ∀ scope, key.scope = some scope → IsGlobal id keys scope) :
    ∀ k ∈ keys ++ [key], ∀ scope, k.scope = some scope → IsGlobal id (keys ++ [key]) scope := by
  intro k hk scope hscope
  have hold : IsGlobal id keys scope := by
    rcases mem_append.mp hk with hk | hk
    · exact h.outer k hk scope hscope
    · exact hkey scope (mem_singleton.mp hk ▸ hscope)
  refine ⟨hold.1, hold.2.imp fun name hname => ?_⟩
  rw [getElem?_append_left (List.getElem?_eq_some_iff.mp hname).1, hname]

theorem distinct_concat (hkey : key ∉ keys) : (keys ++ [key]).Nodup :=
  nodup_append.mpr ⟨h.distinct, by simp, by
    rintro k hk _ hlast rfl
    exact hkey (mem_singleton.mp hlast ▸ hk)⟩

theorem addGlobal (hfree : ¬ globals.contains name = true) :
    NamesInStep id (keys ++ [⟨name, none⟩]) (globals.insert name keys.length) locals := by
  obtain rfl := h.globals
  obtain rfl := h.locals
  rw [IndexMap.contains_iff] at hfree
  have hnew : (⟨name, none⟩ : SymbolKey) ∉ keys := fun hin =>
    hfree (mem_names_slotsUnder.mpr ⟨_, hin, rfl, rfl⟩)
  refine ⟨h.distinct_concat hnew, h.outer_concat (fun scope hscope => by cases hscope), ?_, ?_⟩
  · rw [IndexMap.insert_of_notMem hfree]
    simp [slotsUnder_concat, SymbolKey.parent?]
  · simp [localSlots, parents_concat, slotsUnder_concat, SymbolKey.parent?]

theorem addLocal {outer : SymbolId} (houter : IsGlobal id keys outer)
    (hfree : ¬ ((locals.get? outer.slot).getD []).contains name = true) :
    NamesInStep id (keys ++ [⟨name, some outer⟩]) globals (locals.insert outer.slot
      (((locals.get? outer.slot).getD []).insert name keys.length)) := by
  obtain rfl := h.globals
  obtain rfl := h.locals
  rw [getD_localSlots] at hfree ⊢
  rw [IndexMap.contains_iff] at hfree
  have hnew : (⟨name, some outer⟩ : SymbolKey) ∉ keys := fun hin =>
    hfree (mem_names_slotsUnder.mpr ⟨_, hin, rfl, rfl⟩)
  refine ⟨h.distinct_concat hnew, h.outer_concat fun scope hscope => ?_, ?_, ?_⟩
  · cases hscope
    exact houter
  · simp [slotsUnder_concat, SymbolKey.parent?]
  · rw [IndexMap.insert_of_notMem hfree]
    by_cases hin : outer.slot ∈ parents keys
    · rw [IndexMap.insert_of_mem (names_localSlots ▸ hin), localSlots, map_map, localSlots,
        parents_concat]
      simp only [SymbolKey.parent?, Option.map_some, if_pos hin]
      refine map_congr_left fun p _ => ?_
      by_cases hp : p = outer.slot <;> simp [slotsUnder_concat, SymbolKey.parent?, hp, eq_comm]
    · rw [IndexMap.insert_of_notMem (names_localSlots ▸ hin), localSlots, localSlots,
        parents_concat]
      simp only [SymbolKey.parent?, Option.map_some, if_neg hin, map_append, map_cons, map_nil]
      congr 1
      · refine map_congr_left fun p hp => ?_
        have hne : outer.slot ≠ p := fun he => hin (he ▸ hp)
        simp [slotsUnder_concat, SymbolKey.parent?, hne]
      · simp [slotsUnder_concat, SymbolKey.parent?]

theorem distinct_set (hnew : key ∉ keys) : (keys.set slot key).Nodup := by
  refine pairwise_iff_getElem.mpr fun i j hi hj hij => ?_
  rw [getElem_set, getElem_set]
  rw [length_set] at hi hj
  split <;> split
  · omega
  · exact fun he => hnew (he ▸ getElem_mem hj)
  · exact fun he => hnew (he ▸ getElem_mem hi)
  · exact pairwise_iff_getElem.mp h.distinct i j hi hj hij

variable (hkey : keys[slot]? = some key)

include hkey

theorem outer_set : ∀ k ∈ keys.set slot { key with name := new }, ∀ scope, k.scope = some scope →
    IsGlobal id (keys.set slot { key with name := new }) scope := by
  intro k hk scope hscope
  have hold : IsGlobal id keys scope := by
    rcases mem_or_eq_of_mem_set hk with hk | rfl
    · exact h.outer k hk scope hscope
    · exact h.outer _ (mem_of_getElem? hkey) scope hscope
  obtain ⟨hstore, name, hname⟩ := hold
  refine ⟨hstore, ?_⟩
  rw [getElem?_set, if_pos (List.getElem?_eq_some_iff.mp hkey).1]
  split
  · rename_i hslot
    rw [← hslot, hkey] at hname
    cases hname
    exact ⟨new, rfl⟩
  · exact ⟨name, hname⟩

/-- **A new name** is put in the place of the old one. -/
theorem rekey_eq (hfree : new ∉ (slotsUnder keys key.parent?).map Prod.fst) :
    (slotsUnder keys key.parent?).rekey key.name new slot =
      some (slotsUnder (keys.set slot { key with name := new }) key.parent?) := by
  obtain ⟨before, behind, hsplit⟩ := append_of_mem (mem_slotsUnder.mpr ⟨_, hkey, rfl, rfl⟩)
  have hmiddle : slotsUnder keys key.parent? ~ (key.name, slot) :: (before ++ behind) :=
    hsplit ▸ perm_middle
  -- neither the symbol's slot nor its name is anywhere else in the map
  have hslot : slot ∉ (before ++ behind).map Prod.snd :=
    (nodup_cons.mp ((hmiddle.map Prod.snd).nodup_iff.mp nodup_slots)).1
  have hold : key.name ∉ (before ++ behind).map Prod.fst :=
    (nodup_cons.mp ((hmiddle.map Prod.fst).nodup_iff.mp (h.nodup_names _))).1
  have hnew : new ∉ (before ++ behind).map Prod.fst := fun hin =>
    hfree ((hmiddle.map Prod.fst).mem_iff.mpr (mem_cons_of_mem _ hin))
  have hkept : ∀ entry ∈ before ++ behind, (if entry.2 = slot then (new, slot) else entry) = entry :=
    fun entry hentry => if_neg fun he => hslot (mem_map.mpr ⟨entry, hentry, he⟩)
  rw [map_append, mem_append, not_or] at hold
  rw [slotsUnder_set hkey, hsplit, IndexMap.rekey_append hold.1 hnew, map_append, map_cons,
    if_pos rfl, map_congr_left fun entry hentry => hkept entry (mem_append_left _ hentry),
    map_congr_left fun entry hentry => hkept entry (mem_append_right _ hentry), map_id', map_id']

theorem renameGlobal (hscope : key.scope = none) (hfree : ¬ globals.contains new = true)
    {globals' : IndexMap String Nat} (hrekey : globals.rekey key.name new slot = some globals') :
    NamesInStep id (keys.set slot { key with name := new }) globals' locals := by
  obtain rfl := h.globals
  obtain rfl := h.locals
  have hparent : key.parent? = none := by rw [SymbolKey.parent?, hscope]; rfl
  have hset := h.rekey_eq hkey (hparent.symm ▸ fun hin => hfree (IndexMap.contains_iff.mpr hin))
  rw [hparent, hrekey] at hset
  rw [IndexMap.contains_iff] at hfree
  refine ⟨h.distinct_set fun hin => hfree (mem_names_slotsUnder.mpr ⟨_, hin, rfl, hparent⟩),
    h.outer_set hkey, Option.some.inj hset, ?_⟩
  rw [localSlots, localSlots, parents_set hkey]
  refine map_congr_left fun p _ => ?_
  rw [slotsUnder_set_other hkey (by simp [hparent])]

theorem renameLocal {outer : SymbolId} (hscope : key.scope = some outer)
    {names names' : IndexMap String Nat} (hnames : locals.get? outer.slot = some names)
    (hfree : ¬ names.contains new = true) (hrekey : names.rekey key.name new slot = some names') :
    NamesInStep id (keys.set slot { key with name := new }) globals
      (locals.insert outer.slot names') := by
  obtain rfl := h.globals
  obtain rfl := h.locals
  have hparent : key.parent? = some outer.slot := by rw [SymbolKey.parent?, hscope]; rfl
  have hin : outer.slot ∈ parents keys := mem_parents.mpr ⟨_, mem_of_getElem? hkey, hparent⟩
  rw [get?_localSlots, if_pos hin] at hnames
  cases hnames
  rw [IndexMap.contains_iff] at hfree
  have hset := h.rekey_eq hkey (hparent.symm ▸ hfree)
  rw [hparent, hrekey] at hset
  refine ⟨h.distinct_set fun hin => hfree (mem_names_slotsUnder.mpr ⟨_, hin, rfl, hparent⟩),
    h.outer_set hkey, (slotsUnder_set_other hkey (by simp [hparent])).symm, ?_⟩
  rw [IndexMap.insert_of_mem (names_localSlots ▸ hin), localSlots, map_map, localSlots,
    parents_set hkey]
  refine map_congr_left fun p _ => ?_
  by_cases hp : p = outer.slot
  · simp [hp, Option.some.inj hset]
  · have hother : key.parent? ≠ some p := fun he =>
      hp (Option.some.inj (hparent.symm.trans he)).symm
    simp [hp, slotsUnder_set_other hkey hother]

end NamesInStep

end WordAsm
