/-
# Symbol maps of compiled programs

The key of a global symbol is its name, and the key of a local one is the name of its global
symbol followed by its own. Names of the second kind start with a point and names of the first
have none (`Symbol.Spelled`), so a key says which of the two it is and where it is to be cut
(`Table.Tidy.keyOf_inj`).

That names are spelled so, that no name is used twice and that symbols are in the store of
their unit holds for every program behind a compilation (`Program.Catalogued`): the parse sees
to it, and the other phases change symbols in their places only (`Table.Revises`).
-/
import WordAsm.Proofs.PhaseSuccess
import WordAsm.Proofs.Spelling
import WordAsm.Proofs.StoreCopies
import WordAsm.Report.SymbolMap

namespace WordAsm

open List

/-! ### Lists by key -/

section Keys

variable {α : Type} {key : String} {a : α} {map : List (String × α)}

theorem perm_insertKey (h : key ∉ map.map Prod.fst) :
    (insertKey key a map).Perm ((key, a) :: map) := by
  induction map with
  | nil => exact List.Perm.refl _
  | cons entry map ih =>
    rw [map_cons, mem_cons, not_or] at h
    rw [insertKey]
    split
    · exact List.Perm.refl _
    · rw [if_neg h.1]
      exact ((ih h.2).cons entry).trans (List.Perm.swap _ _ _)

/-- **Entries under different keys** are all in the map. -/
theorem perm_foldl_insertKey {entries : List (String × α)}
    (h : ((entries ++ map).map Prod.fst).Nodup) :
    (entries.foldl (fun map (key, a) => insertKey key a map) map).Perm (entries ++ map) := by
  induction entries generalizing map with
  | nil => exact List.Perm.refl _
  | cons entry entries ih =>
    obtain ⟨key, a⟩ := entry
    have hkeys : (((key, a) :: (entries ++ map)).map Prod.fst).Nodup := h
    rw [map_cons, nodup_cons] at hkeys
    have hinsert : (insertKey key a map).Perm ((key, a) :: map) :=
      perm_insertKey fun hin => hkeys.1 (map_subset _ (subset_append_right _ _) hin)
    have hall : (entries ++ insertKey key a map).Perm ((key, a) :: (entries ++ map)) :=
      (hinsert.append_left entries).trans perm_middle
    exact (ih ((hall.map Prod.fst).nodup_iff.mpr h)).trans hall

theorem lookup_of_mem (h : (map.map Prod.fst).Nodup) (hmem : (key, a) ∈ map) :
    map.lookup key = some a := by
  obtain ⟨before, behind, rfl⟩ := append_of_mem hmem
  refine lookup_eq_some_iff.mpr ⟨before, behind, rfl, fun entry hentry => ?_⟩
  rw [map_append, map_cons, nodup_append] at h
  exact bne_iff_ne.mpr fun he => h.2.2 _ (mem_map_of_mem hentry) _ mem_cons_self he.symm

end Keys

/-! ### Keys -/

/-- A local symbol starts with a point, and there is no point in the name of a global one. -/
def Symbol.Spelled (x : Symbol) : Prop :=
  if x.isGlobal then '.' ∉ x.name.toList else isLocalName x.name = true

/-- The key of a symbol of the store: its name, behind the one of its global symbol if it has
one. -/
inductive Store.KeyOf (s : Store) (x : Symbol) (key : String) : Prop
  | ofGlobal (hx : x.scope = none) (hkey : key = x.name)
  | ofLocal {scope : SymbolId} {g : Symbol} (hx : x.scope = some scope)
    (hg : s.symbol? scope = some g) (hkey : key = g.name ++ x.name)

/-- A name without points and one that starts with a point can be told apart when they are
put together. -/
theorem append_localName_inj {a b x y : String} (ha : '.' ∉ a.toList) (hb : '.' ∉ b.toList)
    (hx : isLocalName x = true) (hy : isLocalName y = true) (h : a ++ x = b ++ y) :
    a = b ∧ x = y := by
  have hfront : ∀ {a x : String}, '.' ∉ a.toList → isLocalName x = true →
      (a ++ x).toList.takeWhile (· != '.') = a.toList := by
    intro a x ha hx
    obtain ⟨rest, hrest⟩ := head?_eq_some_iff.mp (beq_iff_eq.mp hx)
    rw [String.toList_append, hrest, takeWhile_append_of_pos]
    · simp
    · exact fun c hc => bne_iff_ne.mpr fun he => ha (he ▸ hc)
  have hab : a.toList = b.toList := by rw [← hfront ha hx, h, hfront hb hy]
  have hchars := congrArg String.toList h
  rw [String.toList_append, String.toList_append, hab] at hchars
  exact ⟨String.toList_inj.mp hab, String.toList_inj.mp (append_cancel_left hchars)⟩

namespace Table

variable {t : Table} {s r : Store} {i j scope : SymbolId} {x y : Symbol} {key : String}

theorem Tidy.eq_of_name (h : t.Tidy) (hd : t.Distinct) (hx : t.symbol? i = some x)
    (hy : t.symbol? j = some y) (hname : x.name = y.name) (hscope : x.scope = y.scope) :
    i = j := by
  have hi := (h.find?_eq_some hd).mpr ⟨x, hx, hname, hscope⟩
  exact Option.some.inj (hi.symm.trans ((h.find?_eq_some hd).mpr ⟨y, hy, rfl, rfl⟩))

theorem All.global (h : t.All Symbol.Spelled) (hx : t.symbol? i = some x)
    (hscope : x.scope = none) : '.' ∉ x.name.toList := by
  have hspelled := h.symbol? hx
  rwa [Symbol.Spelled, if_pos (by rw [Symbol.isGlobal, hscope]; rfl)] at hspelled

theorem All.local (h : t.All Symbol.Spelled) (hx : t.symbol? i = some x)
    (hscope : x.scope = some scope) : isLocalName x.name = true := by
  have hspelled := h.symbol? hx
  rwa [Symbol.Spelled, if_neg (by simp [Symbol.isGlobal, hscope])] at hspelled

theorem Distinct.scope_global (hd : t.Distinct) (hs : s ∈ t.stores) (hx : s.symbol? i = some x)
    {g : Symbol} (hscope : x.scope = some scope) (hg : s.symbol? scope = some g) :
    t.symbol? scope = some g ∧ g.scope = none := by
  obtain ⟨g', hg', hglobal⟩ := Store.outer_of_mem (Store.mem_of_symbol? hx) hscope
  obtain rfl : g = g' := Option.mem_unique hg hg'
  exact ⟨hd.symbol?_eq_some.mpr ⟨s, hs, hg⟩, Option.isNone_iff_eq_none.mp hglobal⟩

/-- **Distinct symbols have distinct keys.** -/
theorem Tidy.keyOf_inj (h : t.Tidy) (hd : t.Distinct) (hspelled : t.All Symbol.Spelled)
    (hs : s ∈ t.stores) (hr : r ∈ t.stores) (hx : s.symbol? i = some x)
    (hy : r.symbol? j = some y) (hkx : s.KeyOf x key) (hky : r.KeyOf y key) : i = j := by
  have hpoint : ∀ {a b : String}, isLocalName b = true → '.' ∈ (a ++ b).toList := by
    intro a b hb
    obtain ⟨rest, hrest⟩ := head?_eq_some_iff.mp (beq_iff_eq.mp hb)
    simp [hrest]
  have htx := hd.symbol?_eq_some.mpr ⟨s, hs, hx⟩
  have hty := hd.symbol?_eq_some.mpr ⟨r, hr, hy⟩
  cases hkx with
  | ofGlobal hscope hkey =>
    cases hky with
    | ofGlobal hscope' hkey' =>
      exact h.eq_of_name hd htx hty (hkey.symm.trans hkey') (hscope.trans hscope'.symm)
    | ofLocal hscope' _ hkey' =>
      refine absurd ?_ (hspelled.global htx hscope)
      rw [← hkey, hkey']
      exact hpoint (hspelled.local hty hscope')
  | ofLocal hscope hg hkey =>
    cases hky with
    | ofGlobal hscope' hkey' =>
      refine absurd ?_ (hspelled.global hty hscope')
      rw [← hkey', hkey]
      exact hpoint (hspelled.local htx hscope)
    | ofLocal hscope' hg' hkey' =>
      obtain ⟨htg, hglobal⟩ := hd.scope_global hs hx hscope hg
      obtain ⟨htg', hglobal'⟩ := hd.scope_global hr hy hscope' hg'
      obtain ⟨hnames, hname⟩ := append_localName_inj (hspelled.global htg hglobal)
        (hspelled.global htg' hglobal') (hspelled.local htx hscope) (hspelled.local hty hscope')
        (hkey.symm.trans hkey')
      -- one global name is one scope
      have hsame := h.eq_of_name hd htg htg' hnames (hglobal.trans hglobal'.symm)
      exact h.eq_of_name hd htx hty hname (by rw [hscope, hscope', hsame])

theorem Distinct.keyOf_mapKey (hd : t.Distinct) (hs : s ∈ t.stores) (hx : s.symbol? i = some x) :
    s.KeyOf x (mapKey t x) := by
  unfold mapKey
  cases hscope : x.scope with
  | none => exact .ofGlobal hscope rfl
  | some scope =>
    obtain ⟨g, hg, -⟩ := Store.outer_of_mem (Store.mem_of_symbol? hx) hscope
    rw [Option.bind_some, (hd.scope_global hs hx hscope hg).1]
    exact .ofLocal hscope hg rfl

end Table

/-! ### The map of a table -/

theorem Store.perm_ordered (s : Store) : s.ordered.Perm s.entries :=
  (perm_ext_iff_of_nodup (.of_map _ s.nodup_ordered) (.of_map _ s.nodup_entries)).mpr
    fun _ => mem_ordered.trans mem_entries.symm

def mapEntries (p : Program) : List (String × SymbolMapEntry) :=
  p.symbols.stores.flatMap fun store => store.ordered.map fun (id, symbol) =>
    (mapKey p.symbols symbol, mapEntry p store id symbol)

section Maps

variable {p : Program}

theorem mem_mapEntries {s : Store} (hs : s ∈ p.symbols.stores) {i : SymbolId} {x : Symbol}
    (hx : s.symbol? i = some x) : (mapKey p.symbols x, mapEntry p s i x) ∈ mapEntries p :=
  mem_flatMap.mpr ⟨s, hs, mem_map_of_mem (f := fun (id, symbol) =>
    (mapKey p.symbols symbol, mapEntry p s id symbol))
    (Store.mem_ordered.mpr hx)⟩

theorem length_mapEntries (p : Program) :
    (mapEntries p).length = (p.symbols.stores.flatMap Store.symbols).length := by
  rw [mapEntries, length_flatMap, length_flatMap]
  refine congrArg _ (map_congr_left fun s _ => ?_)
  rw [length_map, s.perm_ordered.length_eq]
  simp [Store.entries]

variable (h : p.symbols.Tidy) (hd : p.symbols.Distinct) (hspelled : p.symbols.All Symbol.Spelled)

include h hd hspelled

theorem nodup_mapEntries :
    ((mapEntries p).map Prod.fst).Nodup := by
  have hkeys : (mapEntries p).map Prod.fst = p.symbols.stores.flatMap fun s =>
      s.ordered.map fun e => mapKey p.symbols e.2 := by
    simp [mapEntries, map_flatMap, Function.comp_def]
  -- one key is one symbol, of whatever stores
  have hinj : ∀ s ∈ p.symbols.stores, ∀ r ∈ p.symbols.stores, ∀ a ∈ s.ordered, ∀ b ∈ r.ordered,
      mapKey p.symbols a.2 = mapKey p.symbols b.2 → a.1 = b.1 := by
    intro s hs r hr a ha b hb hkey
    have hx := Store.mem_ordered.mp ha
    have hy := Store.mem_ordered.mp hb
    exact h.keyOf_inj hd hspelled hs hr hx hy (hd.keyOf_mapKey hs hx) (hkey ▸ hd.keyOf_mapKey hr hy)
  rw [hkeys, nodup_flatMap]
  refine ⟨fun s hs => ?_, (pairwise_map.mp h.units).imp_of_mem fun {s r} hs hr hne key hk hk' => ?_⟩
  · refine List.Nodup.map_on (fun a ha b hb hkey => ?_) (.of_map _ s.nodup_ordered)
    have hid := hinj s hs s hs a ha b hb hkey
    have hx := Store.mem_ordered.mp ha
    rw [hid, Store.mem_ordered.mp hb] at hx
    exact Prod.ext hid (Option.some.inj hx).symm
  · obtain ⟨a, ha, rfl⟩ := mem_map.mp hk
    obtain ⟨b, hb, hkey⟩ := mem_map.mp hk'
    have hid := hinj s hs r hr a ha b hb hkey.symm
    have hstore := Store.store_of_symbol? (Store.mem_ordered.mp ha)
    rw [hid, Store.store_of_symbol? (Store.mem_ordered.mp hb)] at hstore
    exact hne (congrArg Store.unit (hd.ids s hs r hr hstore.symm))

theorem perm_symbolMap : (symbolMap p).Perm (mapEntries p) := by
  have hnodup := nodup_mapEntries h hd hspelled
  rw [← append_nil (mapEntries p)] at hnodup ⊢
  exact perm_foldl_insertKey hnodup

end Maps

/-! ### Symbols behind a compilation -/

namespace Table

variable {t t' : Table}

/-- The symbols of `t'` are those of `t`, with other addresses or expressions. -/
def Revises (t t' : Table) : Prop := ∃ f, t' = t.mapKinds f

theorem Revises.refl (t : Table) : t.Revises t := ⟨fun _ kind => kind, t.mapKinds_id.symm⟩

theorem Revises.modify (h : t.Revises t') (id : SymbolId) (g : SymbolKind → SymbolKind) :
    t.Revises (t'.modify id g) := by
  obtain ⟨f, rfl⟩ := h
  exact ⟨_, modify_mapKinds f t id g⟩

theorem Revises.all {Q : Symbol → Prop} (h : t.Revises t') (hall : t.All Q)
    (hQ : ∀ (x : Symbol) f, Q x → Q (x.mapKind f)) : t'.All Q := by
  obtain ⟨f, rfl⟩ := h
  intro s hs y hy
  obtain ⟨r, hr, rfl⟩ := mem_map.mp hs
  obtain ⟨slot, hslot, rfl⟩ := mem_mapIdx.mp hy
  exact hQ _ _ (hall r hr _ (getElem_mem hslot))

theorem Revises.homed {Q : UnitId → Prop} (h : t.Revises t') (ht : t.Homed Q) : t'.Homed Q := by
  obtain ⟨f, rfl⟩ := h
  refine ⟨ht.toSound.mapKinds f, fun s hs i y hy => ?_⟩
  obtain ⟨r, hr, rfl⟩ := mem_map.mp hs
  rw [Store.symbol?_mapKinds] at hy
  obtain ⟨x, hx, rfl⟩ := Option.map_eq_some_iff.mp hy
  exact ht.homes r hr i x hx

theorem Revises.tidy (h : t.Revises t') (ht : t.Tidy) : t'.Tidy := by
  obtain ⟨f, rfl⟩ := h
  exact ht.mapKinds f

end Table

section Phases

variable {cfg : Settings}

theorem revises_checkUnit (t : Table) (poisoned : List SymbolId) (unit : UnitId) :
    t.Revises (CycleSearch.checkUnit t poisoned unit).table := by
  refine CycleSearch.checkUnit_keeps (I := fun s => t.Revises s.table) (fun _ _ hs => hs)
    (fun names s member hs => ?_) unit (.refl t)
  unfold CycleSearch.poisonMember
  simp only
  split
  · exact hs
  · split
    · exact hs
    · exact hs.modify _ _

theorem revises_layoutOf (u : SourceUnit) (nodes : SyntaxTree) (p : Program) :
    p.symbols.Revises (layoutOf cfg u nodes p).2.symbols := by
  refine layNodes_keeps (I := fun l => p.symbols.Revises l.symbols) (fun _ _ _ hl => hl)
    (fun _ _ _ hl => hl) (fun l node place _ _ hl => ?_) (.refl _) nodes
  unfold assignLabel
  split
  · exact hl.modify _ _
  · exact hl

/-- **Behind the parse**, symbols change in their places only. -/
theorem revises_run {phase : Phase} (h : phase ∈ Pipeline.standard.tail.map Slot.phase)
    (u : SourceUnit) (b : Build) :
    b.symbols.Revises (phase.run cfg u b).2.symbols := by
  rcases behind_parse_cases h with rfl | rfl | rfl | rfl | rfl
  · exact referencePhase_keeps (I := (b.symbols.Revises ·.symbols)) (fun _ _ _ hq => hq)
      (fun _ _ hq => hq) (revises_checkUnit ..)
  · exact (layoutPhase_treewise cfg).keeps (I := (b.symbols.Revises ·.symbols))
      (.refl _) fun nodes _ => revises_layoutOf u nodes b.program
  · exact (foldingPhase_treewise cfg).keeps (I := (b.symbols.Revises ·.symbols))
      (.refl _) fun _ _ => .refl _
  · exact (validationPhase_leavesTrees cfg u b).symbols ▸ .refl _
  · exact (emissionPhase_leavesTrees cfg u b).symbols ▸ .refl _

end Phases

/-- A program whose symbols can be told apart by their keys, and are where they belong. -/
structure Program.Catalogued (p : Program) : Prop where
  wellFormed : p.WellFormed
  homed : p.Homed
  tidy : p.symbols.Tidy
  spelled : p.symbols.All Symbol.Spelled

theorem Declaring.spelled_symbolOf {d : Declaring} {n : Node} {symbol : Symbol}
    (hn : n.statement.Spelled) (h : d.symbolOf n = some symbol) : symbol.Spelled := by
  unfold Declaring.symbolOf at h
  split at h
  · rename_i name hs
    simp only [hs] at hn
    split at h
    · rename_i hlocal
      obtain ⟨scope, -, rfl⟩ := Option.map_eq_some_iff.mp h
      exact hlocal
    · rename_i hlocal
      cases h
      exact point_of_isWord (hn.resolve_left hlocal)
  · rename_i hs
    simp only [hs] at hn
    cases h
    exact point_of_isWord hn
  · rename_i hs
    simp only [hs] at hn
    cases h
    exact point_of_isWord hn
  · cases h

section Catalogue

variable {cfg : Settings} {p : Program} {b : Build}

theorem Program.Catalogued.parseUnit {u : SourceUnit} (h : b.Catalogued)
    (hu : u.id ∈ b.order) :
    (WordAsm.parseUnit cfg u b).2.Catalogued := by
  refine ⟨((parsePhase_quiet cfg).grows u b).wellFormed h.wellFormed,
    homed_parseUnit hu h.homed, ?_, ?_⟩
  · exact parseUnit_symbols_keep (fun _ _ _ _ symbol _ _ ht => ht.define symbol) h.tidy
  · exact parseUnit_symbols_keep (I := Table.All _) (fun t d n hn symbol _ hsym ht =>
      ht.define (d.spelled_symbolOf (u.source_spelled _ _ n hn) hsym)) h.spelled

/-- **A compilation**, whatever becomes of it, leaves symbols that can be told apart. -/
theorem catalogued_compile (cfg : Settings) (hw : p.WellFormed) (tree : FileTree) :
    (compile cfg p tree).2.Catalogued := by
  have hopening : (opening p tree).Catalogued :=
    ⟨reset_wellFormed hw, ⟨Table.sound_of_nil rfl, fun s hs => by cases hs⟩,
      Table.tidy_of_nil rfl, fun s hs => by cases hs⟩
  suffices hend : (runPipeline cfg .standard (opening p tree)).2.Catalogued from hend
  refine runPipeline_keeps (I := Program.Catalogued) (fun slot hslot i u b hi hu hb => ?_) hopening
  obtain rfl : u.id = i := hb.wellFormed.numbered i u hu
  have hmem := mem_map_of_mem (f := Slot.phase) hslot
  rcases mem_cons.mp hmem with hparse | hbehind
  · rw [hparse, runUnit_parse]
    exact hb.parseUnit hi
  · have hgrows : b.program.Grows (runUnit cfg slot.phase u b).program :=
      grows_runUnit (grows_of_standard hmem u b)
    have hrevises : b.symbols.Revises
        (runUnit cfg slot.phase u b).symbols :=
      runUnit_keeps (I := fun q => b.symbols.Revises q.symbols) (fun _ _ _ hq => hq)
        (revises_run hbehind u b)
    refine ⟨hgrows.wellFormed hb.wellFormed, ?_, hrevises.tidy hb.tidy,
      hrevises.all hb.spelled fun _ _ hx => hx⟩
    exact (hrevises.homed hb.homed).mono fun _ hj => hgrows.order.subset hj

end Catalogue

/-- **The symbol map loses nothing.** Behind a compilation, successful or not, the keys of the
map are different and there are as many as symbols. Under the key of a symbol are its class, the
identifier of its unit and its value, and no two symbols have the same key. -/
theorem symbol_map_loses_nothing (cfg : Settings) {p : Program} (hw : p.WellFormed)
    (tree : FileTree) :
    let q := (compile cfg p tree).2.program
    ((symbolMap q).map Prod.fst).Nodup ∧
    (symbolMap q).length = (q.symbols.stores.flatMap Store.symbols).length ∧
    (∀ s ∈ q.symbols.stores, ∀ i x, s.symbol? i = some x →
      ∃ key u, s.KeyOf x key ∧ q.get? x.unit = some u ∧
        (symbolMap q).lookup key = some ⟨.ofKind x.kind, u.identifier, q.symbols.value? i⟩) ∧
    ∀ s ∈ q.symbols.stores, ∀ r ∈ q.symbols.stores, ∀ i j x y key, s.symbol? i = some x →
      r.symbol? j = some y → s.KeyOf x key → r.KeyOf y key → i = j := by
  intro q
  obtain ⟨hwq, hhomed, htidy, hspelled⟩ : q.Catalogued := catalogued_compile cfg hw tree
  have hdistinct := hhomed.toSound.toDistinct
  have hperm : (symbolMap q).Perm (mapEntries q) := perm_symbolMap htidy hdistinct hspelled
  have hnodup : ((symbolMap q).map Prod.fst).Nodup :=
    (hperm.map Prod.fst).nodup_iff.mpr (nodup_mapEntries htidy hdistinct hspelled)
  refine ⟨hnodup, hperm.length_eq.trans (length_mapEntries q), fun s hs i x hx => ?_,
    fun s hs r hr i j x y key hx hy => htidy.keyOf_inj hdistinct hspelled hs hr hx hy⟩
  obtain ⟨hhome, hqueued⟩ := hhomed.homes s hs i x hx
  obtain ⟨u, hu, -⟩ := hwq.exists_get? hqueued
  have hentry : mapEntry q s i x = ⟨.ofKind x.kind, u.identifier, q.symbols.value? i⟩ := by
    rw [mapEntry, ← hhome, hu]
    rfl
  refine ⟨mapKey q.symbols x, u, hdistinct.keyOf_mapKey hs hx, hu, ?_⟩
  rw [← hentry]
  exact lookup_of_mem hnodup (hperm.mem_iff.mpr (mem_mapEntries hs hx))

/-- Two units with a local symbol of one name, and a call of something unknown. -/
def sharedLocals : Program :=
  .ofResources [.text "a" "x:\n.l: nop\n.equ n 5\n", .text "b" "y:\n.l: call z\n"]

/-- Five symbols have five keys, although the compilation fails. -/
theorem symbol_map_loses_nothing_shared :
    let q := (compile { switches := .ofList [.localLabels] } sharedLocals {}).2.program
    q.hasErrors = true ∧ (symbolMap q).length = 5 ∧ ((symbolMap q).map Prod.fst).Nodup := by
  intro q
  have hq : q.hasErrors = true ∧ (q.symbols.stores.flatMap Store.symbols).length = 5 := by
    decide +kernel
  obtain ⟨hnodup, hlength, -⟩ := symbol_map_loses_nothing { switches := .ofList [.localLabels] }
    (Program.wellFormed_ofResources _) {}
  exact ⟨hq.1, hlength.trans hq.2, hnodup⟩

end WordAsm
