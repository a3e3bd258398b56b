/-
# Links that fail

A link can go wrong in many places: in the order of its modules, in a unit, in a file,
in the table, in an address that is to be moved, and at last where modules are laid
out one after another. `LinkFault` lists what is then wrong with the modules or with
the program. All of it is found out before the image is written, and new addresses
that have been worked out can be put on record (`ShiftPlan.apply_eq`). So a link that
fails has not changed anything.
-/
import WordAsm.Proofs.AddressShift

namespace WordAsm

open List

variable {units : Units} {log log' : List LogLine}

/-- The address is on record in a unit: as its start, or for a node or a line. -/
def SourceUnit.Records (u : SourceUnit) (a : Address) : Prop :=
  a = u.start ∨ (∃ nodes, u.tree = some nodes ∧ ∃ n ∈ nodes, n.address = some a) ∨
    ∃ line, (a, line) ∈ u.lines

/-- The address is on record for a unit: in the unit itself, or for one of its labels. -/
def Program.Records (p : Program) (id : UnitId) (a : Address) : Prop :=
  (∃ u, p.get? id = some u ∧ u.Records a) ∨
    ∃ s, p.symbols.store? id = some s ∧ ∃ x ∈ s.symbols, x.address? = some a

/-- What goes ahead of modules, and the table in it. -/
structure HasHeader (modules : List ObjectModule) (table : RelocationTable) (header : Bytes) :
    Prop where
  merged : mergeTables modules = .ok table
  written : ∃ bytes, table.toBytes = .ok bytes ∧ header = stub ++ bytes

/-- What is wrong when a link fails. -/
inductive LinkFault (linker : Linker) (p : Program) (modules : List ObjectModule)
    (tree : FileTree) : Error → Prop
  /-- A module starts ahead of the one before. -/
  | order {a b : ObjectModule} : [a, b] <:+: modules → b.start < a.start →
      LinkFault linker p modules tree
        (.badModuleOrder (p.nameOf a.unit) a.start (p.nameOf b.unit) b.start)
  | unknown {m : ObjectModule} : m ∈ modules → p.get? m.unit = none →
      LinkFault linker p modules tree (.unknownUnit m.unit)
  | marked {m : ObjectModule} {u : SourceUnit} : m ∈ modules → p.get? m.unit = some u →
      u.hasErrors = true → LinkFault linker p modules tree (.unitHasErrors u.identifier)
  | unreadable {m : ObjectModule} {e : Error} : m ∈ modules →
      m.code.resource.readBytes tree = .error e → LinkFault linker p modules tree e
  /-- An entry of a relocation table is past the end of memory. -/
  | entry {m : ObjectModule} {a : Address} : linker.selfRelocating = true → m ∈ modules →
      a ∈ m.relocation.entries → 65536 ≤ a.toNat + m.start.toNat →
      LinkFault linker p modules tree (.addressOutOfRange a m.start)
  /-- The entries cannot be counted in a word. -/
  | entries {table : RelocationTable} : linker.selfRelocating = true →
      mergeTables modules = .ok table → 65536 ≤ table.size →
      LinkFault linker p modules tree (.relocationOverflow table.size)
  /-- The header is too long to move anything past it. -/
  | header {table : RelocationTable} {header : Bytes} : linker.selfRelocating = true →
      linker.moveAddresses = true → HasHeader modules table header →
      65536 ≤ header.length / 2 → LinkFault linker p modules tree (.relocationOverflow table.size)
  /-- An address cannot be moved past the header. -/
  | address {table : RelocationTable} {header : Bytes} {m : ObjectModule} {a : Address} :
      linker.selfRelocating = true → linker.moveAddresses = true →
      HasHeader modules table header → m ∈ modules → p.Records m.unit a →
      65536 ≤ a.toNat + header.length / 2 →
      LinkFault linker p modules tree
        (.addressOutOfRange a (UInt16.ofNat (header.length / 2)))
  /-- The end of a unit cannot be moved past the header. -/
  | stop {table : RelocationTable} {header : Bytes} {m : ObjectModule} {u : SourceUnit}
      {stop : ℕ} : linker.selfRelocating = true → linker.moveAddresses = true →
      HasHeader modules table header → m ∈ modules → p.get? m.unit = some u →
      u.stop = some stop → 65536 < stop + header.length / 2 →
      LinkFault linker p modules tree
        (.addressOutOfRange (UInt16.ofNat (stop - 1)) (UInt16.ofNat (header.length / 2)))
  /-- A module starts ahead of the end of the one before. -/
  | overlap {a b : ObjectModule} {bytes : Bytes} : linker.selfRelocating = true →
      [a, b] <:+: modules → a.code.resource.readBytes tree = .ok bytes →
      b.start.toNat < a.start.toNat + bytes.length / 2 →
      LinkFault linker p modules tree (.overlappingModules (p.nameOf a.unit)
        (a.start.toNat + bytes.length / 2) (p.nameOf b.unit) b.start)

variable {linker : Linker} {p : Program} {modules : List ObjectModule} {tree : FileTree} {e : Error}

/-! ### Modules and units -/

theorem checkStarts_eq_error (h : checkStarts units modules = .error e) :
    ∃ a b, [a, b] <:+: modules ∧ b.start < a.start ∧
      e = .badModuleOrder (units.nameOf a.unit) a.start (units.nameOf b.unit) b.start := by
  fun_induction checkStarts units modules with
  | case1 a b rest hlt =>
    cases h
    exact ⟨a, b, ⟨[], rest, rfl⟩, hlt, rfl⟩
  | case2 a b rest _ ih =>
    obtain ⟨c, d, hinfix, hlt, he⟩ := ih h
    exact ⟨c, d, hinfix.trans (suffix_cons a _).isInfix, hlt, he⟩
  | case3 => cases h

theorem fault_of_get {m : ObjectModule} (hm : m ∈ modules)
    (h : p.get m.unit = .error e) : LinkFault linker p modules tree e := by
  unfold Units.get at h
  split at h
  · cases h
  · rename_i hunknown
    cases h
    exact .unknown hm hunknown

theorem fault_of_checkUnits (h : checkUnits p.units modules = .error e) :
    LinkFault linker p modules tree e := by
  obtain ⟨m, hm, h⟩ := exists_error_of_forM h
  rcases bind_eq_error h with h | ⟨u, hu, h⟩
  · exact fault_of_get hm h
  · split at h
    · rename_i hmarked
      cases h
      exact .marked hm (Units.get_eq_ok hu) hmarked
    · cases h

/-! ### Headers -/

theorem mergeTables_eq_error (h : mergeTables modules = .error e) :
    ∃ m ∈ modules, ∃ a ∈ m.relocation.entries, e = .addressOutOfRange a m.start ∧
      0xFFFF < a.toNat + m.start.toNat := by
  unfold mergeTables at h
  generalize RelocationTable.empty = t at h
  induction modules generalizing t with
  | nil => cases h
  | cons m modules ih =>
    rcases bind_eq_error h with h | ⟨t', -, h⟩
    · have hfails : (t.merge m.relocation m.start).1 = .error e :=
        (bind_eq_error h).resolve_right fun ⟨_, _, h⟩ => by cases h
      obtain ⟨-, a, ha, he, hout, -⟩ := RelocationTable.merge_eq_error hfails
      exact ⟨m, .head _, a, ha, he, hout⟩
    · obtain ⟨m', hm', a, ha, he⟩ := ih t' h
      exact ⟨m', .tail _ hm', a, ha, he⟩

theorem fault_of_headerOf (h : (headerOf linker modules).run.run log = (.error e, log')) :
    LinkFault linker p modules tree e := by
  have hgives := gives_headerOf linker modules log
  rw [h] at hgives
  split at hgives
  · rename_i hself
    rcases bind_eq_error hgives.symm with hmerge | ⟨table, htable, h⟩
    · obtain ⟨m, hm, a, ha, rfl, hout⟩ := mergeTables_eq_error hmerge
      exact .entry hself hm ha hout
    · rcases bind_eq_error h with h | ⟨bytes, -, h⟩
      · unfold RelocationTable.toBytes at h
        split at h
        · cases h
        · cases h
          exact .entries hself htable (by omega)
      · cases h
  · cases hgives

theorem hasHeader_of_headerOf {table : RelocationTable} {header : Bytes}
    (hself : linker.selfRelocating = true)
    (h : (headerOf linker modules).run.run log = (.ok (table, header), log')) :
    HasHeader modules table header := by
  have hgives := gives_headerOf linker modules log
  rw [h, if_pos hself] at hgives
  obtain ⟨table', htable, h⟩ := bind_eq_ok hgives.symm
  obtain ⟨bytes, hbytes, h⟩ := bind_eq_ok h
  cases h
  exact ⟨htable, bytes, hbytes, rfl⟩

/-! ### Addresses -/

theorem SourceUnit.shifted_eq_error {shift : Word} {u : SourceUnit}
    (h : u.shifted shift = .error e) :
    (∃ a, u.Records a ∧ addWords a shift = .error e) ∨
      ∃ stop, u.stop = some stop ∧ 65536 < stop + shift.toNat ∧
        e = .addressOutOfRange (UInt16.ofNat (stop - 1)) shift := by
  rcases bind_eq_error h with h | ⟨tree, -, h⟩
  · left
    cases htree : u.tree with
    | none =>
      rw [htree] at h
      cases h
    | some nodes =>
      rw [htree] at h
      rcases bind_eq_error h with h | ⟨moved, -, h⟩
      · obtain ⟨n, hn, h⟩ := exists_error_of_mapM h
        unfold Node.shifted at h
        split at h
        · cases h
        · rename_i a ha
          rcases bind_eq_error h with h | ⟨b, -, h⟩
          · exact ⟨a, .inr (.inl ⟨nodes, htree, n, hn, ha⟩), h⟩
          · cases h
      · cases h
  rcases bind_eq_error h with h | ⟨start, -, h⟩
  · exact .inl ⟨u.start, .inl rfl, h⟩
  rcases bind_eq_error h with h | ⟨stop, -, h⟩
  · right
    cases hstop : u.stop with
    | none =>
      rw [hstop] at h
      cases h
    | some stop =>
      rw [hstop] at h
      simp only [shiftedEnd] at h
      split at h
      · rename_i hout
        cases h
        exact ⟨stop, rfl, hout, rfl⟩
      · cases h
  rcases bind_eq_error h with h | ⟨lines, -, h⟩
  · obtain ⟨⟨a, line⟩, hmem, h⟩ := exists_error_of_mapM h
    rcases bind_eq_error h with h | ⟨b, -, h⟩
    · exact .inl ⟨a, .inr (.inr ⟨line, hmem⟩), h⟩
    · cases h
  · cases h

theorem Table.shiftedLabels_eq_error {shift : Word} {t : Table} {unit : UnitId}
    (h : t.shiftedLabels shift unit = .error e) :
    ∃ s, t.store? unit = some s ∧ ∃ x ∈ s.symbols, ∃ a, x.address? = some a ∧
      addWords a shift = .error e := by
  unfold Table.shiftedLabels at h
  split at h
  · rename_i s hs
    obtain ⟨⟨i, a⟩, hmem, h⟩ := exists_error_of_mapM h
    obtain ⟨⟨j, x⟩, hx, hia⟩ := mem_filterMap.mp hmem
    obtain ⟨b, hb, hib⟩ := Option.map_eq_some_iff.mp hia
    cases hib
    have hsymbol := Store.mem_of_symbol? (Store.mem_ordered.mp hx)
    rcases bind_eq_error h with h | ⟨moved, -, h⟩
    · exact ⟨s, hs, x, hsymbol, a, hb, h⟩
    · cases h
  · cases h

/-- **Addresses that cannot be moved.** -/
theorem fault_of_planShift {table : RelocationTable} {header : Bytes}
    (hself : linker.selfRelocating = true) (hmove : linker.moveAddresses = true)
    (hheader : HasHeader modules table header) (hfits : header.length / 2 < 65536)
    (h : planShift p (UInt16.ofNat (header.length / 2)) (modules.map ObjectModule.unit) =
      .error e) :
    LinkFault linker p modules tree e := by
  have hword : (UInt16.ofNat (header.length / 2)).toNat = header.length / 2 :=
    UInt16.toNat_ofNat_of_lt' hfits
  have haddress : ∀ m ∈ modules, ∀ a, p.Records m.unit a →
      addWords a (UInt16.ofNat (header.length / 2)) = .error e →
      LinkFault linker p modules tree e := by
    intro m hm a ha he
    obtain ⟨rfl, hout⟩ := addWords_eq_error he
    exact .address hself hmove hheader hm ha (hword ▸ hout)
  rcases bind_eq_error h with h | ⟨units, -, h⟩
  · obtain ⟨id, hid, h⟩ := exists_error_of_mapM h
    obtain ⟨m, hm, rfl⟩ := mem_map.mp hid
    rcases bind_eq_error h with h | ⟨u, hu, h⟩
    · exact fault_of_get hm h
    · have hget := Units.get_eq_ok hu
      rcases bind_eq_error h with h | ⟨u', -, h⟩
      · rcases SourceUnit.shifted_eq_error h with ⟨a, ha, he⟩ | ⟨stop, hstop, hout, rfl⟩
        · exact haddress m hm a (.inl ⟨u, hget, ha⟩) he
        · exact .stop hself hmove hheader hm hget hstop (hword ▸ hout)
      · rcases bind_eq_error h with h | ⟨labels, -, h⟩
        · obtain ⟨s, hs, x, hx, a, ha, he⟩ := Table.shiftedLabels_eq_error h
          exact haddress m hm a (.inr ⟨s, hs, x, hx, ha⟩) he
        · cases h
  · cases h

/-! ### The layout -/

theorem gapBefore_run_error {previous : Option UnitId} {stop : Option ℕ} {m : ObjectModule}
    (h : (gapBefore linker units previous stop m).run.run log = (.error e, log')) :
    linker.selfRelocating = true ∧ ∃ n, stop = some n ∧ m.start.toNat < n ∧
      e = .overlappingModules ((previous.map units.nameOf).getD "") n
        (units.nameOf m.unit) m.start := by
  unfold gapBefore at h
  cases stop with
  | none => cases h
  | some n =>
    simp only at h
    split at h
    · rename_i hover
      rw [Bool.and_eq_true, decide_eq_true_eq] at hover
      cases h
      exact ⟨hover.1, n, rfl, hover.2, rfl⟩
    · split at h
      · cases h
      · split at h <;> cases h

/-- **Modules that cannot be laid out** overlap: the first one with what is ahead of it,
or one of them with the next. -/
theorem placeModules_run_error {xs : List (ObjectModule × Bytes)} {previous : Option UnitId}
    {stop : Option ℕ}
    (h : (placeModules linker units previous stop xs).run.run log = (.error e, log')) :
    linker.selfRelocating = true ∧
      ((∃ x rest n, xs = x :: rest ∧ stop = some n ∧ x.1.start.toNat < n ∧
        e = .overlappingModules ((previous.map units.nameOf).getD "") n
          (units.nameOf x.1.unit) x.1.start) ∨
      ∃ x y, [x, y] <:+: xs ∧ y.1.start.toNat < x.1.start.toNat + x.2.length / 2 ∧
        e = .overlappingModules (units.nameOf x.1.unit) (x.1.start.toNat + x.2.length / 2)
          (units.nameOf y.1.unit) y.1.start) := by
  induction xs generalizing previous stop log log' with
  | nil => cases h
  | cons x xs ih =>
    rcases Logged.bind_run_error h with h | ⟨gap, said, -, h⟩
    · obtain ⟨hself, n, hstop, hlt, he⟩ := gapBefore_run_error h
      exact ⟨hself, .inl ⟨x, xs, n, rfl, hstop, hlt, he⟩⟩
    · rcases Logged.bind_run_error h with h | ⟨after, said', -, h⟩
      · obtain ⟨hself, h⟩ := ih h
        refine ⟨hself, .inr ?_⟩
        rcases h with ⟨y, rest, n, rfl, hn, hlt, he⟩ | ⟨y, z, hinfix, hlt, he⟩
        · cases hn
          exact ⟨x, y, ⟨[], rest, rfl⟩, hlt, he⟩
        · exact ⟨y, z, hinfix.trans (suffix_cons x xs).isInfix, hlt, he⟩
      · cases h

theorem fault_of_placeModules {codes : List Bytes}
    (hcodes : (modules.mapM fun m => m.code.resource.readBytes tree) = .ok codes)
    (h : (placeModules linker p.units none (if linker.selfRelocating then some 0 else none)
      (modules.zip codes)).run.run log = (.error e, log')) :
    LinkFault linker p modules tree e := by
  have hread := forall₂_of_mapM hcodes
  obtain ⟨hself, ⟨x, rest, n, -, hn, hlt, -⟩ | ⟨x, y, hinfix, hlt, rfl⟩⟩ :=
    placeModules_run_error h
  · -- nothing is ahead of the first module
    rw [if_pos hself] at hn
    cases hn
    exact absurd hlt (Nat.not_lt_zero _)
  · have hmodules : [x.1, y.1] <:+: modules := by
      have hmap := hinfix.map Prod.fst
      rwa [map_fst_zip (Nat.le_of_eq hread.length_eq)] at hmap
    have hx : x ∈ modules.zip codes := hinfix.subset (.head _)
    exact .overlap hself hmodules (forall₂_zip hread hx) hlt

/-! ### Links -/

/-- **Whatever is wrong with a link** is found in working it out. -/
theorem fault_of_planLink (h : (planLink linker p modules tree).run.run log = (.error e, log')) :
    LinkFault linker p modules tree e := by
  rcases Logged.bind_run_error h with h | ⟨-, _, -, h⟩
  · rw [Logged.run_quietly] at h
    obtain ⟨a, b, hinfix, hlt, rfl⟩ := checkStarts_eq_error (congrArg Prod.fst h)
    exact .order hinfix hlt
  rcases Logged.bind_run_error h with h | ⟨-, _, -, h⟩
  · rw [Logged.run_quietly] at h
    exact fault_of_checkUnits (congrArg Prod.fst h)
  rcases Logged.bind_run_error h with h | ⟨codes, _, hcodes, h⟩
  · rw [Logged.run_quietly] at h
    obtain ⟨m, hm, he⟩ := exists_error_of_mapM (congrArg Prod.fst h)
    exact .unreadable hm he
  rcases Logged.bind_run_error h with h | ⟨⟨table, header⟩, _, hheader, h⟩
  · exact fault_of_headerOf h
  rcases Logged.bind_run_error h with h | ⟨shift, _, -, h⟩
  · rw [Logged.run_quietly] at h
    have hplan : planFor linker p modules table header = .error e := congrArg Prod.fst h
    unfold planFor at hplan
    split at hplan
    · rename_i hflags
      rw [Bool.and_eq_true] at hflags
      have hhas := hasHeader_of_headerOf hflags.1 hheader
      split at hplan
      · rename_i hfits
        cases hshift : planShift p (UInt16.ofNat (header.length / 2))
            (modules.map ObjectModule.unit) with
        | ok plan =>
          rw [hshift] at hplan
          cases hplan
        | error e' =>
          rw [hshift] at hplan
          cases hplan
          exact fault_of_planShift hflags.1 hflags.2 hhas hfits hshift
      · cases hplan
        exact .header hflags.1 hflags.2 hhas (by omega)
    · cases hplan
  rcases Logged.bind_run_error h with h | ⟨body, _, -, h⟩
  · rw [Logged.run_quietly] at hcodes
    exact fault_of_placeModules (congrArg Prod.fst hcodes) h
  · cases h

/-- **A link that fails changes nothing.** There is something wrong with the modules or
the program, not a byte has been written, and the program is what it was; the link may
have said something. -/
theorem failed_link_changes_nothing {s s' : Linking}
    (h : link linker modules tree s = (.error e, s')) :
    s' = { s with log := s'.log } ∧ LinkFault linker s.program modules tree e := by
  rcases hplan : (planLink linker s.program modules tree).run.run s.log with ⟨e' | plan, log⟩
  · unfold link at h
    rw [hplan] at h
    cases h
    exact ⟨rfl, fault_of_planLink hplan⟩
  · -- once the image is written, nothing can fail
    obtain ⟨linked, s'', hok, -⟩ := link_of_planLink hplan
    rw [hok] at h
    cases h

/-- Two modules at one address. -/
def overlapping : List ObjectModule := [labelledModule, { labelledModule with unit := 1 }]

/-- They cannot be laid out. -/
theorem failed_link_changes_nothing_overlap :
    ∃ s', link selfRelocating overlapping {} ⟨labelled, [1, 2], []⟩ =
        (.error (.overlappingModules "a" 3 "b" 2), s') ∧
      s'.output = [1, 2] ∧ s'.program = labelled := by
  have hlink : link selfRelocating overlapping {} ⟨labelled, [1, 2], []⟩ =
      (.error (.overlappingModules "a" 3 "b" 2),
        (link selfRelocating overlapping {} ⟨labelled, [1, 2], []⟩).2) :=
    Prod.ext (by decide +kernel) rfl
  obtain ⟨hsame, -⟩ := failed_link_changes_nothing hlink
  exact ⟨_, hlink, by rw [hsame], by rw [hsame]⟩

end WordAsm
