/-
# Object code in files

Object code that is written to files is read back as what memory would hold, if every unit has an
object file of its own: the paths of the files lead to different places. Files are named after
sources without their extension, and in a given directory without theirs, so different sources may
share one; then the unit that is emitted last has it.

The phases ahead of the emission do the same whatever the object code goes to. The emission is run
on two builds abreast (`Filed`): the units differ in their object code only, and the file of each
unit that has been emitted holds the bytes that the other has in memory.
-/
import WordAsm.Proofs.CodeExtent
import WordAsm.Proofs.PermissiveSwitches

namespace WordAsm

open List

variable {dir : Option String} {tree : FileTree}

namespace FileTree

variable {t : FileTree} {q x : Place} {bytes : Bytes} {path : String}

theorem contents?_put_self (t : FileTree) (q : Place) (bytes : Bytes) :
    (t.put q bytes).contents? q = some bytes := by
  obtain ⟨held, hheld⟩ := Option.isSome_iff_exists.mp (isFile_put.mpr (.inr rfl) :
    (t.put q bytes).isFile q = true)
  have hlast : lastPut [(q, bytes)] q = some bytes := by simp [lastPut]
  have hmem : (q, held) ∈ (t.puts [(q, bytes)]).files := mem_of_lookup hheld
  rw [hheld, show held = bytes from eq_of_lastPut hmem hlast]

theorem contents?_put_of_ne (h : x ≠ q) (bytes : Bytes) :
    (t.put q bytes).contents? x = t.contents? x := by
  unfold put contents?
  split
  · simp only
    induction t.files with
    | nil => rfl
    | cons f fs ih =>
      rw [map_cons, lookup_cons, lookup_cons, ih]
      by_cases hf : f.1 = q
      · rw [if_pos hf, hf, beq_false_of_ne h]
      · rw [if_neg hf]
  · simp [lookup_append, lookup_cons, beq_false_of_ne h]

theorem readBytes?_of_target? (hq : t.target? path = some q) (hbytes : t.contents? q = some bytes) :
    t.readBytes? path = some bytes := by
  unfold target? at hq
  unfold readBytes?
  split at hq
  · rename_i p hfind
    split at hq
    · cases hq
      rw [hfind]
      exact hbytes
    · cases hq
  · rename_i hnone
    have hvacant := (vacant_of_newPlace? hnone hq).2
    rw [isFile, hbytes] at hvacant
    cases hvacant

end FileTree

abbrev SourceUnit.objectPath (dir : Option String) (u : SourceUnit) : String :=
  ObjectSink.objectPath dir u.identifier u.id

/-- The place of the object file of the unit `i`. -/
def Units.objectPlace? (dir : Option String) (tree : FileTree) (us : Units) (i : UnitId) :
    Option Place :=
  us.sources[i]?.bind fun s => tree.target? (ObjectSink.objectPath dir s.2.identifier s.1)

/-- No two queued units have the same object file. -/
def Units.FiledApart (dir : Option String) (tree : FileTree) (us : Units) : Prop :=
  ∀ i ∈ us.order, ∀ j ∈ us.order, ∀ q ∈ us.objectPlace? dir tree i,
    us.objectPlace? dir tree j = some q → i = j

theorem Units.objectPlace?_of_get? {us : Units} {i : UnitId} {u : SourceUnit}
    (hu : us.get? i = some u) : us.objectPlace? dir tree i = tree.target? (u.objectPath dir) := by
  rw [objectPlace?, getElem?_sources, hu]
  rfl

theorem Units.FiledApart.of_within {us vs : Units} (h : vs.FiledApart dir tree)
    (hus : us.Within vs) : us.FiledApart dir tree := by
  have hplace : ∀ i q, us.objectPlace? dir tree i = some q → vs.objectPlace? dir tree i = some q := by
    intro i q hq
    obtain ⟨s, hs, hq⟩ := Option.bind_eq_some_iff.mp hq
    obtain ⟨rest, hrest⟩ := hus.sources
    rw [objectPlace?, ← hrest, getElem?_append_left (List.getElem?_eq_some_iff.mp hs).1, hs]
    exact hq
  intro i hi j hj q hq hq'
  exact h i (hus.order.subset hi) j (hus.order.subset hj) q (hplace i q hq) (hplace j q hq')

/-- The unit `u` has in a file of `files` what `u'` has in memory, which only queued units come to
have, or they have the same object code. -/
structure SourceUnit.Filed (dir : Option String) (files : FileTree) (queue : List UnitId)
    (u u' : SourceUnit) : Prop where
  rest : u' = { u with code := u'.code }
  code : u'.code = u.code ∨ u.id ∈ queue ∧ ∃ q bytes first last,
    u.code = some ⟨.file (u.objectPath dir), first, last⟩ ∧
    u'.code = some ⟨.memory (u.identifier ++ ".bin") bytes, first, last⟩ ∧
    files.target? (u.objectPath dir) = some q ∧ files.contents? q = some bytes

theorem SourceUnit.Filed.put {files : FileTree} {queue : List UnitId} {u u' : SourceUnit}
    (h : u.Filed dir files queue u') {path : String} {q : Place} {bytes : Bytes}
    (hq : files.target? path = some q)
    (hne : u.id ∈ queue → files.target? (u.objectPath dir) ≠ some q) :
    u.Filed dir (files.put q bytes) queue u' := by
  refine ⟨h.rest, h.code.imp_right ?_⟩
  rintro ⟨hin, x, held, first, last, hu, hu', hx, hheld⟩
  refine ⟨hin, x, held, first, last, hu, hu', by rwa [FileTree.target?_put hq], ?_⟩
  have hxq : x ≠ q := by
    rintro rfl
    exact hne hin hx
  rwa [FileTree.contents?_put_of_ne hxq]

/-- Two builds that differ in where the object code is. -/
structure Filed (dir : Option String) (tree : FileTree) (b b' : Build) : Prop where
  wellFormed : b.WellFormed
  symbols : b'.symbols = b.symbols
  order : b'.order = b.order
  units : ∀ id, Option.Rel (SourceUnit.Filed dir b.tree b.order)
    (b.get? id) (b'.get? id)
  targets : b.tree.target? = tree.target?

section Emission

variable {cfg cfg' : Settings} (hfiles : cfg.sink = .files dir)
  (hmemory : cfg'.sink = .memory) (hswitches : cfg'.switches = cfg.switches)
  {b b' : Build} {u u' : SourceUnit}

include hfiles hmemory hswitches

/-- **One unit is emitted on both sides**, if that leaves no errors. -/
theorem Filed.run (h : Filed dir tree b b') (hu : b.get? u.id = some u)
    (hu' : b'.get? u.id = some u')
    (hqueued : u.id ∈ b.order)
    (he : (runUnit cfg emissionPhase u b).hasErrors = false)
    (hapart : b.units.FiledApart dir tree) :
    Filed dir tree (runUnit cfg emissionPhase u b)
      (runUnit cfg' emissionPhase u' b') := by
  obtain ⟨v, hv, hfiled⟩ := rel_some (h.units u.id) hu
  obtain rfl : u' = v := Option.mem_unique hu' hv
  obtain ⟨held, rfl⟩ : ∃ held, u' = { u with code := held } := ⟨_, hfiled.rest⟩
  have hg := emissionPhase_grows cfg u b
  have hrun := ok_of_grows hg h.wellFormed hu he
  obtain ⟨nodes, m, code, htree, hm, hclose, hprogram⟩ := emission_of_ok hrun
  have hm' : emitNodes cfg'.switches b'.symbols { u with code := held } nodes =
      .ok m := by
    rw [hswitches, h.symbols]
    exact hm
  obtain ⟨hok, -, hprogram'⟩ := emitUnit_ok hmemory hm'
  have hrun' : emissionPhase.run cfg' { u with code := held } b' =
      (.ok (), (emitUnit cfg' { u with code := held } nodes b').2) :=
    (emissionPhase_of_tree htree).trans (Prod.ext hok rfl)
  have hgrown := grows_runUnit hg
  rw [runUnit_of_ok hrun']
  rw [hfiles] at hclose
  simp only [ObjectSink.close, FileTree.write?_eq] at hclose
  cases hq : b.tree.target? (u.objectPath dir) with
  | none => simp [hq] at hclose
  | some q =>
    simp only [hq, Option.map_some, Except.ok.injEq, Prod.mk.injEq] at hclose
    obtain ⟨rfl, hput⟩ := hclose
    refine ⟨hgrown.wellFormed h.wellFormed, ?_, ?_, fun id => ?_, ?_⟩
    · rw [hprogram, hprogram']
      exact h.symbols
    · rw [hprogram, hprogram']
      exact h.order
    · rw [hprogram, hprogram', ← hput]
      simp only [Program.modifyUnit, Units.get?_modify]
      split
      · rename_i heq
        subst heq
        rw [hu, hu']
        exact .some ⟨rfl, .inr ⟨hqueued, q, m.buffer.toBytes, _, _, rfl, rfl,
          (congrFun (FileTree.target?_put hq _) _).trans hq, FileTree.contents?_put_self ..⟩⟩
      · rename_i hne
        have hrel := h.units id
        cases hw : b.get? id with
        | none =>
          rw [rel_none hrel hw]
          exact .none
        | some w =>
          obtain ⟨w', hw', hfiledw⟩ := rel_some hrel hw
          rw [hw']
          refine .some (hfiledw.put hq fun hin hx => hne ?_)
          obtain rfl := h.wellFormed.numbered id w hw
          rw [h.targets] at hq hx
          exact hapart _ hqueued _ hin q ((Units.objectPlace?_of_get? hu).trans hq)
            ((Units.objectPlace?_of_get? hw).trans hx)
    · rw [← hput, FileTree.target?_put hq, h.targets]

/-- **The emission on two builds abreast.** -/
theorem filed_abreast : Abreast cfg cfg' emissionSlot
    (fun p => p.hasErrors = false ∧ p.units.FiledApart dir tree)
    (fun p => p.hasErrors = false ∧ p.units.FiledApart dir tree) (Filed dir tree) where
  grows u b := grows_runUnit (emissionPhase_grows cfg u b)
  onWay _ _ hg h := ⟨hg.noErrors h.1, h.2.of_within hg.within⟩
  told _ _ _ _ _ h := ⟨h.wellFormed, h.symbols, h.order, h.units, h.targets⟩
  order _ _ h := h.order ▸ prefix_refl _
  stop _ _ h _ := h.order
  unit b b' id h _ := rel_imp (h.units id) fun u u' hfiled => by
    rw [hfiled.rest]
    exact ⟨rfl, rfl, rfl⟩
  run b b' id u u' h hD hid hu hu' := by
    have hgrown := grows_runUnit (emissionPhase_grows cfg u b)
    obtain rfl := h.wellFormed.numbered id u hu
    exact h.run hfiles hmemory hswitches hu hu' hid hD.1 (hD.2.of_within hgrown.within)

end Emission

/-! ### Whole compilations -/

section Compilation

variable {cfg : Settings}

/-- The settings with object code kept in memory. -/
abbrev Settings.inMemory (cfg : Settings) : Settings := { cfg with sink := .memory }

/-- **Files hold what memory would.** If object code goes to files and the compilation succeeds,
and no two queued units have the same object file, then it succeeds with object code in memory, too, and
what is read of the object code of every queued unit afterwards is the same. -/
theorem filed_code_reads_as_memory (hsink : cfg.sink = .files dir) {p : Program}
    (hw : p.WellFormed) (tree : FileTree)
    (h : (compile cfg p tree).1 = true)
    (hapart : (compile cfg p tree).2.units.FiledApart dir tree) :
    let r := compile cfg p tree
    let r' := compile cfg.inMemory p tree
    r'.1 = true ∧ r'.2.order = r.2.order ∧
      ∀ id ∈ r.2.order, ∃ u u' code code' bytes,
        r.2.get? id = some u ∧ r'.2.get? id = some u' ∧
        u.code = some code ∧ u'.code = some code' ∧
        code.resource.readBytes r.2.tree = .ok bytes ∧
        code'.resource.readBytes r'.2.tree = .ok bytes := by
  intro r r'
  obtain ⟨hgo, he⟩ := compile_success.mp h
  -- the phases ahead of the emission
  have heases : cfg.Eases cfg.inMemory := ⟨Switches.Eases.refl _, rfl⟩
  obtain ⟨c, c', hagree, hwell, hc, hlast, hlast'⟩ := standard_ahead heases
    (⟨rfl, rfl, rfl, rfl⟩ : (opening p tree).Agree Eq (opening p tree)) (reset_wellFormed hw) hgo he
  have htree : c.tree = tree := hc ▸
    (runPipeline_keeps_build (I := fun b => b.WellFormed ∧ b.tree = tree)
      (fun _ _ hb => hb) (fun slot hslot b hb => by
        obtain ⟨-, hw', hkept⟩ := grows_runPhase slot (preparation_steady cfg slot hslot) hb.1
        exact ⟨hw', hkept.trans hb.2⟩) ⟨reset_wellFormed hw, rfl⟩).2
  have hstart : Filed dir tree c c' := by
    refine ⟨hwell, by rw [hagree.program], by rw [hagree.program], fun id => ?_, by rw [htree]⟩
    rw [← hagree.program]
    cases c.get? id with
    | none => exact .none
    | some u => exact .some ⟨rfl, .inl rfl⟩
  -- the emission
  have hrun : runPipeline cfg [emissionSlot] c =
      (false, (runPhase cfg emissionSlot c).2) := runPipeline_cons rfl (hlast ▸ hgo)
  have hend : (runPipeline cfg .standard (opening p tree)).2 =
      (runPhase cfg emissionSlot c).2 := by
    rw [hlast, hrun]
  have htold : ∀ (b b' : Build) more, Filed dir tree b b' →
      Filed dir tree { b with notices := b.notices ++ more }
        { b' with notices := b'.notices ++ more } :=
    fun _ _ _ h => ⟨h.wellFormed, h.symbols, h.order, h.units, h.targets⟩
  have habreast : Abreast cfg cfg.inMemory emissionSlot _ _ (Filed dir tree) :=
    filed_abreast hsink rfl rfl
  have hphase := habreast.runPhase hstart ⟨hend ▸ he, hend ▸ hapart⟩
    (.inl (by unfold queueBound; rw [hagree.program, hagree.tree]))
  have hstep : InStep (Filed dir tree) (runPipeline cfg [emissionSlot] c)
      (runPipeline cfg.inMemory [emissionSlot] c') :=
    runPipeline_cons_abreast htold (by rw [hagree.program]) (fun _ => hstart) (fun _ => hphase)
      fun _ => by rw [runPipeline, runPipeline]; exact ⟨rfl, hphase.2⟩
  rw [← hlast, ← hlast'] at hstep
  obtain ⟨hflag, hfiled⟩ := hstep
  replace hfiled : Filed dir tree r.2 r'.2 :=
    ⟨hfiled.wellFormed, hfiled.symbols, hfiled.order, hfiled.units, hfiled.targets⟩
  have hsuccess' : r'.1 = true := by
    have he' : r'.2.hasErrors = false := Program.noErrors_iff.mpr fun id u' hu' => by
      obtain ⟨u, hu, hunit⟩ := rel_some_right (hfiled.units id) hu'
      rw [hunit.rest]
      exact Program.noErrors_iff.mp he id u hu
    exact compile_success.mpr ⟨hflag.trans hgo, he'⟩
  refine ⟨hsuccess', hfiled.order, fun id hid => ?_⟩
  obtain ⟨u', nodes, buffer, hu', -, ⟨code', hcode', hread⟩, -⟩ :=
    portioned_of_compile rfl hw hsuccess' id (hfiled.order ▸ hid)
  obtain ⟨u, hu, hunit⟩ := rel_some_right (hfiled.units id) hu'
  rcases hunit.code with hsame | ⟨-, q, bytes, first, last, hcode, hheld, hq, hbytes⟩
  · exact ⟨u, u', code', code', _, hu, hu', hsame ▸ hcode', hcode', hread _, hread _⟩
  · refine ⟨u, u', _, _, bytes, hu, hu', hcode, hheld, ?_, rfl⟩
    simp only [Resource.readBytes, FileTree.readBytes?_of_target? hq hbytes]

end Compilation

/-- Two sources in one directory, with the same name but for the extension. -/
def twinFiles : FileTree where
  files := [(["a.s"], Utf8.encode ".word 1"), (["a.rk"], Utf8.encode ".word 2")]

/-- Two sources in a working directory, and a directory for object files beside it. -/
def benchFiles : FileTree where
  here := ["bench"]
  directories := [["obj"]]
  files := [(["bench", "a.s"], Utf8.encode ".word 1"), (["bench", "b.s"], Utf8.encode ".word 3")]

/-- Sources with different names; one of them and the directory for object files are given from the
root. -/
theorem filed_code_reads_as_memory_named :
    let p : Program := .ofResources [.file "/bench/a.s", .file "b.s"]
    let r := compile { besideSources with sink := .files (some "/obj") } p benchFiles
    let r' := compile { besideSources with sink := .memory } p benchFiles
    (r.1 = true ∧ r.2.units.FiledApart (some "/obj") benchFiles ∧ r.2.order = [0, 1] ∧
      r.2.tree.readBytes? "/obj/a.o" = some [0, 1] ∧
      r.2.tree.readBytes? "/obj/b.o" = some [0, 3]) ∧
    ∀ id ∈ r.2.order, ∃ u u' code code' bytes,
      r.2.get? id = some u ∧ r'.2.get? id = some u' ∧
      u.code = some code ∧ u'.code = some code' ∧
      code.resource.readBytes r.2.tree = .ok bytes ∧
      code'.resource.readBytes r'.2.tree = .ok bytes := by
  intro p r r'
  have hsuccess : r.1 = true := by decide +kernel
  have hapart : r.2.units.FiledApart (some "/obj") benchFiles := by
    unfold Units.FiledApart
    decide +kernel
  exact ⟨⟨hsuccess, hapart, by decide +kernel⟩, (filed_code_reads_as_memory rfl
    (Program.wellFormed_ofResources _) benchFiles hsuccess hapart).2.2⟩

/-- The object code of the second source takes the place of that of the first. -/
theorem twins_share_object_file :
    let r := compile besideSources (.ofResources [.file "a.s", .file "a.rk"]) twinFiles
    r.1 = true ∧ r.2.ordered.map (fun u => u.code.map (·.resource)) =
      [some (.file "a.o"), some (.file "a.o")] ∧ r.2.tree.readBytes? "a.o" = some [0, 2] := by
  decide +kernel

end WordAsm
