/-
# Self-relocating images of compiled programs

The object code of a compiled unit fits into memory at the start of the unit, and
its relocation table holds places of words only (`Product.loads`). So the modules
of a compiled program can be linked into a self-relocating image exactly if they
do not overlap and their entries can be counted, and the table of the image
points to the words that the units have recorded (`self_relocating_image`).
-/
import WordAsm.Proofs.Linking
import WordAsm.Proofs.ObjectCode

namespace WordAsm

open List

section Modules

variable {cfg : Settings} {tree : FileTree}

/-- **The module of a compiled unit** fits into memory, and records places of words. -/
theorem Product.loads {t : Table} {u : SourceUnit} {nodes : SyntaxTree} {stop : ℕ}
    (h : Product cfg tree t u nodes stop) {code : ObjectCode}
    (hread : ∀ tree, code.resource.readBytes tree =
      .ok (bytesOfWords ((unitCells t u.id u.start.toNat nodes).map Prod.fst))) (id : UnitId) :
    ObjectModule.Loads ⟨id, code, u.start, u.relocation⟩
      ((unitCells t u.id u.start.toNat nodes).map Prod.fst) := by
  refine ⟨hread, ?_, fun e he => ?_⟩
  · rw [length_map]
    exact h.length_le
  · obtain ⟨-, w, hw⟩ := h.mem_relocation.mp he
    rw [length_map]
    exact (List.getElem?_eq_some_iff.mp hw).1

theorem exists_mapM {ε α β γ : Type} {f : α → Except ε β} {R : β → γ → Prop} {xs : List α}
    (h : ∀ x ∈ xs, ∃ y z, f x = .ok y ∧ R y z) :
    ∃ ys : List (β × γ), xs.mapM f = .ok (ys.map Prod.fst) ∧ ∀ y ∈ ys, R y.1 y.2 := by
  induction xs with
  | nil => exact ⟨[], rfl, fun y hy => by cases hy⟩
  | cons x xs ih =>
    obtain ⟨y, z, hy, hR⟩ := h x mem_cons_self
    obtain ⟨ys, hys, hall⟩ := ih fun x' hx' => h x' (mem_cons_of_mem _ hx')
    refine ⟨(y, z) :: ys, ?_, fun w hw => ?_⟩
    · rw [mapM_cons, hy, hys]
      rfl
    · rcases mem_cons.mp hw with rfl | hw
      · exact hR
      · exact hall w hw

/-- The modules of a compiled program can be collected, and belong to units without
errors. -/
theorem collect_of_products {q : Program} (hw : q.WellFormed) (he : q.hasErrors = false)
    (h : ∀ u ∈ q.ordered, ∃ nodes stop, Product cfg tree q.symbols u nodes stop) :
    ∃ ms : List (ObjectModule × List Word), ObjectModule.collect q.units = .ok (ms.map Prod.fst) ∧
      ∀ x ∈ ms, x.1.Loads x.2 ∧
        ∃ u, q.get? x.1.unit = some u ∧ u.hasErrors = false := by
  refine exists_mapM (R := fun (m : ObjectModule) ws => m.Loads ws ∧
    ∃ u, q.get? m.unit = some u ∧ u.hasErrors = false) fun id hid => ?_
  obtain ⟨u, hu, -⟩ := hw.exists_get? hid
  obtain ⟨nodes, stop, hprod⟩ := h u (Units.mem_ordered_iff.mpr ⟨id, hid, hu⟩)
  obtain ⟨code, hcode, hread⟩ := hprod.emitted.words
  refine ⟨⟨id, code, u.start, u.relocation⟩, _, ?_, hprod.loads hread id, u, hu,
    Program.noErrors_get? he hu⟩
  unfold ObjectModule.ofUnit Units.get
  simp only [hu, hcode, bind, Except.bind]
  rfl

end Modules

/-- **Self-relocating images are well indexed.** The modules of a program that has
been compiled can be collected. Linking them succeeds exactly if their starts ascend,
each ends where the next one starts or before, and they have at most 65535 entries
together. The output is then the stub, the merged table and an image in which every
word has its place and every entry of the table is the place of a word that a module
has recorded. -/
theorem self_relocating_image {cfg : Settings} {p : Program} {tree : FileTree}
    (hsink : cfg.sink = .memory) (hw : p.WellFormed)
    (h : (compile cfg p tree).1 = true)
    (hshort : (compile cfg p tree).2.ShortLists cfg.switches tree)
    (files : FileTree) {s : Linking}
    (hs : s.program = (compile cfg p tree).2.program) :
    ∃ ms : List (ObjectModule × List Word),
      ObjectModule.collect s.units = .ok (ms.map Prod.fst) ∧
      (∀ x ∈ ms, x.1.Loads x.2) ∧
      ((∃ linked, (link selfRelocating (ms.map Prod.fst) files s).1 = .ok linked) ↔ Linkable ms) ∧
      ∀ linked s', link selfRelocating (ms.map Prod.fst) files s = (.ok linked, s') →
        ∃ bytes image, linked.relocation.toBytes = .ok bytes ∧
          s'.output = s.output ++ (stub ++ bytes ++ bytesOfWords image) ∧
          s'.program = s.program ∧ IndexedImage ms image linked.relocation := by
  obtain ⟨hw', hproduct⟩ := product_of_compile hsink hw h hshort
  have he : (compile cfg p tree).2.hasErrors = false := by
    obtain ⟨_, -, hemission⟩ := passes_of_compile hsink hw h
    exact hemission.noErrors
  rw [← hs] at hw' hproduct he
  obtain ⟨ms, hcollect, hms⟩ := collect_of_products hw' he hproduct
  have hloads : ∀ x ∈ ms, x.1.Loads x.2 := fun x hx => (hms x hx).1
  have hunits := fun x hx => (hms x hx).2
  refine ⟨ms, hcollect, hloads,
    ⟨fun ⟨linked, hlink⟩ => linkable_of_link hloads hunits hlink, fun hl => ?_⟩,
    fun linked s' hlink => ?_⟩
  · obtain ⟨linked, _, _, _, hlink, -⟩ := link_of_linkable files hloads hunits hl
    exact ⟨linked, by rw [hlink]⟩
  · have hl := linkable_of_link hloads hunits (congrArg Prod.fst hlink)
    obtain ⟨linked', log, bytes, image, hlink', hbytes, himage⟩ :=
      link_of_linkable files hloads hunits hl
    rw [hlink] at hlink'
    cases hlink'
    exact ⟨bytes, image, hbytes, rfl, rfl, himage⟩

/-- Where a module starts, and the length of its object code in bytes. -/
def ObjectModule.span (m : ObjectModule) : ℕ × ℕ :=
  (m.start.toNat, ((m.code.resource.readBytes {}).toOption.getD []).length)

theorem ObjectModule.Loads.span_eq {m : ObjectModule} {ws : List Word} (h : m.Loads ws) :
    m.span = (m.start.toNat, 2 * ws.length) := by
  unfold span
  rw [h.reads {}]
  exact congrArg _ (length_bytesOfWords ws)

/-- A program and its library can be linked. -/
theorem self_relocating_image_library :
    ∃ modules linked,
      ObjectModule.collect (compile librarySettings libraryCall {}).2.units =
        .ok modules ∧
      (link selfRelocating modules {}
        ⟨(compile librarySettings libraryCall {}).2.program, [], []⟩).1 = .ok linked := by
  obtain ⟨ms, hcollect, hloads, hiff, -⟩ := @self_relocating_image librarySettings libraryCall
    {} rfl (Program.wellFormed_ofResources _) (by decide +kernel) (by decide +kernel) {}
    ⟨(compile librarySettings libraryCall {}).2.program, [], []⟩ rfl
  have hspans : (ObjectModule.collect
      (compile librarySettings libraryCall {}).2.units).toOption.map
        (·.map ObjectModule.span) = some [(0, 8), (4, 4)] := by decide +kernel
  have hlinkable : Linkable ms := by
    rw [show ObjectModule.collect (compile librarySettings libraryCall {}).2.units =
      _ from hcollect] at hspans
    have hmap : (ms.map Prod.fst).map ObjectModule.span = [(0, 8), (4, 4)] := Option.some.inj hspans
    obtain ⟨x, y, rfl⟩ := length_eq_two.mp (by simpa using congrArg List.length hmap)
    have hx := hloads x (by simp)
    have hy := hloads y (by simp)
    simp only [map_cons, map_nil, hx.span_eq, hy.span_eq, List.cons.injEq,
      Prod.mk.injEq, and_true] at hmap
    have hlx := hx.size_le
    have hly := hy.size_le
    refine ⟨?_, ?_, ?_⟩
    · simp [UInt16.le_iff_toNat_le, hmap]
    · simp only [isChain_cons_cons, isChain_singleton, and_true]
      omega
    · simp only [map_cons, map_nil, sum_cons, sum_nil]
      omega
  obtain ⟨linked, hlink⟩ := hiff.mpr hlinkable
  exact ⟨_, linked, hcollect, hlink⟩

end WordAsm
