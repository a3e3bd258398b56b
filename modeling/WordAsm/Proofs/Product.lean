/-
# The product of a compilation

Emitting a prepared unit succeeds, and the words of its object code are those of
its cells, with the places of the cells that move in its relocation table
(`Emitted`). After a compilation that succeeds, that holds of every queued unit
(`product_of_compile`), which is what everything about object code and images
goes back to.
-/
import WordAsm.Proofs.Preparation

namespace WordAsm

def SourceUnit.HasWords (u : SourceUnit) (ws : List Word) : Prop :=
  ∃ code, u.code = some code ∧ ∀ tree, code.resource.readBytes tree = .ok (bytesOfWords ws)

/-- The unit has been emitted: its object code holds the words of its cells, and
its relocation table the places of those that move. -/
structure Emitted (switches : Switches) (t : Table) (u : SourceUnit) (nodes : SyntaxTree) :
    Prop where
  words : u.HasWords ((unitCells t u.id u.start.toNat nodes).map Prod.fst)
  relocation : ∀ a, a ∈ u.relocation.entries ↔ switches.has .relocationInformation = true ∧
    a ∈ segmentMarks (codeSegments t u.id u.start.toNat nodes)

section Unit

variable {switches : Switches} {tree : FileTree} {t : Table} {u : SourceUnit}
  {nodes : SyntaxTree} {stop : ℕ}

theorem Assembled.sound (h : Assembled switches tree t u nodes stop) :
    ∀ n ∈ nodes, n.statement.Sound := by
  intro n hn
  obtain ⟨m, hm, f, -, hs⟩ := forall₂_mem_right h.means hn
  rw [hs]
  exact (u.source_sound switches tree m hm).mapCode f

theorem Assembled.emittable (h : Assembled switches tree t u nodes stop)
    (hv : Valid switches t u nodes) :
    ∀ n ∈ nodes, n.statement.isCode = true → Emittable t u.id n :=
  fun n hn hc => ⟨h.sound n hn, hv.valued n hn, h.placed.measured n hn hc⟩

theorem emitted_withEmission {m : Emission}
    (hwords : m.buffer.words.toList = (unitCells t u.id u.start.toNat nodes).map Prod.fst)
    (hrel : m.relocations = if switches.has .relocationInformation then
      segmentMarks (codeSegments t u.id u.start.toNat nodes) else [])
    (hbefore : Emitted switches t u nodes ∨ u.relocation = .empty) :
    Emitted switches t (u.withEmission m (u.memoryCode m)) nodes := by
  refine ⟨⟨_, rfl, fun _ => ?_⟩, fun a => ?_⟩
  · rw [← show (u.withEmission m (u.memoryCode m)).id = u.id from rfl,
      ← show (u.withEmission m (u.memoryCode m)).start = u.start from rfl] at hwords
    show Except.ok m.buffer.toBytes = _
    unfold WordBuffer.toBytes
    rw [hwords]
  · have hnew : a ∈ m.relocations ↔ switches.has .relocationInformation = true ∧
        a ∈ segmentMarks (codeSegments t u.id u.start.toNat nodes) := by
      rw [hrel]
      by_cases hr : switches.has .relocationInformation = true
      · simp [hr]
      · simp [hr]
    have hinsert : a ∈ (u.withEmission m (u.memoryCode m)).relocation.entries ↔
        a ∈ u.relocation.entries ∨ a ∈ m.relocations := RelocationTable.mem_insertAll
    rw [hinsert, hnew]
    rcases hbefore with hem | hempty
    · rw [hem.relocation a]
      exact or_self_iff
    · rw [hempty]
      simp [RelocationTable.empty, SourceUnit.withEmission]

end Unit

/-- The units of an emission that has come to position `k`. -/
structure EmittedUpTo (cfg : Settings) (tree : FileTree) (k : ℕ) (p : Program) : Prop where
  wellFormed : p.WellFormed
  markers : p.Each fun u => ∀ m ∈ u.markers, m.kind ≠ .genericError
  idle : ∀ id ∉ p.order, ∀ u, p.get? id = some u → u.Unbuilt
  units : ∀ id ∈ p.order, ∀ u, p.get? id = some u → ∃ nodes stop,
    Assembled cfg.switches tree p.symbols u nodes stop ∧
      Valid cfg.switches p.symbols u nodes ∧
      (Emitted cfg.switches p.symbols u nodes ∨
        id ∉ p.order.take k ∧ u.relocation = .empty)

section Pass

variable {cfg : Settings} {tree : FileTree} {p : Program}

theorem Program.Prepared.emittedUpTo (h : p.Prepared cfg tree) :
    EmittedUpTo cfg tree 0 p := by
  refine ⟨h.wellFormed, fun i u hu => (h.unbuilt i u hu).markers, fun i _ => h.unbuilt i,
    fun id hid u hu => ?_⟩
  obtain ⟨nodes, stop, hasm, hvalid⟩ := h.units id hid u hu
  exact ⟨nodes, stop, hasm, hvalid, .inr ⟨by simp, (h.unbuilt id u hu).relocation⟩⟩

/-- **The emission of one more unit** succeeds, and adds no marker. -/
theorem EmittedUpTo.visit (hsink : cfg.sink = .memory) {k : ℕ} {b : Build}
    (h : EmittedUpTo cfg tree k b.program) {u : SourceUnit}
    (hk : b.order[k]? = some u.id) (hu : b.get? u.id = some u) :
    (emissionPhase.run cfg u b).1 = .ok () ∧
      EmittedUpTo cfg tree (k + 1) (emissionPhase.run cfg u b).2.program ∧
      (b.hasErrors = false →
        (emissionPhase.run cfg u b).2.hasErrors = false) := by
  have hmem : u.id ∈ b.order := List.mem_of_getElem? hk
  obtain ⟨nodes, stop, hasm, hvalid, hbefore⟩ := h.units u.id hmem u hu
  obtain ⟨m, hemit, hwords, hrel⟩ := emitNodes_eq cfg.switches hasm.placed.spans
    hasm.placed.within (hasm.emittable hvalid)
  obtain ⟨hok, -, hprogram⟩ := emitUnit_ok hsink hemit
  rw [emissionPhase_of_tree hasm.placed.tree, hprogram]
  have hg := Program.grows_modifyUnit b.program u.id fun v =>
    v.grows_withEmission m (u.memoryCode m)
  have hget : ∀ i w, (b.program.modifyUnit u.id
      (·.withEmission m (u.memoryCode m))).get? i = some w →
      (i = u.id ∧ w = u.withEmission m (u.memoryCode m)) ∨
        (i ≠ u.id ∧ b.get? i = some w) := by
    intro i w hw
    rcases Program.get?_modifyUnit_cases hw with ⟨hi, v, hv, heq⟩ | hother
    · rw [hu] at hv
      cases hv
      exact .inl ⟨hi, heq⟩
    · exact .inr hother
  refine ⟨hok, ⟨hg.wellFormed h.wellFormed, ?_, fun i hi w hw => ?_, fun i hi w hw => ?_⟩,
    fun he => ?_⟩
  · exact h.markers.modifyUnit _ fun v _ hv => hv
  · rcases hget i w hw with ⟨rfl, -⟩ | ⟨-, hw'⟩
    · exact absurd hmem hi
    · exact h.idle i hi w hw'
  · rcases hget i w hw with ⟨rfl, rfl⟩ | ⟨hne, hw'⟩
    · refine ⟨nodes, stop, ?_, ?_, .inl ?_⟩
      · obtain ⟨htree, hends, hwithin, hspans, hmeasured⟩ := hasm.placed
        exact ⟨⟨htree, hends, hwithin, hspans, hmeasured⟩, hasm.means⟩
      · exact ⟨hvalid.valued, hvalid.relocatable⟩
      · exact emitted_withEmission hwords hrel (hbefore.imp_right And.right)
    · obtain ⟨nodes', stop', hasm', hvalid', hbefore'⟩ := h.units i hi w hw'
      exact ⟨nodes', stop', hasm', hvalid', hbefore'.imp_right (And.imp_left fun hnot htake =>
        hnot (mem_take_of_mem_take_succ hk htake hne))⟩
  · rw [Program.noErrors_iff] at he ⊢
    exact he.modifyUnit _ fun v _ hv => hv

/-- What a compilation leaves of a unit. -/
structure Product (cfg : Settings) (tree : FileTree) (t : Table) (u : SourceUnit)
    (nodes : SyntaxTree) (stop : ℕ) : Prop where
  assembled : Assembled cfg.switches tree t u nodes stop
  valid : Valid cfg.switches t u nodes
  emitted : Emitted cfg.switches t u nodes

theorem EmittedUpTo.product {n : ℕ} (h : EmittedUpTo cfg tree n p)
    (hn : p.order.length ≤ n) :
    ∀ u ∈ p.ordered, ∃ nodes stop, Product cfg tree p.symbols u nodes stop := by
  intro u hu
  obtain ⟨id, hid, hget⟩ := Units.mem_ordered_iff.mp hu
  obtain ⟨nodes, stop, hasm, hvalid, hem | ⟨hnot, -⟩⟩ := h.units id hid u hget
  · exact ⟨nodes, stop, hasm, hvalid, hem⟩
  · rw [List.take_of_length_le hn] at hnot
    exact absurd hid hnot

theorem emitted_of_compile (hsink : cfg.sink = .memory) (hw : p.WellFormed)
    (h : (compile cfg p tree).1 = true)
    (hshort : (compile cfg p tree).2.ShortLists cfg.switches tree) :
    ∃ n, (compile cfg p tree).2.units.order.length ≤ n ∧
      EmittedUpTo cfg tree n (compile cfg p tree).2.program := by
  obtain ⟨valid, hprepares, hemission⟩ := passes_of_compile hsink hw h
  have hq := emissionPhase_quiet hsink
  have hvalid := prepared_of_prepares hprepares (blank_reset hw)
    (hshort.of_grows (hemission.grows hq.toSteady))
  refine hemission.induct hq.toSteady hvalid.emittedUpTo fun k p id u c hk hu _ hrun _ _ _ hI => ?_
  obtain rfl : u.id = id := hI.wellFormed.numbered id u hu
  have hvisit := (hI.visit hsink (b := { program := p, tree }) hk hu).2.1
  rw [hrun] at hvisit
  exact hvisit

/-- **The product of a compilation that succeeds.** -/
theorem product_of_compile (hsink : cfg.sink = .memory) (hw : p.WellFormed)
    (h : (compile cfg p tree).1 = true)
    (hshort : (compile cfg p tree).2.ShortLists cfg.switches tree) :
    (compile cfg p tree).2.units.WellFormed ∧
      ∀ u ∈ (compile cfg p tree).2.units.ordered, ∃ nodes stop,
        Product cfg tree (compile cfg p tree).2.symbols u nodes
          stop := by
  obtain ⟨n, hn, hend⟩ := emitted_of_compile hsink hw h hshort
  exact ⟨hend.wellFormed, hend.product hn⟩

end Pass

/-! ### A small program -/

/-- Settings that ask for relocation tables and know one library. -/
def librarySettings : Settings where
  switches := ⟨[.relocationInformation]⟩
  resolver := .memory [("lib", "f: ret\n.word f\n")]

def libraryCall : Program :=
  .ofResources [.text "main" ".include \"lib\"\ncall f\n.word $, 7\n"]

end WordAsm
