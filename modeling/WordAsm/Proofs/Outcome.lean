/-
# All or nothing

No phase of a compilation breaks down on any unit. If the compilation succeeds,
every queued unit has object code; if it fails, no unit has.

The phases ahead of the emission break down only on a unit without a tree, and
every queued unit without errors has one (`Program.Ready`). The emission is
reached only by programs without errors, which are prepared, so that it cannot
fail (`emission_of_prepared`). Object code is therefore made for all units or
not at all.
-/
import WordAsm.Proofs.Product
import WordAsm.Proofs.Record

namespace WordAsm

open List

section Phases

variable {cfg : Settings} {tree : FileTree} {b : Build}

/-! ### The parse -/

/-- The program of a parse that has come to position `k`, whatever the errors. -/
structure ReadUpTo (cfg : Settings) (tree : FileTree) (bound k : ℕ) (p : Program)
    (files : FileTree) : Prop where
  files : files = tree
  wellFormed : p.WellFormed
  unbuilt : p.Each SourceUnit.Unbuilt
  owned : p.Owned
  load : p.load (cfg.resolver.targets tree) ≤ bound
  trees : ∀ i ∈ p.order.take k, ∀ u, p.get? i = some u → u.hasErrors = false →
    u.tree.isSome

theorem owned_parseUnit {u : SourceUnit} (hu : b.get? u.id = some u)
    (h : b.Owned) : (parseUnit cfg u b).2.Owned := by
  have hg := (parsePhase_quiet cfg).grows u b
  refine parseUnit_symbols_keep (I := Table.All _) (fun _ _ _ _ _ hd hsym ht => ht.define ?_)
    fun s hs x hx => hg.known (h s hs x hx)
  rw [(Declaring.symbolOf_spec hsym).1, hd]
  exact hg.known (hu ▸ rfl)

/-- A unit that has been parsed has a tree or an error, and a unit that is not at
hand is as it was. -/
theorem trees_parseUnit (cfg : Settings) {u : SourceUnit}
    (hu : b.get? u.id = some u) :
    (∀ w, (parseUnit cfg u b).2.units.get? u.id = some w → w.hasErrors = false →
      w.tree.isSome) ∧
    ∀ i w, i ≠ u.id → b.get? i = some w →
      (parseUnit cfg u b).2.units.get? i = some w := by
  obtain ⟨-, -, ⟨e, -, heq⟩ | ⟨text, nodes, d, -, hd, heq⟩⟩ := parseUnit_cases cfg u b
  · rw [heq]
    refine ⟨fun w hw he => ?_, fun i w hi hw => ?_⟩
    · rw [Program.get?_mark hu, Option.some.injEq] at hw
      rw [← hw, SourceUnit.hasErrors_markAll] at he
      simp [Marker.error, Marker.isError] at he
    · exact (Units.get?_modify_of_ne _ _ (Ne.symm hi)).trans hw
  · have hext := (Program.extends_mark b.program u.id fun m hm =>
      (parseSource_markers cfg.switches text m hm).1).trans hd.extends
    obtain ⟨⟨v, hv, htree, -⟩, hothers⟩ := get?_parsed hu hext nodes
    rw [heq]
    refine ⟨fun w hw _ => ?_, hothers⟩
    rw [hv, Option.some.injEq] at hw
    rw [← hw, htree]
    rfl

theorem parsePhase_carries (bound : ℕ) :
    parsePhase.Carries cfg (ReadUpTo cfg tree bound) where
  wellFormed _ _ _ h := h.wellFormed
  skipped k b u hk hu hacc h := by
    refine ⟨h.files, h.wellFormed, h.unbuilt, h.owned, h.load, fun i hi w hw he => ?_⟩
    have htake := (take_succ_of_grown (prefix_refl b.order) hk).2
    rcases mem_append.mp (htake ▸ hi) with hi | hi
    · exact h.trees i hi w hw he
    · rw [mem_singleton.mp hi, hu] at hw
      cases hw
      have herr : u.hasErrors = true := by simpa [parsePhase] using hacc
      exact absurd (he.symm.trans herr) (by simp)
  run k b u hk hu _ h := by
    have hg := (parsePhase_quiet cfg).grows u b
    obtain ⟨hself, hothers⟩ := trees_parseUnit cfg hu
    refine ⟨(parseUnit_cases cfg u b).1, (parseUnit_cases cfg u b).2.1.trans h.files,
      hg.wellFormed h.wellFormed, ?_, owned_parseUnit hu h.owned, ?_, fun i hi w hw he => ?_⟩
    · obtain ⟨p, hext, heq | ⟨nodes, heq⟩⟩ := parseUnit_extends cfg u b
      · exact heq ▸ unbuilt_extends h.unbuilt hu hext
      · exact heq ▸ (unbuilt_extends h.unbuilt hu hext).modifyUnit _
          fun v _ hv => ⟨hv.code, hv.relocation, hv.markers⟩
    · have hload : (parseUnit cfg u b).2.units.load _ ≤ _ :=
        load_parseUnit h.wellFormed
      rw [h.files] at hload
      exact Nat.le_trans hload h.load
    · by_cases hid : i = u.id
      · subst hid
        exact hself w hw he
      · have hi' : i ∈ b.order.take k := mem_take_of_grown hg.order hk hi hid
        obtain ⟨v, hv, -⟩ := h.wellFormed.exists_get? (mem_of_mem_take hi')
        have hw' : some v = some w := (hothers i v hid hv).symm.trans hw
        cases hw'
        exact h.trees i hi' _ hv he

/-- **After the parse** every queued unit without errors has a tree. -/
theorem ready_of_parse (cfg : Settings) (h : b.Blank) :
    (∀ call ∈ (recordPhase cfg { phase := parsePhase } b).1, call.outcome = .ok ()) ∧
      (runPhase cfg { phase := parsePhase } b).2.Ready := by
  have hnone : ∀ s, s ∉ b.symbols.stores := fun s hs => by rw [h.symbols] at hs; cases hs
  have hstart : ReadUpTo cfg b.tree (queueBound cfg b) 0 b.program b.tree :=
    ⟨rfl, h.wellFormed, h.unbuilt, fun s hs => absurd hs (hnone s), load_le_queueBound cfg b,
      by simp⟩
  obtain ⟨hcalls, n, hn, hend⟩ := (parsePhase_carries (queueBound cfg b)).runPhase
    { phase := parsePhase } hstart
  refine ⟨hcalls, hn.wellFormed, hn.unbuilt, hn.owned, fun i hi => hn.trees i ?_⟩
  rcases hend with hlen | hbound | ⟨-, habort⟩
  · rwa [take_of_length_le hlen]
  · have hlen := Units.order_le_load
      (runPhase cfg { phase := parsePhase } b).2.units
        (cfg.resolver.targets b.tree)
    rwa [take_of_length_le (Nat.le_trans hlen (hbound ▸ hn.load))]
  · cases habort

/-! ### The phases between parse and emission -/

theorem referencePhase_carries : referencePhase.Carries cfg fun _ p _ => p.Ready where
  wellFormed _ _ _ h := h.wellFormed
  skipped _ _ _ _ _ _ h := h
  run k b u hk hu hacc h := by
    have he : u.hasErrors = false := by simpa [referencePhase] using hacc
    exact ⟨referencePhase_ok h.owned (h.trees u.id (mem_of_getElem? hk) u hu he), h.reference⟩

theorem Phase.Treewise.carries {phase : Phase}
    {change : SourceUnit → SyntaxTree → Program → Program} (htw : phase.Treewise cfg change)
    (hready : ∀ u nodes p, Program.Ready p → (change u nodes p).Ready) :
    phase.Carries cfg fun _ p _ => p.Ready where
  wellFormed _ _ _ h := h.wellFormed
  skipped _ _ _ _ _ _ h := h
  run k b u hk hu hacc h := by
    have he : u.hasErrors = false := by
      rw [htw.accepts] at hacc
      simpa using hacc
    obtain ⟨nodes, htree⟩ := Option.isSome_iff_exists.mp
      (h.trees u.id (mem_of_getElem? hk) u hu he)
    refine ⟨htw.outcome u b nodes htree, ?_⟩
    rw [htw.program u b nodes htree]
    exact hready u nodes b.program h

theorem carries_of_mem (cfg : Settings) : ∀ slot ∈ preparation.tail,
    slot.phase.Carries cfg (fun _ p _ => p.Ready) ∧ slot.stopAfter = false := by
  simp only [preparation, Pipeline.standard, take_succ_cons, take_zero, tail_cons,
    mem_cons, not_mem_nil, or_false]
  rintro slot (rfl | rfl | rfl | rfl)
  · exact ⟨referencePhase_carries, rfl⟩
  · exact ⟨(layoutPhase_treewise cfg).carries fun _ nodes _ h => h.laid cfg nodes, rfl⟩
  · exact ⟨(foldingPhase_treewise cfg).carries fun _ nodes _ h => h.folded nodes, rfl⟩
  · exact ⟨(validationPhase_treewise cfg).carries
      fun _ nodes _ h => h.validated cfg nodes, rfl⟩

/-- **Phases that carry readiness** make only runs that succeed. They are cut
short by errors, or hand the program over to the rest of the pipeline. -/
theorem pipeline_of_ready {slots : Pipeline} (rest : Pipeline)
    (hs : ∀ slot ∈ slots, slot.phase.Carries cfg (fun _ p _ => p.Ready) ∧
      slot.stopAfter = false) (h : b.Ready) :
    ∃ calls, (∀ call ∈ calls, call.outcome = .ok ()) ∧
      ((∃ c : Build, recordPipeline cfg (slots ++ rest) b = (calls, true, c) ∧
          c.Ready) ∨
        ((slots.foldl (fun b slot => (runPhase cfg slot b).2) b).Ready ∧
          recordPipeline cfg (slots ++ rest) b =
            (calls ++ (recordPipeline cfg rest
                (slots.foldl (fun b slot => (runPhase cfg slot b).2) b)).1,
              (recordPipeline cfg rest
                (slots.foldl (fun b slot => (runPhase cfg slot b).2) b)).2))) := by
  induction slots generalizing b with
  | nil => exact ⟨[], by simp, .inr ⟨h, rfl⟩⟩
  | cons slot slots ih =>
    obtain ⟨hc, hstop⟩ := hs slot mem_cons_self
    obtain ⟨hcalls, n, hready, -⟩ := hc.runPhase slot h
    obtain ⟨more, hmore, hrest⟩ := ih (fun s hm => hs s (mem_cons_of_mem _ hm)) hready
    rw [cons_append, recordPipeline]
    split
    · exact ⟨[], by simp, .inl ⟨_, rfl, h⟩⟩
    · rw [← recordPhase_eq] at hready hrest
      rcases hrec : recordPhase cfg slot b with ⟨calls, failed, c⟩
      rw [hrec] at hcalls hready hrest
      simp only [foldl_cons, ← recordPhase_eq, hrec, hstop] at hrest ⊢
      split
      · exact ⟨calls, hcalls, .inl ⟨c, rfl, hready⟩⟩
      · refine ⟨calls ++ more, fun call hcall => ?_, ?_⟩
        · rcases mem_append.mp hcall with hcall | hcall
          · exact hcalls call hcall
          · exact hmore call hcall
        · rcases hrest with ⟨c', hc', hready'⟩ | ⟨hready', hc'⟩
          · exact .inl ⟨c', by simp [hc'], hready'⟩
          · exact .inr ⟨hready', by simp [hc']⟩

/-! ### The emission -/

abbrev emissionSlot : Slot := { phase := emissionPhase, abortOnError := true }

/-- **The emission of a prepared program** makes only runs that succeed, and
leaves no errors. -/
theorem emission_of_prepared (hsink : cfg.sink = .memory)
    (h : b.Prepared cfg tree) (he : b.hasErrors = false) :
    (∀ call ∈ (recordPhase cfg emissionSlot b).1, call.outcome = .ok ()) ∧
      (runPhase cfg emissionSlot b).1 = false ∧
      (runPhase cfg emissionSlot b).2.hasErrors = false ∧
      ∃ n, EmittedUpTo cfg tree n (runPhase cfg emissionSlot b).2.program := by
  have hc : emissionPhase.Carries cfg fun k p _ =>
      EmittedUpTo cfg tree k p ∧ p.hasErrors = false :=
    { wellFormed := fun _ _ _ h => h.1.wellFormed
      skipped := fun k b u hk hu hacc h => by
        have herr : u.hasErrors = true := by simpa [emissionPhase] using hacc
        rw [Program.noErrors_get? h.2 hu] at herr
        cases herr
      run := fun k b u hk hu _ h => by
        obtain ⟨hok, hup, hclean⟩ := h.1.visit hsink hk hu
        exact ⟨hok, hup, hclean h.2⟩ }
  have hstart := And.intro h.emittedUpTo he
  obtain ⟨hcalls, n, ⟨hn, hclean⟩, -⟩ := hc.runPhase emissionSlot hstart
  exact ⟨hcalls, Phase.Carries.not_failed hc (fun _ _ _ h => h.2) _ 0 false _ hstart, hclean, n, hn⟩

/-! ### The last phase -/

/-- What a pipeline may leave: nothing built if it was cut short, and no errors or
reports of a breakdown otherwise. -/
def Program.UnbuiltOrClean (aborted : Bool) (p : Program) : Prop :=
  (aborted = true ∧ p.Each SourceUnit.Unbuilt) ∨
    (aborted = false ∧ p.hasErrors = false ∧
      p.Each fun u => ∀ m ∈ u.markers, m.kind ≠ .genericError)

theorem record_emission (hsink : cfg.sink = .memory) (h : b.Ready)
    (hp : b.hasErrors = false → b.Prepared cfg tree) :
    (∀ call ∈ (recordPipeline cfg [emissionSlot] b).1, call.outcome = .ok ()) ∧
      (recordPipeline cfg [emissionSlot] b).2.2.UnbuiltOrClean
        (recordPipeline cfg [emissionSlot] b).2.1 := by
  cases he : b.hasErrors with
  | true =>
    rw [recordPipeline, if_pos (by simp [he])]
    exact ⟨by simp, .inl ⟨rfl, h.unbuilt⟩⟩
  | false =>
    obtain ⟨hcalls, hgo, hclean, n, hup⟩ := emission_of_prepared hsink (hp he) he
    rw [← recordPhase_eq] at hgo hclean hup
    rw [recordPipeline, if_neg (by simp [he])]
    simp only [hgo, Bool.false_and, Bool.false_eq_true, if_false, recordPipeline, append_nil]
    exact ⟨hcalls, .inr ⟨rfl, hclean, hup.markers⟩⟩

/-! ### The compilation -/

/-- **How a compilation goes:** all its runs succeed, and it is cut short ahead of
the emission or emits a program without errors. -/
theorem pipeline_outcome (hsink : cfg.sink = .memory) (h : b.Blank)
    (hshort : (recordPipeline cfg .standard b).2.2.ShortLists cfg.switches
      b.tree) :
    (∀ call ∈ (recordPipeline cfg .standard b).1, call.outcome = .ok ()) ∧
      (recordPipeline cfg .standard b).2.2.UnbuiltOrClean
        (recordPipeline cfg .standard b).2.1 := by
  obtain ⟨hparse, hready⟩ := ready_of_parse cfg h
  obtain ⟨calls, hcalls, hend⟩ := pipeline_of_ready [emissionSlot] (carries_of_mem cfg) hready
  have hsplit : recordPipeline cfg .standard b = _ :=
    recordPipeline_cons { phase := parsePhase } (preparation.tail ++ [emissionSlot]) rfl rfl b
  rw [hsplit] at hshort ⊢
  rcases hend with ⟨c, hc, hready'⟩ | ⟨hready', hc⟩
  · simp only [hc]
    refine ⟨fun call hcall => ?_, .inl ⟨rfl, hready'.unbuilt⟩⟩
    exact (mem_append.mp hcall).elim (hparse call) (hcalls call)
  · simp only [hc, recordPipeline_eq] at hshort ⊢
    have hsteady : ∀ slot ∈ [emissionSlot], slot.phase.Steady cfg := by
      simpa using (emissionPhase_quiet hsink).toSteady
    have hp : (prepared cfg b).hasErrors = false →
        (prepared cfg b).Prepared cfg b.tree := fun he =>
      prepared_of_prepares (prepares_of_noErrors h.wellFormed he) h
        (hshort.of_grows (runPipeline_keeps (I := Program.Grows _)
          (fun s hs _ u c _ _ hc => hc.trans ((hsteady s hs).grows_runUnit u c)) (.refl _)))
    obtain ⟨hemit, hout⟩ := record_emission hsink hready' hp
    rw [recordPipeline_eq] at hout
    refine ⟨fun call hcall => ?_, hout⟩
    rcases mem_append.mp hcall with hcall | hcall
    · exact hparse call hcall
    · exact (mem_append.mp hcall).elim (hcalls call) (hemit call)

end Phases

/-- **Compilation is all or nothing.** Every run of a phase on a unit succeeds, so
that no unit has a marker for a breakdown. If the compilation succeeds, every
queued unit has object code; if it fails, no unit has. -/
theorem compile_all_or_nothing {cfg : Settings} {p : Program} {tree : FileTree}
    (hsink : cfg.sink = .memory) (hw : p.WellFormed)
    (hshort : (compile cfg p tree).2.ShortLists cfg.switches tree) :
    (recordCompile cfg p tree).2 = compile cfg p tree ∧
      (∀ call ∈ (recordCompile cfg p tree).1, call.outcome = .ok ()) ∧
      (∀ u ∈ (compile cfg p tree).2.units.all, ∀ m ∈ u.markers,
        m.kind ≠ .genericError) ∧
      ((compile cfg p tree).1 = true →
        ∀ id ∈ (compile cfg p tree).2.units.order, ∃ u,
          (compile cfg p tree).2.units.get? id = some u ∧ u.code.isSome) ∧
      ((compile cfg p tree).1 = false →
        ∀ u ∈ (compile cfg p tree).2.units.all, u.code = none) := by
  set b := opening p tree
  have hprogram : (compile cfg p tree).2.program =
      (recordPipeline cfg .standard b).2.2.program := by
    rw [recordPipeline_eq]
    rfl
  have hsuccess : (compile cfg p tree).1 =
      (!(recordPipeline cfg .standard b).2.1 &&
        !(recordPipeline cfg .standard b).2.2.hasErrors) := by
    rw [recordPipeline_eq]
    rfl
  obtain ⟨hcalls, hend⟩ := pipeline_outcome hsink (b := b) (blank_reset hw) (hprogram ▸ hshort)
  rw [← hprogram] at hend
  refine ⟨recordCompile_eq cfg .standard p tree, hcalls, fun u hu => ?_, fun h id hid => ?_,
    fun h u hu => ?_⟩
  · obtain ⟨i, hi⟩ := Units.mem_all_iff.mp hu
    rcases hend with ⟨-, hunbuilt⟩ | ⟨-, -, hmarkers⟩
    · exact (hunbuilt i u hi).markers
    · exact hmarkers i u hi
  · obtain ⟨hw', hproduct⟩ := product_of_compile hsink hw h hshort
    obtain ⟨u, hu, -⟩ := hw'.exists_get? hid
    obtain ⟨nodes, stop, hprod⟩ := hproduct u (Units.mem_ordered_iff.mpr ⟨id, hid, hu⟩)
    obtain ⟨code, hcode, -⟩ := hprod.emitted.words
    exact ⟨u, hu, Option.isSome_iff_exists.mpr ⟨code, hcode⟩⟩
  · obtain ⟨i, hi⟩ := Units.mem_all_iff.mp hu
    rcases hend with ⟨-, hunbuilt⟩ | ⟨hgo, hclean, -⟩
    · exact (hunbuilt i u hi).code
    · rw [hsuccess, ← hprogram, hgo, hclean] at h
      cases h

/-- A program that calls its library gets object code for both units, and a program
that calls something else gets none. -/
theorem compile_all_or_nothing_library :
    (∀ id ∈ (compile librarySettings libraryCall {}).2.units.order, ∃ u,
      (compile librarySettings libraryCall {}).2.units.get? id = some u ∧
        u.code.isSome) ∧
    ∀ u ∈ (compile librarySettings (.ofResources [.text "main" ".include \"lib\"\ncall g\n"]) {}).2.units.all,
      u.code = none :=
  ⟨(compile_all_or_nothing rfl (Program.wellFormed_ofResources _) (by decide +kernel)).2.2.2.1
      (by decide +kernel),
    (compile_all_or_nothing rfl (Program.wellFormed_ofResources _) (by decide +kernel)).2.2.2.2
      (by decide +kernel)⟩

end WordAsm
