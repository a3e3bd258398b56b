/-
# Compilations that succeed

A compilation that succeeds has left no errors, so every phase has passed over
the program from the first unit to the last: the check of references without
changing it, the other five as `Passes` says (`passes_of_compile`).
-/
import WordAsm.Proofs.Phases

namespace WordAsm

open List

variable {b : Build} {slots : Pipeline} {cfg : Settings}

theorem behind_parse_cases {phase : Phase} (h : phase ∈ Pipeline.standard.tail.map Slot.phase) :
    phase = referencePhase ∨ phase = layoutPhase ∨ phase = foldingPhase ∨
      phase = validationPhase ∨ phase = emissionPhase := by
  simpa [Pipeline.standard] using h

section Phases

variable {cfg : Settings} {slot : Slot}

theorem grows_runPhase (slot : Slot) (hs : slot.phase.Steady cfg)
    (hw : b.WellFormed) : b.program.Grows (runPhase cfg slot b).2.program ∧
      (runPhase cfg slot b).2.units.WellFormed ∧
      (runPhase cfg slot b).2.tree = b.tree := by
  obtain ⟨hg, ht⟩ := grows_runUnits slot hs (queueBound cfg b) 0 false
    (b.tell (.phaseStart slot.name))
  exact ⟨hg, hg.wellFormed hw, ht⟩

theorem load_le_queueBound (cfg : Settings) (b : Build) :
    b.load (cfg.resolver.targets b.tree) ≤ queueBound cfg b := by
  have h := b.units.load_le (cfg.resolver.targets b.tree)
  rw [Resolver.length_targets] at h
  exact h

theorem passes_of_runPhase (hq : slot.phase.Quiet cfg) (hw : b.WellFormed)
    (hbound : ∀ (u : SourceUnit) (p : Program), p.WellFormed → p.get? u.id = some u →
      (slot.phase.run cfg u { program := p, tree := b.tree }).2.units.load
        (cfg.resolver.targets b.tree) ≤ p.load (cfg.resolver.targets b.tree))
    (he : (runPhase cfg slot b).2.hasErrors = false) :
    Passes cfg b.tree slot.phase 0 b.program (runPhase cfg slot b).2.program := by
  refine passes_of_runUnits hq (fun p => p.units.order_le_load (cfg.resolver.targets b.tree))
    hbound _ 0 false (b.tell (.phaseStart slot.name)) rfl hw ?_ he
  rw [Nat.zero_add]
  exact load_le_queueBound cfg b

/-- **A check of references that leaves no errors leaves the program as it was.** -/
theorem runPhase_reference_clean {abortOnError stopAfter : Bool} (hw : b.WellFormed)
    (he : Program.hasErrors
      (runPhase cfg ⟨referencePhase, abortOnError, stopAfter⟩ b).2.program = false) :
    (runPhase cfg ⟨referencePhase, abortOnError, stopAfter⟩ b).2.program = b.program := by
  have hs := referencePhase_steady cfg
  let I : Program → Prop := fun p => p.WellFormed ∧ (p.hasErrors = false → p = b.program)
  have hall : I (runPhase cfg ⟨referencePhase, abortOnError, stopAfter⟩ b).2.program := by
    refine runUnits_keeps (fun id u c _ hu ⟨hw, hsame⟩ => ?_) (queueBound cfg b) 0 false
      (b := b.tell (.phaseStart referencePhase.name)) ⟨hw, fun _ => rfl⟩
    have hg := hs.grows_runUnit u c
    refine ⟨hg.wellFormed hw, fun hc => ?_⟩
    have hok := ok_of_grows (hs.grows u c) hw hu hc
    obtain rfl : u.id = id := hw.numbered id u hu
    rw [(referencePhase_silent hu hok hc).1]
    exact hsame (hg.noErrors hc)
  exact hall.2 he

theorem Phase.Treewise.passes {change : SourceUnit → SyntaxTree → Program → Program}
    (h : slot.phase.Treewise cfg change)
    (hload : ∀ u nodes p targets, (change u nodes p).load targets = p.load targets)
    (hw : b.WellFormed)
    (he : (runPhase cfg slot b).2.hasErrors = false) :
    Passes cfg b.tree slot.phase 0 b.program (runPhase cfg slot b).2.program := by
  refine passes_of_runPhase h.quiet hw (fun u p _ _ => Nat.le_of_eq ?_) he
  exact h.keeps (I := fun q => q.load _ = p.load _) rfl fun nodes _ => hload ..

theorem load_laid (cfg : Settings) (u : SourceUnit) (nodes : SyntaxTree) (p : Program)
    (targets : List (Resource → Bool)) :
    (p.laid cfg u nodes).load targets = p.load targets :=
  Units.load_modify _ _ _ fun v => (v.grows_withLayout _).resource

theorem load_folded (u : SourceUnit) (nodes : SyntaxTree) (p : Program)
    (targets : List (Resource → Bool)) :
    (p.folded u nodes).load targets = p.load targets :=
  Units.load_modify _ _ _ fun _ => rfl

theorem load_emission (hsink : cfg.sink = .memory) (u : SourceUnit) (b : Build)
    (targets : List (Resource → Bool)) :
    (emissionPhase.run cfg u b).2.units.load targets =
      b.load targets := by
  rcases emissionPhase_cases hsink u b.program with ⟨e, he⟩ | ⟨m, code, hrun⟩
  · rw [he b rfl]
  · rw [(hrun b rfl).2.2]
    exact Units.load_modify _ _ _ fun v => (v.grows_withEmission m code).resource

end Phases

/-! ### The pipeline -/

theorem runPipeline_cons {slot : Slot} (hstop : slot.stopAfter = false)
    (h : (runPipeline cfg (slot :: slots) b).1 = false) :
    runPipeline cfg (slot :: slots) b =
      runPipeline cfg slots (runPhase cfg slot b).2 := by
  rw [runPipeline] at h ⊢
  split
  · rename_i hskip
    rw [if_pos hskip] at h
    cases h
  · rename_i hskip
    rw [if_neg hskip] at h
    rcases hrun : runPhase cfg slot b with ⟨failed, c⟩
    simp only [hrun] at h ⊢
    split
    · rename_i hfail
      rw [if_pos hfail] at h
      cases h
    · rw [hstop]
      rfl

theorem runPipeline_eq_foldl (hstop : ∀ slot ∈ slots, slot.stopAfter = false)
    (h : (runPipeline cfg slots b).1 = false) :
    (runPipeline cfg slots b).2 =
      slots.foldl (fun b slot => (runPhase cfg slot b).2) b := by
  induction slots generalizing b with
  | nil => rfl
  | cons slot slots ih =>
    have hcons := runPipeline_cons (hstop slot mem_cons_self) h
    rw [hcons] at h ⊢
    exact ih (fun s hs => hstop s (mem_cons_of_mem _ hs)) h

theorem reset_wellFormed {p : Program} (h : p.WellFormed) : p.reset.WellFormed := by
  have hget : ∀ i, p.reset.get? i = (p.get? i).map SourceUnit.reset := by
    intro i
    exact getElem?_map
  refine ⟨fun i u hu => ?_, fun i hi => ?_⟩
  · rw [hget] at hu
    obtain ⟨v, hv, rfl⟩ := Option.map_eq_some_iff.mp hu
    exact h.numbered i v hv
  · rw [hget, Option.isSome_map]
    exact h.queued i hi

/-- The passes that turn the program `p` into `q`, which is ready to be emitted. -/
inductive Prepares (cfg : Settings) (tree : FileTree) (p q : Program) : Prop
  | intro {parsed laid folded : Program}
    (parse : Passes cfg tree parsePhase 0 p parsed)
    (layout : Passes cfg tree layoutPhase 0 parsed laid)
    (folding : Passes cfg tree foldingPhase 0 laid folded)
    (validation : Passes cfg tree validationPhase 0 folded q)

/-- The phases ahead of the emission. -/
def preparation : Pipeline := Pipeline.standard.take 5

/-- The build that the phases ahead of the emission leave if nothing stops them. -/
def prepared (cfg : Settings) (b : Build) : Build :=
  preparation.foldl (fun b slot => (runPhase cfg slot b).2) b

theorem preparation_steady (cfg : Settings) :
    ∀ slot ∈ preparation, slot.phase.Steady cfg := by
  simp only [preparation, Pipeline.standard, take_succ_cons, take_zero, mem_cons,
    not_mem_nil, or_false]
  rintro slot (rfl | rfl | rfl | rfl | rfl)
  · exact (parsePhase_quiet cfg).toSteady
  · exact referencePhase_steady cfg
  · exact (layoutPhase_treewise cfg).quiet.toSteady
  · exact (foldingPhase_treewise cfg).quiet.toSteady
  · exact (validationPhase_treewise cfg).quiet.toSteady

theorem grows_foldl_runPhase (hs : ∀ slot ∈ slots, slot.phase.Steady cfg)
    (hw : b.WellFormed) :
    b.program.Grows (slots.foldl (fun b slot => (runPhase cfg slot b).2) b).program ∧
      (slots.foldl (fun b slot => (runPhase cfg slot b).2) b).WellFormed ∧
      (slots.foldl (fun b slot => (runPhase cfg slot b).2) b).tree = b.tree := by
  induction slots generalizing b with
  | nil => exact ⟨Program.Grows.refl _, hw, rfl⟩
  | cons slot slots ih =>
    obtain ⟨hg, hw', ht⟩ := grows_runPhase slot (hs slot mem_cons_self) hw
    obtain ⟨hg', hw'', ht'⟩ := ih (fun s h => hs s (mem_cons_of_mem _ h)) hw'
    exact ⟨hg.trans hg', hw'', ht'.trans ht⟩

/-- **A preparation that leaves no errors** has passed through its stages. -/
theorem prepares_of_noErrors (hw : b.WellFormed)
    (he : (prepared cfg b).hasErrors = false) :
    Prepares cfg b.tree b.program (prepared cfg b).program := by
  -- the builds after each phase; what has no errors at the end never had any
  obtain ⟨hg₁, hw₁, ht₁⟩ := grows_runPhase { phase := parsePhase }
    (parsePhase_quiet cfg).toSteady hw
  set b₁ := (runPhase cfg { phase := parsePhase } b).2 with hb₁
  obtain ⟨hg₂, hw₂, ht₂⟩ := grows_runPhase { phase := referencePhase }
    (referencePhase_steady cfg) hw₁
  set b₂ := (runPhase cfg { phase := referencePhase } b₁).2 with hb₂
  obtain ⟨hg₃, hw₃, ht₃⟩ := grows_runPhase { phase := layoutPhase, abortOnError := true }
    (layoutPhase_treewise cfg).quiet.toSteady hw₂
  set b₃ := (runPhase cfg { phase := layoutPhase, abortOnError := true } b₂).2 with hb₃
  obtain ⟨hg₄, hw₄, ht₄⟩ := grows_runPhase { phase := foldingPhase }
    (foldingPhase_treewise cfg).quiet.toSteady hw₃
  set b₄ := (runPhase cfg { phase := foldingPhase } b₃).2 with hb₄
  obtain ⟨hg₅, -, -⟩ := grows_runPhase { phase := validationPhase }
    (validationPhase_treewise cfg).quiet.toSteady hw₄
  have he₄ := hg₅.noErrors he
  have he₃ := hg₄.noErrors he₄
  have he₂ := hg₃.noErrors he₃
  have hsame : b₂.program = b₁.program := runPhase_reference_clean hw₁ he₂
  have hparse := passes_of_runPhase (parsePhase_quiet cfg) hw
    (fun u q hq _ => load_parseUnit hq) (hg₂.noErrors he₂)
  have hlayout := (layoutPhase_treewise cfg).passes (load_laid cfg) hw₂ he₃
  have hfolding := (foldingPhase_treewise cfg).passes load_folded hw₃ he₄
  have hvalidation := (validationPhase_treewise cfg).passes (fun _ _ _ _ => load_mark ..) hw₄ he
  rw [hsame, ht₂, ht₁] at hlayout
  rw [ht₃, ht₂, ht₁] at hfolding
  rw [ht₄, ht₃, ht₂, ht₁] at hvalidation
  exact .intro hparse hlayout hfolding hvalidation

theorem compile_success {pipeline : Pipeline} {p : Program} {tree : FileTree} :
    (compile cfg p tree pipeline).1 = true ↔
      (runPipeline cfg pipeline (opening p tree)).1 = false ∧
      (runPipeline cfg pipeline (opening p tree)).2.hasErrors = false := by
  unfold compile
  rw [Bool.and_eq_true, Bool.not_eq_true', Bool.not_eq_true']
  exact Iff.rfl

/-- **A compilation that succeeds** has prepared the program and passed over it to
emit it. -/
theorem passes_of_compile {p : Program} {tree : FileTree} (hsink : cfg.sink = .memory)
    (hw : p.WellFormed) (h : (compile cfg p tree).1 = true) :
    ∃ valid, Prepares cfg tree p.reset valid ∧
      Passes cfg tree emissionPhase 0 valid (compile cfg p tree).2.program := by
  set b := opening p tree
  obtain ⟨hgo, he⟩ := compile_success.mp h
  have hstop : ∀ slot ∈ Pipeline.standard, slot.stopAfter = false := by simp [Pipeline.standard]
  have hfold : (runPipeline cfg .standard b).2 =
      (runPhase cfg { phase := emissionPhase, abortOnError := true }
        (prepared cfg b)).2 :=
    runPipeline_eq_foldl hstop hgo
  have hcompile : (compile cfg p tree).2.program =
      (runPipeline cfg .standard b).2.program := rfl
  rw [hfold] at he
  rw [hcompile, hfold]
  obtain ⟨-, hw', ht⟩ := grows_foldl_runPhase (preparation_steady cfg) (b := b)
    (reset_wellFormed hw)
  have hq := emissionPhase_quiet hsink
  have hg := (grows_runPhase { phase := emissionPhase, abortOnError := true } hq.toSteady hw').1
  have hemission := passes_of_runPhase hq hw'
    (fun u q _ _ => Nat.le_of_eq (load_emission hsink u _ _)) he
  rw [ht] at hemission
  exact ⟨_, prepares_of_noErrors (reset_wellFormed hw) (hg.noErrors he), hemission⟩

end WordAsm
