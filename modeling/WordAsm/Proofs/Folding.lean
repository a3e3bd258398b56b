/-
# Folding changes nothing but expressions

A program whose expressions are put in other words of the same meaning compiles to
the same units (`Program.Rephrased`): the checks of the validation raise as many
errors, and the emission writes the same words or breaks down on the same unit, though
the messages may quote other expressions. Such phases are indifferent to the wording
(`Phase.Indifferent`), and so is a pipeline of them.

Folding does nothing but put the expressions in other words, so a compilation without
it comes to the same end (`folding_is_transparent`).
-/
import WordAsm.Proofs.Abreast
import WordAsm.Proofs.Outcome

namespace WordAsm

open List

/-! ### Programs in other words -/

def Node.Rephrased (t : Table) (unit : UnitId) (n n' : Node) : Prop :=
  ∃ f, KeepsMeaning t (n.viewpoint unit) f ∧ n' = { n with statement := n.statement.mapCode f }

/-- The unit `u'` is `u` with expressions of the same meaning. Both have errors or
neither has; the errors may be worded differently. -/
structure SourceUnit.Rephrased (t : Table) (u u' : SourceUnit) : Prop where
  id : u'.id = u.id
  resource : u'.resource = u.resource
  tree : Option.Rel (List.Forall₂ (Node.Rephrased t u.id)) u.tree u'.tree
  errors : u'.hasErrors = u.hasErrors
  start : u'.start = u.start
  stop : u'.stop = u.stop
  relocation : u'.relocation = u.relocation
  dependencies : u'.dependencies = u.dependencies
  code : u'.code = u.code
  lines : u'.lines = u.lines

/-- The program `p'` is `p` with expressions of the same meaning. -/
structure Program.Rephrased (p p' : Program) : Prop where
  symbols : p'.symbols = p.symbols
  order : p'.order = p.order
  units : List.Forall₂ (SourceUnit.Rephrased p.symbols) p.all p'.all

/-- The same for builds, with the same files around the programs. -/
structure Build.Rephrased (b b' : Build) : Prop where
  program : b.program.Rephrased b'.program
  tree : b'.tree = b.tree

section Rephrased

variable {t : Table} {u u' : SourceUnit} {p p' : Program} {b b' : Build}

theorem Node.Rephrased.refl (t : Table) (unit : UnitId) (n : Node) : n.Rephrased t unit n :=
  ⟨_, keepsMeaning_id _ _, by rw [Statement.mapCode_id]⟩

theorem SourceUnit.Rephrased.refl (t : Table) (u : SourceUnit) : u.Rephrased t u where
  id := rfl
  resource := rfl
  tree := rel_refl (fun _ => forall₂_same.mpr fun n _ => Node.Rephrased.refl t u.id n) _
  errors := rfl
  start := rfl
  stop := rfl
  relocation := rfl
  dependencies := rfl
  code := rfl
  lines := rfl

theorem Program.Rephrased.refl (p : Program) : p.Rephrased p :=
  ⟨rfl, rfl, forall₂_same.mpr fun u _ => SourceUnit.Rephrased.refl p.symbols u⟩

theorem Program.Rephrased.get? (h : p.Rephrased p') (i : UnitId) :
    Option.Rel (SourceUnit.Rephrased p.symbols) (p.get? i) (p'.get? i) :=
  forall₂_getElem? h.units i

theorem Program.Rephrased.hasErrors (h : p.Rephrased p') : p'.hasErrors = p.hasErrors :=
  forall₂_any h.units fun _ _ hu => hu.errors.symm

theorem SourceUnit.Rephrased.identifier (h : u.Rephrased t u') : u'.identifier = u.identifier := by
  unfold SourceUnit.identifier
  rw [h.resource]

theorem SourceUnit.Rephrased.markAll (h : u.Rephrased t u') {ms ms' : List Marker}
    (he : ms'.any Marker.isError = ms.any Marker.isError) :
    (u.markAll ms).Rephrased t (u'.markAll ms') := by
  have herrors : (u'.markAll ms').hasErrors = (u.markAll ms).hasErrors := by
    rw [SourceUnit.hasErrors_markAll, SourceUnit.hasErrors_markAll, h.errors, he]
  obtain ⟨added, next, heq, -⟩ := u.markAll_eq ms
  obtain ⟨added', next', heq', -⟩ := u'.markAll_eq ms'
  rw [heq, heq'] at herrors ⊢
  exact ⟨h.id, h.resource, h.tree, herrors, h.start, h.stop, h.relocation, h.dependencies, h.code,
    h.lines⟩

theorem Program.Rephrased.modifyUnit (h : p.Rephrased p') (i : UnitId)
    {f g : SourceUnit → SourceUnit}
    (hfg : ∀ u u' : SourceUnit, u.Rephrased p.symbols u' → (f u).Rephrased p.symbols (g u')) :
    (p.modifyUnit i f).Rephrased (p'.modifyUnit i g) :=
  ⟨h.symbols, h.order, forall₂_modify h.units hfg i⟩

theorem Program.Rephrased.mark (h : p.Rephrased p') (i : UnitId) {ms ms' : List Marker}
    (he : ms'.any Marker.isError = ms.any Marker.isError) :
    (p.mark i ms).Rephrased (p'.mark i ms') :=
  h.modifyUnit i fun _ _ hu => hu.markAll he

theorem Build.Rephrased.queueBound (h : b.Rephrased b') (cfg : Settings) :
    WordAsm.queueBound cfg b' = WordAsm.queueBound cfg b := by
  unfold WordAsm.queueBound
  rw [h.program.order, h.program.units.length_eq, h.tree]

end Rephrased

/-! ### Validation in other words -/

section Validation

variable {t : Table} {v : Viewpoint} {f : Expr → Expr} {switches : Switches}

theorem exprProblems_of_keeps (hf : KeepsMeaning t v f) (inlined : Bool) (e : Expr) :
    (exprProblems switches t v inlined (f e)).any Marker.isError =
      (exprProblems switches t v inlined e).any Marker.isError := by
  unfold exprProblems
  rw [(hf e).1, (hf e).2, any_append, any_append]
  -- each problem is an error or a warning whatever it quotes
  congr 1
  · cases t.eval v e with
    | none => rfl
    | some x =>
      simp only [valueProblem?]
      by_cases hword : fitsWord x = true
      · cases inlined && !fitsInline x <;> simp [hword, Marker.isError, Marker.error]
      · simp [hword]
  · split <;> rfl

theorem validateNode_rephrased {unit : UnitId} {n n' : Node} (h : n.Rephrased t unit n') :
    (validateNode switches t unit n').any Marker.isError =
      (validateNode switches t unit n).any Marker.isError := by
  obtain ⟨f, hf, rfl⟩ := h
  have hplace : ∀ ms : List Marker, (ms.map fun m => (m.located n.location).on n.id).any
      Marker.isError = ms.any Marker.isError := fun ms => by rw [any_map]; rfl
  unfold validateNode
  rw [hplace, hplace, Statement.codeExprs_mapCode, flatMap_map, any_flatMap, any_flatMap]
  exact congrArg (List.any _) (funext fun e => exprProblems_of_keeps hf n.inlined e)

theorem problemsOf_rephrased {u u' : SourceUnit} {nodes nodes' : SyntaxTree} (cfg : Settings)
    (hid : u'.id = u.id) (h : Forall₂ (Node.Rephrased t u.id) nodes nodes') :
    (problemsOf cfg u' nodes' t).any Marker.isError =
      (problemsOf cfg u nodes t).any Marker.isError := by
  unfold problemsOf
  rw [any_flatMap, any_flatMap, hid]
  exact forall₂_any h fun n n' hn => (validateNode_rephrased hn).symm

end Validation

/-! ### Emission in other words -/

theorem toOption_bind {α β : Type} (x : Except Error α) (g : α → Except Error β) :
    (x >>= g).toOption = x.toOption.bind fun a => (g a).toOption := by
  cases x <;> rfl

theorem exists_error_of_toOption {α : Type} {x : Except Error α} (h : x.toOption = none) :
    ∃ e, x = .error e := by
  cases x with
  | error e => exact ⟨e, rfl⟩
  | ok b => cases h

section Emission

variable {unit : UnitId} {t : Table} {v : Viewpoint} {f : Expr → Expr} {switches : Switches}

theorem exprWord_of_keeps (hf : KeepsMeaning t v f) (e : Expr) :
    (exprWord t v (f e)).toOption = (exprWord t v e).toOption := by
  unfold exprWord
  rw [(hf e).1]
  cases t.eval v e <;> rfl

theorem mapM_exprWord_of_keeps (hf : KeepsMeaning t v f) (es : List Expr) :
    ((es.map f).mapM (exprWord t v)).toOption = (es.mapM (exprWord t v)).toOption := by
  induction es with
  | nil => rfl
  | cons e es ih =>
    rw [map_cons, mapM_cons, mapM_cons, toOption_bind, toOption_bind, exprWord_of_keeps hf e]
    refine congrArg (Option.bind _) (funext fun w => ?_)
    rw [toOption_bind, toOption_bind, ih]

/-- The words of a statement, if it has any, and which of them move, do not depend on
how its expressions are put. -/
theorem statementWords_mapCode (hf : KeepsMeaning t v f) (inlined : Bool) (s : Statement) :
    (statementWords t v inlined (s.mapCode f)).toOption =
      (statementWords t v inlined s).toOption := by
  cases s with
  | words es =>
    have hcells : (es.map f).map (exprCell t v) = es.map (exprCell t v) := by
      rw [map_map]
      exact map_congr_left fun e _ => exprCell_of_keeps hf e
    unfold Statement.mapCode statementWords
    rw [toOption_bind, toOption_bind, mapM_exprWord_of_keeps hf es, ← marks_map, ← marks_map,
      hcells]
  | instruction op a b =>
    rcases b with _ | (_ | e)
    · rfl
    · rfl
    · have hmoves : moves t v (f e) = moves t v e := by
        unfold moves
        rw [(hf e).2]
      simp only [Statement.mapCode, statementWords, instructionWords, exprWord, (hf e).1]
      cases t.eval v e with
      | none => rfl
      | some x =>
        simp only [bind, Except.bind, pure, Except.pure]
        cases Instruction.make op a (some (.literal (toWord x) inlined)) with
        | error reason => rfl
        | ok i => cases hoffset : i.immediateOffset <;> simp only [hoffset, hmoves]
  | _ => rfl

theorem emitNode_rephrased {n n' : Node} (h : n.Rephrased t unit n') (m : Emission) :
    (emitNode switches t unit m n').toOption = (emitNode switches t unit m n).toOption := by
  obtain ⟨f, hf, rfl⟩ := h
  unfold Node.viewpoint at hf
  simp only [emitNode, Node.viewpoint]
  cases haddress : n.address with
  | none => rfl
  | some address =>
    rw [haddress] at hf
    simp only [toOption_bind, statementWords_mapCode hf]

/-- **The emission of nodes in other words** writes the same, or fails too. -/
theorem foldlM_emitNode_rephrased {nodes nodes' : SyntaxTree}
    (h : Forall₂ (Node.Rephrased t unit) nodes nodes') (m : Emission) :
    (nodes'.foldlM (emitNode switches t unit) m).toOption =
      (nodes.foldlM (emitNode switches t unit) m).toOption := by
  induction h generalizing m with
  | nil => rfl
  | cons hn _ ih =>
    rw [foldlM_cons, foldlM_cons, toOption_bind, toOption_bind, emitNode_rephrased hn]
    exact congrArg (Option.bind _) (funext ih)

end Emission

/-! ### Phases that do not look at the wording -/

/-- A phase that does the same to programs in other words: its runs succeed and fail
alike, and leave programs that differ in the wording only. -/
structure Phase.Indifferent (phase : Phase) (cfg : Settings) : Prop where
  accepts : ∀ u, phase.accepts u = !u.hasErrors
  grows : ∀ u (b : Build), b.program.Grows (phase.run cfg u b).2.program
  run : ∀ (b b' : Build) (u u' : SourceUnit), b.Rephrased b' → u.Rephrased b.symbols u' →
    (phase.run cfg u' b').1.toOption = (phase.run cfg u b).1.toOption ∧
      (phase.run cfg u b).2.Rephrased (phase.run cfg u' b').2

section Phases

variable {t : Table} {u' u : SourceUnit} {b' b : Build} {nodes : SyntaxTree}
  {slots : Pipeline} {cfg : Settings}

theorem validationPhase_indifferent : validationPhase.Indifferent cfg where
  accepts _ := rfl
  grows := (validationPhase_treewise cfg).quiet.grows
  run b b' u u' hb hu := by
    have htree := hu.tree
    simp only [validationPhase, withTree]
    cases hnodes : u.tree with
    | none =>
      rw [rel_none htree hnodes]
      exact ⟨rfl, hb⟩
    | some nodes =>
      obtain ⟨nodes', hnodes', hsame⟩ := rel_some htree hnodes
      rw [hnodes']
      refine ⟨rfl, ?_, hb.tree⟩
      have hproblems := problemsOf_rephrased cfg hu.id hsame
      unfold problemsOf at hproblems
      simp only [Build.program_mark, hu.id, hb.program.symbols] at hproblems ⊢
      exact hb.program.mark u.id hproblems

theorem SourceUnit.Rephrased.withEmission (h : u.Rephrased t u') (m : Emission) (code : ObjectCode) :
    (u.withEmission m code).Rephrased t (u'.withEmission m code) := by
  refine ⟨h.id, h.resource, h.tree, h.errors, h.start, h.stop, ?_, h.dependencies, rfl, ?_⟩
  · simp only [SourceUnit.withEmission, h.relocation]
  · simp only [SourceUnit.withEmission, h.lines]

theorem emitUnit_rephrased {nodes' : SyntaxTree} (hb : b.Rephrased b')
    (hu : u.Rephrased b.symbols u')
    (hnodes : Forall₂ (Node.Rephrased b.symbols u.id) nodes nodes') :
    (emitUnit cfg u' nodes' b').1.toOption = (emitUnit cfg u nodes b).1.toOption ∧
      (emitUnit cfg u nodes b).2.Rephrased (emitUnit cfg u' nodes' b').2 := by
  have hemit : (emitNodes cfg.switches b'.symbols u' nodes').toOption =
      (emitNodes cfg.switches b.symbols u nodes).toOption := by
    unfold emitNodes
    rw [hb.program.symbols, hu.id, hu.start]
    exact foldlM_emitNode_rephrased hnodes _
  cases hm : emitNodes cfg.switches b.symbols u nodes with
  | error e =>
    rw [hm] at hemit
    obtain ⟨e', hm'⟩ := exists_error_of_toOption hemit
    rw [emitUnit_error hm, emitUnit_error hm']
    exact ⟨rfl, hb⟩
  | ok m =>
    rw [hm] at hemit
    have hm' := eq_ok_of_toOption hemit
    simp only [emitUnit, hm, hm', bind, Except.bind, hb.tree, hu.identifier, hu.id]
    -- what is handed over is the same, so both can be taken or neither
    cases cfg.sink.close b.tree u.identifier u.id m.buffer with
    | error e => exact ⟨rfl, hb⟩
    | ok handed =>
      exact ⟨rfl, hb.program.modifyUnit u.id fun _ _ hv => hv.withEmission m handed.1, rfl⟩

theorem emissionPhase_indifferent : emissionPhase.Indifferent cfg where
  accepts _ := rfl
  grows := emissionPhase_grows cfg
  run b b' u u' hb hu := by
    have htree := hu.tree
    cases hnodes : u.tree with
    | none =>
      simp only [emissionPhase, withTree, hnodes, rel_none htree hnodes]
      exact ⟨trivial, hb⟩
    | some nodes =>
      obtain ⟨nodes', hnodes', hsame⟩ := rel_some htree hnodes
      rw [emissionPhase_of_tree hnodes, emissionPhase_of_tree hnodes']
      exact emitUnit_rephrased hb hu hsame

theorem runUnit_indifferent {phase : Phase} (hi : phase.Indifferent cfg) (hb : b.Rephrased b')
    (hu : u.Rephrased b.symbols u') :
    (runUnit cfg phase u b).Rephrased (runUnit cfg phase u' b') := by
  obtain ⟨houtcome, hafter⟩ := hi.run b b' u u' hb hu
  unfold runUnit
  rcases hrun : phase.run cfg u b with ⟨outcome, c⟩
  rcases hrun' : phase.run cfg u' b' with ⟨outcome', c'⟩
  rw [hrun, hrun'] at houtcome hafter
  cases outcome with
  | ok _ =>
    obtain rfl := eq_ok_of_toOption houtcome
    exact hafter
  | error e =>
    obtain ⟨e', rfl⟩ := exists_error_of_toOption houtcome
    rw [hu.id]
    exact ⟨hafter.program.mark u.id rfl, hafter.tree⟩

/-- **The loop over the units** takes the same way over programs in other words. -/
theorem Phase.Indifferent.abreast {slot : Slot} (hi : slot.phase.Indifferent cfg) :
    Abreast cfg cfg slot (fun _ => True) (fun _ => True) Build.Rephrased where
  grows u b := grows_runUnit (hi.grows u b)
  onWay _ _ _ _ := trivial
  told _ _ _ _ _ hb := ⟨hb.program, hb.tree⟩
  order _ _ hb := hb.program.order ▸ prefix_refl _
  stop _ _ hb _ := hb.program.order
  unit _ _ id hb _ := forall₂_getElem?
    (hb.program.units.imp fun u u' hu => ⟨hu.identifier, by rw [hi.accepts, hi.accepts, hu.errors],
      hu.errors⟩) id
  run b b' id u u' hb _ _ hu hu' := by
    obtain ⟨v, hv, huv⟩ := rel_some (hb.program.get? id) hu
    obtain rfl := Option.mem_unique hv hu'
    exact runUnit_indifferent hi hb huv

/-! ### Folding -/

theorem forall₂_modify_right {α β : Type} {R : α → β → Prop} {xs : List α} {ys : List β}
    (h : Forall₂ R xs ys) (i : ℕ) {g : β → β}
    (hg : ∀ a b, ys[i]? = some b → R a b → R a (g b)) : Forall₂ R xs (ys.modify i g) := by
  induction h generalizing i with
  | nil => simp
  | cons hab hrest ih =>
    cases i with
    | zero => exact .cons (hg _ _ rfl hab) hrest
    | succ i => exact .cons hab (ih i fun a b hb => hg a b (by simpa using hb))

theorem Node.Rephrased.foldNode {unit : UnitId} {n n' : Node} (h : n.Rephrased t unit n') :
    n.Rephrased t unit (WordAsm.foldNode t unit n') := by
  obtain ⟨f, hf, rfl⟩ := h
  refine ⟨_, (keepsMeaning_fold t (n.viewpoint unit)).comp hf, ?_⟩
  rw [← Statement.mapCode_mapCode]
  rfl

theorem Program.Rephrased.folded {p q : Program} (h : p.Rephrased q)
    (hu : q.get? u.id = some u) (htree : u.tree = some nodes) :
    p.Rephrased (q.folded u nodes) := by
  refine ⟨h.symbols, h.order, forall₂_modify_right h.units u.id fun v w hw hvw => ?_⟩
  obtain rfl : u = w := Option.mem_unique hu hw
  refine ⟨hvw.id, hvw.resource, ?_, hvw.errors, hvw.start, hvw.stop, hvw.relocation,
    hvw.dependencies, hvw.code, hvw.lines⟩
  have hnodes := hvw.tree
  rw [htree] at hnodes
  cases hold : v.tree with
  | none =>
    rw [hold] at hnodes
    cases hnodes
  | some old =>
    rw [hold] at hnodes
    cases hnodes with
    | some hnodes =>
      rw [h.symbols, hvw.id]
      exact .some (forall₂_map_right_iff.mpr (hnodes.imp fun _ _ hn => hn.foldNode))

/-- **Folding puts a program in other words**, and does not break down. -/
theorem rephrased_of_folding (h : b.Ready) :
    b.Rephrased (runPhase cfg { phase := foldingPhase } b).2 := by
  have htw := foldingPhase_treewise cfg
  have hcarries : foldingPhase.Carries cfg fun _ p files =>
      p.Ready ∧ b.program.Rephrased p ∧ files = b.tree :=
    { wellFormed := fun _ _ _ h => h.1.wellFormed
      skipped := fun _ _ _ _ _ _ h => h
      run := fun k c u hk hu hacc hc => by
        have he : u.hasErrors = false := by simpa [foldingPhase] using hacc
        obtain ⟨nodes, htree⟩ := Option.isSome_iff_exists.mp
          (hc.1.trees u.id (mem_of_getElem? hk) u hu he)
        refine ⟨htw.outcome u c nodes htree, ?_, ?_, (htw.tree u c).trans hc.2.2⟩
        · rw [htw.program u c nodes htree]
          exact hc.1.folded nodes
        · rw [htw.program u c nodes htree]
          exact hc.2.1.folded hu htree }
  obtain ⟨-, n, ⟨-, hprogram, htree⟩, -⟩ := hcarries.runPhase { phase := foldingPhase }
    ⟨h, Program.Rephrased.refl b.program, rfl⟩
  exact ⟨hprogram, htree⟩

theorem runPipeline_of_ready {rest rest' : Pipeline}
    (hs : ∀ slot ∈ slots, slot.phase.Carries cfg (fun _ p _ => p.Ready))
    (hrest : ∀ c : Build, c.Ready →
      (runPipeline cfg rest' c).1 = (runPipeline cfg rest c).1 ∧
        (runPipeline cfg rest c).2.Rephrased (runPipeline cfg rest' c).2)
    (h : b.Ready) :
    (runPipeline cfg (slots ++ rest') b).1 = (runPipeline cfg (slots ++ rest) b).1 ∧
      (runPipeline cfg (slots ++ rest) b).2.Rephrased
        (runPipeline cfg (slots ++ rest') b).2 := by
  have hsame : ∀ c : Build, c.Rephrased c := fun c => ⟨Program.Rephrased.refl c.program, rfl⟩
  induction slots generalizing b with
  | nil => exact hrest b h
  | cons slot slots ih =>
    obtain ⟨-, n, hready, -⟩ := (hs slot mem_cons_self).runPhase slot h
    exact runPipeline_cons_abreast (fun _ _ _ hb => ⟨hb.program, hb.tree⟩) rfl (fun _ => hsame b)
      (fun _ => ⟨rfl, hsame _⟩)
      fun _ => ih (fun s hmem => hs s (mem_cons_of_mem _ hmem)) hready

theorem runPipeline_goes_on (slot : Slot) (slots : Pipeline) (habort : slot.abortOnError = false)
    (hstop : slot.stopAfter = false) (b : Build) :
    runPipeline cfg (slot :: slots) b =
      runPipeline cfg slots (runPhase cfg slot b).2 := by
  rw [← recordPipeline_eq, recordPipeline_cons slot slots habort hstop, recordPipeline_eq]

/-- The phases behind the folding. -/
def afterFolding : Pipeline := Pipeline.standard.drop 4

theorem afterFolding_indifferent (cfg : Settings) :
    ∀ slot ∈ afterFolding, slot.phase.Indifferent cfg := by
  simp only [afterFolding, Pipeline.standard, drop_succ_cons, drop_zero, mem_cons,
    not_mem_nil, or_false]
  rintro slot (rfl | rfl)
  · exact validationPhase_indifferent
  · exact emissionPhase_indifferent

end Phases

/-- **Folding is transparent.** With or without it, a compilation succeeds or fails alike
and writes the same files; the same units are there, in the same order, and have errors;
the symbols are the same; and every unit has the same bounds, object code, relocation
table, source lines and nodes, but for expressions of the same meaning. -/
theorem folding_is_transparent {cfg : Settings} {p : Program} (tree : FileTree)
    (hw : p.WellFormed) :
    let full := compile cfg p tree
    let plain := compile cfg p tree (Pipeline.standard.remove "fold-expressions").2
    full.1 = plain.1 ∧ plain.2.Rephrased full.2 := by
  have hremoved : (Pipeline.standard.remove "fold-expressions").2 =
      { phase := parsePhase } :: (preparation.tail.take 2 ++ afterFolding) := rfl
  have hstandard : Pipeline.standard = { phase := parsePhase } ::
      (preparation.tail.take 2 ++ { phase := foldingPhase } :: afterFolding) := rfl
  set b := opening p tree
  obtain ⟨-, hready⟩ := ready_of_parse cfg (b := b) (blank_reset hw)
  have hrest : ∀ c : Build, c.Ready →
      (runPipeline cfg ({ phase := foldingPhase } :: afterFolding) c).1 =
          (runPipeline cfg afterFolding c).1 ∧
        (runPipeline cfg afterFolding c).2.Rephrased
          (runPipeline cfg ({ phase := foldingPhase } :: afterFolding) c).2 := by
    intro c hc
    rw [runPipeline_goes_on { phase := foldingPhase } afterFolding rfl rfl]
    exact runPipeline_abreast (fun _ _ _ hb => ⟨hb.program, hb.tree⟩)
      (fun _ _ hb => hb.program.hasErrors)
      (fun slot hslot _ _ hb => (afterFolding_indifferent cfg slot hslot).abreast.runPhase hb
        trivial (.inl (hb.queueBound cfg))) (rephrased_of_folding hc)
  have hcarries : ∀ slot ∈ preparation.tail.take 2,
      slot.phase.Carries cfg (fun _ p _ => p.Ready) := fun slot hslot =>
    (carries_of_mem cfg slot (mem_of_mem_take hslot)).1
  obtain ⟨haborted, hend⟩ := runPipeline_of_ready hcarries hrest hready
  rw [← runPipeline_goes_on { phase := parsePhase } _ rfl rfl,
    ← runPipeline_goes_on { phase := parsePhase } _ rfl rfl, ← hstandard, ← hremoved]
    at haborted hend
  refine ⟨?_, hend.program, hend.tree⟩
  show (!(runPipeline cfg .standard b).1 &&
    !(runPipeline cfg .standard b).2.hasErrors) = _
  rw [haborted, hend.program.hasErrors]
  rfl

/-- A program with two expressions to fold, one of them a distance between labels. -/
def distances : Program :=
  .ofResources [.text "main" "a: .word 2 * 3, b - a, b + 1\nb: nop\n"]

/-- Folding rewrites the tree of `distances`, and the object code is the same without it. -/
theorem folding_is_transparent_distances :
    (compile librarySettings distances {}).1 = true ∧
      ((compile librarySettings distances {}).2.units.get? 0).map SourceUnit.tree ≠
        ((compile librarySettings distances {}
          (Pipeline.standard.remove "fold-expressions").2).2.units.get? 0).map SourceUnit.tree ∧
      (compile librarySettings distances {}
        (Pipeline.standard.remove "fold-expressions").2).2.Rephrased
          (compile librarySettings distances {}).2 :=
  ⟨by decide +kernel, by decide +kernel,
    (folding_is_transparent {} (Program.wellFormed_ofResources _)).2⟩

end WordAsm
