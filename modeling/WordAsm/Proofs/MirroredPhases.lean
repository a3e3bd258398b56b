/-
# Phases on programs side by side

Every phase behind the parse does to a program that mirrors another what it does to the
other (`Phase.Mirrored`): it breaks down on the same units for the same reasons, attaches
the same markers and leaves programs that mirror each other again. So does a pipeline of
such phases (`runPipeline_mirrors`).

The files around the two builds need not be the same. It is enough that the object code
of a unit can be handed over on both sides or on neither (`ObjectSink.Respects`).
-/
import WordAsm.Proofs.Abreast
import WordAsm.Proofs.Mirroring

namespace WordAsm

open List

/-- Builds of programs that mirror each other, among files related by `K`. -/
structure Build.Mirrors (f : StoreId → StoreId) (K : FileTree → FileTree → Prop) (b b' : Build) :
    Prop where
  program : b.program.Mirrors f b'.program
  files : K b.tree b'.tree
  poisoned : b'.poisoned = b.poisoned.map (SymbolId.renumber f)

/-- Files that are related by `K` take the same object code, and are related afterwards. -/
def ObjectSink.Respects (sink : ObjectSink) (K : FileTree → FileTree → Prop) : Prop :=
  ∀ tree tree' identifier id buffer, K tree tree' →
    (∃ e, sink.close tree identifier id buffer = .error e ∧
      sink.close tree' identifier id buffer = .error e) ∨
    ∃ code after after', sink.close tree identifier id buffer = .ok (code, after) ∧
      sink.close tree' identifier id buffer = .ok (code, after') ∧ K after after'

/-- A phase that does the same to builds that mirror each other, and queues no units. -/
structure Phase.Mirrored (phase : Phase) (cfg : Settings) (f : StoreId → StoreId)
    (K : FileTree → FileTree → Prop) : Prop where
  accepts : ∀ u u' : SourceUnit, u.Mirrors f u' → phase.accepts u' = phase.accepts u
  grows : ∀ u (b : Build), b.program.Grows (phase.run cfg u b).2.program
  settled : ∀ us, phase.Settled cfg us
  run : ∀ (b b' : Build) (u u' : SourceUnit), b.Mirrors f K b' → u.Mirrors f u' →
    (phase.run cfg u' b').1 = (phase.run cfg u b).1 ∧
      (phase.run cfg u b).2.Mirrors f K (phase.run cfg u' b').2

section Phases

variable {cfg : Settings} {f : StoreId → StoreId} {K : FileTree → FileTree → Prop}
  {b b' : Build} {u u' : SourceUnit}

theorem withTree_mirrors (hb : b.Mirrors f K b') (hu : u.Mirrors f u')
    {g g' : SyntaxTree → Except Error Unit × Build}
    (h : ∀ nodes, (g' (nodes.map (Node.renumber f))).1 = (g nodes).1 ∧
      (g nodes).2.Mirrors f K (g' (nodes.map (Node.renumber f))).2) :
    InStep (Build.Mirrors f K) (withTree u b g) (withTree u' b' g') := by
  unfold withTree
  rw [hu.tree]
  cases u.tree with
  | none => exact ⟨rfl, hb⟩
  | some nodes => exact h nodes

theorem markOwners_mirrors {p p' : Program} (h : p.Mirrors f p') (ms : List (UnitId × Marker)) :
    (markOwners p' ms).1 = (markOwners p ms).1 ∧
      (markOwners p ms).2.Mirrors f (markOwners p' ms).2 := by
  induction ms generalizing p p' with
  | nil => exact ⟨rfl, h⟩
  | cons m ms ih =>
    unfold markOwners Units.get
    cases hu : p.get? m.1 with
    | none =>
      rw [rel_none (h.get? m.1) hu]
      exact ⟨rfl, h⟩
    | some u =>
      obtain ⟨u', hu', -⟩ := rel_some (h.get? m.1) hu
      rw [hu']
      exact ih (h.mark m.1 [m.2])

theorem Program.Mirrors.previousEnd {p p' : Program} (h : p.Mirrors f p') (i : UnitId) :
    WordAsm.previousEnd p'.units i = WordAsm.previousEnd p.units i := by
  have hstop : (fun id => (p'.get? id).bind SourceUnit.stop) =
      fun id => (p.get? id).bind SourceUnit.stop := by
    funext id
    cases hu : p.get? id with
    | none => rw [rel_none (h.get? id) hu]
    | some u =>
      obtain ⟨u', hu', huu⟩ := rel_some (h.get? id) hu
      rw [hu']
      exact huu.stop
  unfold WordAsm.previousEnd
  rw [hstop, h.order]

theorem SourceUnit.Mirrors.withEmission (h : u.Mirrors f u') (m : Emission) (code : ObjectCode) :
    (u.withEmission m code).Mirrors f (u'.withEmission m code) := by
  refine ⟨h.id, h.resource, h.tree, h.markers, h.start, h.stop, ?_, h.dependencies, rfl, ?_⟩
  · simp only [SourceUnit.withEmission, h.relocation]
  · simp only [SourceUnit.withEmission, h.lines]

/-- The state between two nodes, with stores under other numbers. -/
def Layout.renumber (f : StoreId → StoreId) (l : Layout) : Layout :=
  { l with symbols := l.symbols.renumber f }

theorem Layout.moveTo_renumber (l : Layout) (n : Node) (e : Expr) (value : Option Int64) :
    (l.renumber f).moveTo (n.renumber f) e value = (l.moveTo n e value).renumber f := by
  unfold Layout.moveTo
  split
  · rfl
  · simp only
    split
    · rfl
    · rw [show (l.renumber f).emitted = l.emitted from rfl,
        show (l.renumber f).address = l.address from rfl]
      split
      · rfl
      · split <;> rfl

section Injective

variable (hf : Function.Injective f)

include hf

/-! ### Folding and validation -/

theorem foldNode_renumber (t : Table) (unit : UnitId) (n : Node) :
    foldNode (t.renumber f) unit (n.renumber f) = (foldNode t unit n).renumber f := by
  have hfold : (t.renumber f).fold ((n.renumber f).viewpoint unit) = t.fold (n.viewpoint unit) :=
    funext fun e => t.fold_renumber hf (n.viewpoint unit) e
  unfold foldNode
  rw [hfold]
  rfl

theorem foldingPhase_mirrored :
    foldingPhase.Mirrored cfg f K where
  accepts _ _ hu := congrArg (!·) hu.hasErrors
  grows := (foldingPhase_treewise cfg).quiet.grows
  settled _ := foldingPhase_settled
  run b b' u u' hb hu := by
    refine withTree_mirrors hb hu fun nodes => ⟨rfl, ?_, hb.files, hb.poisoned⟩
    simp only [Build.program_modifyUnit, Build.program_sayAll, hu.id]
    refine hb.program.modifyUnit u.id fun v v' hv => ?_
    have hfolded : (nodes.map (Node.renumber f)).map (foldNode b'.symbols u.id) =
        (nodes.map (foldNode b.symbols u.id)).map (Node.renumber f) := by
      rw [map_map, map_map, hb.program.symbols]
      exact map_congr_left fun n _ => foldNode_renumber hf _ _ n
    rw [hfolded]
    exact hv.withTree _

theorem validateNode_renumber (switches : Switches) (t : Table) (unit : UnitId) (n : Node) :
    validateNode switches (t.renumber f) unit (n.renumber f) = validateNode switches t unit n := by
  have hproblems : exprProblems switches (t.renumber f) ((n.renumber f).viewpoint unit) n.inlined =
      exprProblems switches t (n.viewpoint unit) n.inlined := by
    funext e
    have heval : (t.renumber f).eval ((n.renumber f).viewpoint unit) e = _ :=
      t.eval_renumber hf (n.viewpoint unit) e
    have hweigh : (t.renumber f).weigh ((n.renumber f).viewpoint unit) e = _ :=
      t.weigh_renumber hf (n.viewpoint unit) e
    unfold exprProblems
    rw [heval, hweigh]
  exact congrArg (fun problems => (n.statement.codeExprs.flatMap problems).map fun marker =>
    (marker.located n.location).on n.id) hproblems

theorem validationPhase_mirrored :
    validationPhase.Mirrored cfg f K where
  accepts _ _ hu := congrArg (!·) hu.hasErrors
  grows := (validationPhase_treewise cfg).quiet.grows
  settled _ := validationPhase_settled
  run b b' u u' hb hu := by
    refine withTree_mirrors hb hu fun nodes => ⟨rfl, ?_, hb.files, hb.poisoned⟩
    have hproblems : (nodes.map (Node.renumber f)).flatMap
        (validateNode cfg.switches b'.symbols u.id) =
        nodes.flatMap (validateNode cfg.switches b.symbols u.id) := by
      rw [flatMap_map, hb.program.symbols]
      exact flatMap_congr fun n _ => validateNode_renumber hf _ _ _ n
    simp only [Build.program_mark, hu.id, hproblems]
    exact hb.program.mark u.id _

/-! ### References -/

theorem nameProblem?_renumber (t : Table) (unit : UnitId) (scope : Option SymbolId)
    (name : String) :
    nameProblem? (t.renumber f) unit (scope.map (SymbolId.renumber f)) name =
      nameProblem? t unit scope name := by
  have hsymbol : ((t.renumber f).resolve unit name (scope.map (SymbolId.renumber f))).bind
      (t.renumber f).symbol? = ((t.resolve unit name scope).bind t.symbol?).map
        (Symbol.renumber f) := by
    rw [t.resolve_renumber hf]
    cases t.resolve unit name scope with
    | none => rfl
    | some id => exact t.symbol?_renumber hf id
  unfold nameProblem?
  rw [hsymbol]
  cases (t.resolve unit name scope).bind t.symbol? with
  | none => rfl
  | some x => simp only [Option.map_some, Symbol.isMacro_renumber]

theorem referenceProblems_renumber (t : Table) (unit : UnitId) (nodes : SyntaxTree) :
    referenceProblems (t.renumber f) unit (nodes.map (Node.renumber f)) =
      referenceProblems t unit nodes := by
  unfold referenceProblems
  rw [flatMap_map]
  refine flatMap_congr fun n _ => ?_
  exact filterMap_congr fun name _ =>
    congrArg (Option.map _) (nameProblem?_renumber hf t unit n.scope name)

theorem checkCycles_mirrors (hb : b.Mirrors f K b') (unit : UnitId) :
    InStep (Build.Mirrors f K) (checkCycles unit b) (checkCycles unit b') := by
  have hsearch : CycleSearch.checkUnit b'.symbols b'.poisoned unit =
      (CycleSearch.checkUnit b.symbols b.poisoned unit).renumber f := by
    rw [hb.program.symbols, hb.poisoned]
    exact CycleSearch.checkUnit_renumber hf _ _ unit
  unfold checkCycles
  simp only [hsearch]
  obtain ⟨houtcome, hmarked⟩ := markOwners_mirrors
    (hb.program.withSymbols (CycleSearch.checkUnit b.symbols b.poisoned unit).table)
    (CycleSearch.checkUnit b.symbols b.poisoned unit).markers
  exact ⟨houtcome, hmarked, hb.files, rfl⟩

theorem referencePhase_mirrored :
    referencePhase.Mirrored cfg f K where
  accepts _ _ hu := congrArg (!·) hu.hasErrors
  grows := (referencePhase_steady cfg).grows
  settled _ := referencePhase_settled
  run b b' u u' hb hu := by
    obtain ⟨houtcome, hchecked⟩ := checkCycles_mirrors hf hb u.id
    simp only [referencePhase, hu.id]
    rcases hc : checkCycles u.id b with ⟨outcome, c⟩
    rcases hc' : checkCycles u.id b' with ⟨outcome', c'⟩
    rw [hc, hc'] at houtcome hchecked
    cases houtcome
    cases outcome with
    | error e => exact ⟨rfl, hchecked⟩
    | ok _ =>
      refine withTree_mirrors hchecked hu fun nodes => ⟨rfl, ?_, hchecked.files, hchecked.poisoned⟩
      have hproblems : referenceProblems c'.symbols u.id (nodes.map (Node.renumber f)) =
          referenceProblems c.symbols u.id nodes := by
        rw [hchecked.program.symbols]
        exact referenceProblems_renumber hf _ _ _
      simp only [Build.program_mark, hproblems]
      exact hchecked.program.mark u.id _

/-! ### Layout -/

theorem assignLabel_renumber (t : Table) (n : Node) (address : Address) :
    assignLabel (t.renumber f) (n.renumber f) address = (assignLabel t n address).renumber f := by
  have hstatement : (n.renumber f).statement = n.statement := rfl
  have hsymbol : (n.renumber f).symbol = n.symbol.map (SymbolId.renumber f) := rfl
  unfold assignLabel
  rw [hstatement, hsymbol]
  cases n.statement.isLabel with
  | false => cases n.symbol <;> rfl
  | true =>
    cases n.symbol with
    | none => rfl
    | some id =>
      exact (t.modify_renumber hf id fun x => x.withAddress_renumber (some address)).symm

theorem layNode_renumber (unit : UnitId) (inlining : Bool) (l : Layout) (n : Node) :
    layNode unit inlining (l.renumber f) (n.renumber f) =
      ((layNode unit inlining l n).1.renumber f, (layNode unit inlining l n).2.1.renumber f,
        (layNode unit inlining l n).2.2) := by
  have heval : (l.renumber f).symbols.eval ((l.renumber f).viewpoint unit (n.renumber f)) =
      l.symbols.eval (l.viewpoint unit n) :=
    funext fun e => l.symbols.eval_renumber hf (l.viewpoint unit n) e
  have hstatement : (n.renumber f).statement = n.statement := rfl
  by_cases hs : ∃ e, n.statement = .origin e
  · obtain ⟨e, he⟩ := hs
    rw [layNode_origin he, layNode_origin (hstatement.trans he), heval, Layout.moveTo_renumber]
    rfl
  · rcases hm : measure inlining (l.symbols.eval (l.viewpoint unit n)) n.statement with
      ⟨size, inlined⟩
    have hne : ∀ e, n.statement ≠ .origin e := fun e he => hs ⟨e, he⟩
    have hm' : measure inlining ((l.renumber f).symbols.eval
        ((l.renumber f).viewpoint unit (n.renumber f))) (n.renumber f).statement =
        (size, inlined) := by rw [heval, hstatement, hm]
    have haddress : (l.renumber f).address = l.address := rfl
    rw [layNode_other hne hm, layNode_other (hstatement ▸ hne) hm', hstatement, haddress]
    split
    · rfl
    · cases toAddress? l.address with
      | none => rfl
      | some address =>
        have hassigned : assignLabel (l.renumber f).symbols (n.renumber f) address = _ :=
          assignLabel_renumber hf l.symbols n address
        simp only [hassigned]
        split <;> rfl

theorem layNodes_renumber (unit : UnitId) (inlining : Bool) (nodes : SyntaxTree) (l : Layout) :
    layNodes unit inlining (nodes.map (Node.renumber f)) (l.renumber f) =
      ((layNodes unit inlining nodes l).1.map (Node.renumber f),
        (layNodes unit inlining nodes l).2.renumber f) := by
  induction nodes generalizing l with
  | nil => rfl
  | cons n nodes ih =>
    rw [map_cons, layNodes, layNodes, layNode_renumber hf]
    rcases layNode unit inlining l n with ⟨n', l', go⟩
    cases go with
    | true => simp only [ih l', map_cons]
    | false => rfl

theorem layoutPhase_mirrored :
    layoutPhase.Mirrored cfg f K where
  accepts _ _ hu := congrArg (!·) hu.hasErrors
  grows := (layoutPhase_treewise cfg).quiet.grows
  settled _ := layoutPhase_settled
  run b b' u u' hb hu := by
    refine withTree_mirrors hb hu fun nodes => ⟨rfl, ?_, hb.files, hb.poisoned⟩
    have hlaid := layNodes_renumber hf u.id (!cfg.switches.has .disableInlining) nodes
      { symbols := b.symbols, start := previousEnd b.units u.id,
        address := previousEnd b.units u.id }
    unfold Layout.renumber at hlaid
    rw [← hb.program.symbols] at hlaid
    simp only [layUnit, hu.id, hb.program.previousEnd, hlaid, Build.program_say]
    rcases layNodes u.id (!cfg.switches.has .disableInlining) nodes
      { symbols := b.symbols, start := previousEnd b.units u.id,
        address := previousEnd b.units u.id } with ⟨laid, l⟩
    refine (hb.program.withSymbols l.symbols).modifyUnit u.id fun v v' hv => ?_
    have hmarked := hv.markAll l.markers
    exact ⟨hmarked.id, hmarked.resource, rfl, hmarked.markers, rfl, rfl, hmarked.relocation,
      hmarked.dependencies, hmarked.code, hmarked.lines⟩

/-! ### Emission -/

theorem emitNode_renumber (switches : Switches) (t : Table) (unit : UnitId) (m : Emission)
    (n : Node) :
    emitNode switches (t.renumber f) unit m (n.renumber f) = emitNode switches t unit m n := by
  have hword : exprWord (t.renumber f) ((n.renumber f).viewpoint unit) =
      exprWord t (n.viewpoint unit) := by
    funext e
    have heval : (t.renumber f).eval ((n.renumber f).viewpoint unit) e = _ :=
      t.eval_renumber hf (n.viewpoint unit) e
    unfold exprWord
    rw [heval]
  have hmoves : moves (t.renumber f) ((n.renumber f).viewpoint unit) =
      moves t (n.viewpoint unit) := by
    funext e
    have hweigh : (t.renumber f).weigh ((n.renumber f).viewpoint unit) e = _ :=
      t.weigh_renumber hf (n.viewpoint unit) e
    unfold moves
    rw [hweigh]
  have hwords : statementWords (t.renumber f) ((n.renumber f).viewpoint unit) =
      statementWords t (n.viewpoint unit) := by
    funext inlined statement
    unfold statementWords instructionWords
    rw [hword, hmoves]
  unfold emitNode
  rw [hwords]
  rfl

theorem emitNodes_renumber (switches : Switches) (t : Table) (hu : u.Mirrors f u')
    (nodes : SyntaxTree) :
    emitNodes switches (t.renumber f) u' (nodes.map (Node.renumber f)) =
      emitNodes switches t u nodes := by
  unfold emitNodes
  rw [hu.id, hu.start, foldlM_map]
  exact congrArg (fun step => nodes.foldlM step _)
    (funext₂ fun m n => emitNode_renumber hf switches t u.id m n)

theorem emissionPhase_mirrored (hsink : cfg.sink.Respects K) :
    emissionPhase.Mirrored cfg f K where
  accepts _ _ hu := congrArg (!·) hu.hasErrors
  grows := emissionPhase_grows cfg
  settled _ := emissionPhase_settled
  run b b' u u' hb hu := by
    refine withTree_mirrors hb hu fun nodes => ?_
    have hemit := emitNodes_renumber hf cfg.switches b.symbols hu nodes
    rw [← hb.program.symbols] at hemit
    unfold emitUnit
    simp only [hemit, hu.id, hu.identifier]
    cases emitNodes cfg.switches b.symbols u nodes with
    | error e => exact ⟨rfl, hb⟩
    | ok m =>
      simp only [bind, Except.bind, pure, Except.pure]
      rcases hsink b.tree b'.tree u.identifier u.id m.buffer hb.files with
        ⟨e, he, he'⟩ | ⟨code, after, after', hcode, hcode', hafter⟩
      · simp only [he, he']
        exact ⟨trivial, hb⟩
      · simp only [hcode, hcode']
        exact ⟨trivial, hb.program.modifyUnit u.id fun _ _ hv => hv.withEmission m code, hafter,
          hb.poisoned⟩

/-- **The five phases behind the parse** do the same to builds that mirror each other. -/
theorem mirrored_of_standard (hsink : cfg.sink.Respects K) {phase : Phase}
    (h : phase ∈ Pipeline.standard.tail.map Slot.phase) : phase.Mirrored cfg f K := by
  rcases behind_parse_cases h with rfl | rfl | rfl | rfl | rfl
  · exact referencePhase_mirrored hf
  · exact layoutPhase_mirrored hf
  · exact foldingPhase_mirrored hf
  · exact validationPhase_mirrored hf
  · exact emissionPhase_mirrored hf hsink

end Injective

/-! ### Runs -/

theorem runUnit_mirrors {phase : Phase} (hid : u'.id = u.id)
    (h : InStep (Build.Mirrors f K) (phase.run cfg u b) (phase.run cfg u' b')) :
    (runUnit cfg phase u b).Mirrors f K (runUnit cfg phase u' b') := by
  obtain ⟨houtcome, hafter⟩ := h
  unfold runUnit
  rcases hrun : phase.run cfg u b with ⟨outcome, c⟩
  rcases hrun' : phase.run cfg u' b' with ⟨outcome', c'⟩
  rw [hrun, hrun'] at houtcome hafter
  cases houtcome
  cases outcome with
  | ok _ => exact hafter
  | error e =>
    rw [hid]
    exact ⟨hafter.program.mark u.id _, hafter.files, hafter.poisoned⟩

theorem Phase.Mirrored.abreast {slot : Slot} (h : slot.phase.Mirrored cfg f K) :
    Abreast cfg cfg slot (fun _ => True) (fun _ => True) (Build.Mirrors f K) where
  grows u b := grows_runUnit (h.grows u b)
  onWay _ _ _ _ := trivial
  told _ _ _ _ _ hb := ⟨hb.program, hb.files, hb.poisoned⟩
  order _ _ hb := hb.program.order ▸ prefix_refl _
  stop _ _ hb _ := hb.program.order
  unit _ _ id hb _ := forall₂_getElem?
    (hb.program.units.imp fun u u' hu => ⟨hu.identifier, h.accepts u u' hu, hu.hasErrors⟩) id
  run b b' id u u' hb _ _ hu hu' := by
    obtain ⟨v, hv, huv⟩ := rel_some (hb.program.get? id) hu
    obtain rfl := Option.mem_unique hv hu'
    exact runUnit_mirrors huv.id (h.run b b' u v hb huv)

/-- **A phase over all units** does the same to builds that mirror each other. -/
theorem runPhase_mirrors {slot : Slot} (h : slot.phase.Mirrored cfg f K)
    (hb : b.Mirrors f K b') :
    InStep (Build.Mirrors f K) (runPhase cfg slot b) (runPhase cfg slot b') := by
  have hover : ∀ c : Build,
      (runPhase cfg slot c).2.units.order.length ≤ queueBound cfg c := by
    intro c
    rw [(runPhase_sameSources (h.settled _) (Units.SameSources.refl c.units)).order]
    unfold queueBound
    omega
  exact h.abreast.runPhase hb trivial (.inr ⟨hover b, hover b'⟩)

/-- **A pipeline of such phases** does the same to builds that mirror each other. -/
theorem runPipeline_mirrors {slots : Pipeline}
    (h : ∀ slot ∈ slots, slot.phase.Mirrored cfg f K) (hb : b.Mirrors f K b') :
    InStep (Build.Mirrors f K) (runPipeline cfg slots b) (runPipeline cfg slots b') :=
  runPipeline_abreast (fun _ _ _ hb => ⟨hb.program, hb.files, hb.poisoned⟩)
    (fun _ _ hb => hb.program.hasErrors)
    (fun slot hslot _ _ hb => runPhase_mirrors (h slot hslot) hb) hb

end Phases

end WordAsm
