/-
# Switches that a good build does not need

Some switches only let more sources pass, and some only have more told about a build: relaxed
parsing, relaxed validation and local labels, and the debug mode and debug information. A build
that succeeds without them succeeds with them, and it comes to the same program, except for the
source lines that debug information notes.

The two builds run in step (`Build.Agree`). As the first ends without errors, it has none under
way, and so each of its runs is one of the strict cases that lenience does not change
(`Phase.Tolerant`). Up to the emission the two programs are equal; from there on they are
`Program.SameButLines`.
-/
import WordAsm.Proofs.EventProtocol
import WordAsm.Proofs.LenientReading

namespace WordAsm

open List

/-! ### Switches -/

/-- The switches that only let more pass, or have more told. -/
def Switch.permissive : List Switch :=
  [.relaxedParsing, .relaxedValidation, .localLabels, .debugMode, .debugInformation]

namespace Switches

variable {s s' s'' : Switches}

theorem Eases.refl (s : Switches) : s.Eases s := ⟨id, id, id, rfl, rfl, rfl⟩

theorem Eases.trans (h : s.Eases s') (h' : s'.Eases s'') : s.Eases s'' where
  parsing hs := h'.parsing (h.parsing hs)
  labels hs := h'.labels (h.labels hs)
  validation hs := h'.validation (h.validation hs)
  includes := h'.includes.trans h.includes
  inlining := h'.inlining.trans h.inlining
  relocation := h'.relocation.trans h.relocation

theorem mem_on_set (s : Switches) (switch x : Switch) :
    x ∈ (s.set switch).on ↔ x = switch ∨ x ∈ s.on := by
  unfold set
  split
  · rename_i hon
    constructor
    · exact .inr
    · rintro (rfl | hx)
      · exact hon
      · exact hx
  · exact mem_cons

theorem eases_set (s : Switches) {switch : Switch} (h : switch ∈ Switch.permissive) :
    s.Eases (s.set switch) := by
  have hon : ∀ x, s.on.contains x = true → (s.set switch).on.contains x = true := by
    intro x hx
    rw [contains_iff_mem] at hx ⊢
    exact (s.mem_on_set switch x).mpr (.inr hx)
  have hother : ∀ x, x ≠ switch → (s.set switch).on.contains x = s.on.contains x := by
    intro x hne
    rw [Bool.eq_iff_iff, contains_iff_mem, contains_iff_mem, mem_on_set]
    exact or_iff_right hne
  have hapart : ∀ x ∉ Switch.permissive, x ≠ switch := fun x hx heq => hx (heq ▸ h)
  refine ⟨hon _, hon _, hon _, hother _ (hapart _ (by decide)), ?_, hother _ (hapart _ (by decide))⟩
  show ((s.set switch).on.contains _ || (s.set switch).on.contains _) =
    (s.on.contains _ || s.on.contains _)
  rw [hother _ (hapart _ (by decide)), hother _ (hapart _ (by decide))]

theorem eases_foldl_set (s : Switches) {extra : List Switch}
    (h : ∀ switch ∈ extra, switch ∈ Switch.permissive) : s.Eases (extra.foldl set s) := by
  induction extra generalizing s with
  | nil => exact Eases.refl s
  | cons switch extra ih =>
    have hfirst := s.eases_set (h switch mem_cons_self)
    exact hfirst.trans (ih (s.set switch) fun x hx => h x (mem_cons_of_mem _ hx))

end Switches

/-- The settings `cfg'` are `cfg` with more lenient switches, wherever object code
goes. -/
structure Settings.Eases (cfg cfg' : Settings) : Prop where
  switches : cfg.switches.Eases cfg'.switches
  resolver : cfg'.resolver = cfg.resolver

/-! ### Programs that differ in source lines -/

/-- The unit `u'` is `u`, except for the source lines that it notes. -/
def SourceUnit.SameButLines (u u' : SourceUnit) : Prop := u' = { u with lines := u'.lines }

/-- The programs have the same symbols and the same queue, and their units are the same except
for source lines. -/
structure Program.SameButLines (p p' : Program) : Prop where
  symbols : p'.symbols = p.symbols
  order : p'.order = p.order
  units : List.Forall₂ SourceUnit.SameButLines p.all p'.all

namespace SourceUnit.SameButLines

variable {u u' : SourceUnit} (h : u.SameButLines u')

include h

theorem id : u'.id = u.id := by rw [h]

theorem identifier : u'.identifier = u.identifier := by
  rw [h]
  rfl

theorem hasErrors : u'.hasErrors = u.hasErrors := by
  rw [h]
  rfl

theorem tree : u'.tree = u.tree := by rw [h]

theorem start : u'.start = u.start := by rw [h]

end SourceUnit.SameButLines

namespace Program.SameButLines

variable {p p' : Program}

theorem refl (p : Program) : p.SameButLines p :=
  ⟨rfl, rfl, forall₂_same.mpr fun _ _ => rfl⟩

theorem get? (h : p.SameButLines p') {i : UnitId} {u : SourceUnit} (hu : p.get? i = some u) :
    ∃ u', p'.get? i = some u' ∧ u.SameButLines u' :=
  rel_some (forall₂_getElem? h.units i) hu

theorem hasErrors (h : p.SameButLines p') : p'.hasErrors = p.hasErrors :=
  forall₂_any h.units fun _ _ hu => hu.hasErrors.symm

theorem modifyUnit (h : p.SameButLines p') (i : UnitId) {f g : SourceUnit → SourceUnit}
    (hfg : ∀ u u', u.SameButLines u' → (f u).SameButLines (g u')) :
    (p.modifyUnit i f).SameButLines (p'.modifyUnit i g) :=
  ⟨h.symbols, h.order, forall₂_modify h.units hfg i⟩

end Program.SameButLines

/-! ### Two builds in step -/

/-- The builds have come to programs that `R` relates, with the same files, and have told the
same. -/
structure Build.Agree (R : Program → Program → Prop) (b b' : Build) : Prop where
  program : R b.program b'.program
  tree : b'.tree = b.tree
  poisoned : b'.poisoned = b.poisoned
  heard : b'.heard = b.heard

/-- What a phase does without errors it also does under the settings `cfg'`. -/
structure Phase.Tolerant (phase : Phase) (cfg cfg' : Settings)
    (R : Program → Program → Prop) : Prop where
  standard : phase ∈ Pipeline.standard.map Slot.phase
  same : ∀ p p', R p p' → p.SameButLines p'
  run : ∀ (b b' : Build) (u u' : SourceUnit), b.Agree R b' → b.get? u.id = some u →
    b'.get? u.id = some u' → u.SameButLines u' →
    (phase.run cfg u b).1 = .ok () → (phase.run cfg u b).2.hasErrors = false →
    (phase.run cfg' u' b').1 = .ok () ∧
      R (phase.run cfg u b).2.program (phase.run cfg' u' b').2.program ∧
      (phase.run cfg' u' b').2.tree = (phase.run cfg u b).2.tree ∧
      (phase.run cfg' u' b').2.poisoned = (phase.run cfg u b).2.poisoned

section Step

variable {slots : Pipeline} {cfg cfg' : Settings} {slot : Slot}
  {R : Program → Program → Prop} {b b' : Build}

/-- **One run** that leaves no errors. -/
theorem Phase.Tolerant.runUnit (h : slot.phase.Tolerant cfg cfg' R) (hb : b.Agree R b')
    (hw : b.WellFormed) {u u' : SourceUnit}
    (hu : b.get? u.id = some u) (hu' : b'.get? u.id = some u')
    (huu : u.SameButLines u')
    (hclean : (runUnit cfg slot.phase u b).hasErrors = false) :
    (runUnit cfg slot.phase u b).Agree R (runUnit cfg' slot.phase u' b') := by
  have hok := ok_of_grows (grows_of_standard h.standard u b) hw hu hclean
  have hrun := h.run b b' u u' hb hu hu' huu
  rw [hok] at hrun
  obtain ⟨hok', hprogram, htree, hpoisoned⟩ := hrun rfl hclean
  have heq : WordAsm.runUnit cfg' slot.phase u' b' = (slot.phase.run cfg' u' b').2 :=
    runUnit_of_ok (Prod.ext hok' rfl)
  refine ⟨by rw [heq]; exact hprogram, by rw [heq]; exact htree, by rw [heq]; exact hpoisoned, ?_⟩
  rw [heard_runUnit (silent_of_standard h.standard u b),
    heard_runUnit (silent_of_standard h.standard u' b'), hb.heard]

/-- **The loop of a phase** that leaves no errors. Units are never passed over and never fail on
the first side, so the two loops take the same way. -/
theorem Phase.Tolerant.abreast (h : slot.phase.Tolerant cfg cfg' R) :
    Abreast cfg cfg' slot (·.hasErrors = false) (·.hasErrors = false)
      (fun b b' => b.Agree R b' ∧ b.WellFormed) where
  grows u b := grows_runUnit (grows_of_standard h.standard u b)
  onWay _ _ hgrows hclean := hgrows.noErrors hclean
  told b b' more more' hmore hb := by
    refine ⟨⟨hb.1.program, hb.1.tree, hb.1.poisoned, ?_⟩, hb.2⟩
    rw [Build.heard_append, Build.heard_append, hb.1.heard, hmore]
  order _ _ hb := (h.same _ _ hb.1.program).order ▸ prefix_refl _
  stop _ _ hb _ := (h.same _ _ hb.1.program).order
  unit _ _ id hb _ := forall₂_getElem? ((h.same _ _ hb.1.program).units.imp fun u u' hu =>
    ⟨hu.identifier, by rw [accepts_of_standard h.standard, accepts_of_standard h.standard,
      hu.hasErrors], hu.hasErrors⟩) id
  run b b' id u u' hb hclean _ hu hu' := by
    obtain rfl := hb.2.numbered id u hu
    obtain ⟨v, hv, huv⟩ := (h.same _ _ hb.1.program).get? hu
    obtain rfl := Option.mem_unique hv hu'
    exact ⟨h.runUnit hb.1 hb.2 hu hu' huv hclean,
      (grows_runUnit (grows_of_standard h.standard u b)).wellFormed hb.2⟩

theorem grows_runPipeline_of_standard (cfg : Settings)
    (h : ∀ slot ∈ slots, slot.phase ∈ Pipeline.standard.map Slot.phase) (b : Build) :
    b.program.Grows (runPipeline cfg slots b).2.program :=
  runPipeline_keeps (I := fun p => b.program.Grows p)
    (fun slot hslot _ u c _ _ hc => hc.trans (grows_runUnit (grows_of_standard (h slot hslot) u c)))
    (Program.Grows.refl _)

/-- **Some phases** that are not cut short and leave no errors. -/
theorem runPipeline_agree (h : ∀ slot ∈ slots, slot.phase.Tolerant cfg cfg' R)
    (hstop : ∀ slot ∈ slots, slot.stopAfter = false)
    (hresolver : cfg'.resolver = cfg.resolver)
    (hb : b.Agree R b' ∧ b.WellFormed)
    (hgo : (runPipeline cfg slots b).1 = false)
    (hclean : (runPipeline cfg slots b).2.hasErrors = false) :
    (runPipeline cfg' slots b').1 = (runPipeline cfg slots b).1 ∧
      (runPipeline cfg slots b).2.Agree R (runPipeline cfg' slots b').2 ∧
      (runPipeline cfg slots b).2.units.WellFormed := by
  induction slots generalizing b b' with
  | nil => exact ⟨rfl, hb⟩
  | cons slot slots ih =>
    have hslot := h slot mem_cons_self
    have hrest : ∀ s ∈ slots, s.phase.Tolerant cfg cfg' R :=
      fun s hs => h s (mem_cons_of_mem _ hs)
    have hsame := hslot.same _ _ hb.1.program
    have hbound : queueBound cfg' b' = queueBound cfg b := by
      unfold queueBound
      rw [hsame.order, hsame.units.length_eq, hresolver, hb.1.tree]
    have hcons := runPipeline_cons (hstop slot mem_cons_self) hgo
    rw [hcons] at hgo hclean
    -- without errors at the end, there are none on the way
    have hphase := hslot.abreast.runPhase hb
      ((grows_runPipeline_of_standard cfg (fun s hs => (hrest s hs).standard) _).noErrors hclean)
      (.inl hbound)
    exact runPipeline_cons_abreast (fun b b' _ => hslot.abreast.told b b' _ _ rfl) hsame.hasErrors
      (fun _ => hb) (fun _ => hphase) fun _ =>
        ih hrest (fun s hs => hstop s (mem_cons_of_mem _ hs)) hphase.2 hgo hclean

end Step

/-! ### The parse -/

section Phases

variable {b' b : Build} {u' u : SourceUnit} {inlined : Bool} {e : Expr} {unit : UnitId}
  {node : Node} {cfg cfg' : Settings} {s s' : Switches} {t : Table}

theorem declareNodes_eases (h : cfg.Eases cfg') (tree : FileTree) (parent : Resource)
    (nodes : SyntaxTree) (d : Declaring) :
    declareNodes cfg' tree parent nodes d = declareNodes cfg tree parent nodes d := by
  have hfollow : ∀ (d : Declaring) node path, d.follow cfg' tree parent node path =
      d.follow cfg tree parent node path := by
    intro d node path
    unfold Declaring.follow
    rw [h.switches.includes, h.resolver]
  have hnode : ∀ d node, declareNode cfg' tree parent d node =
      declareNode cfg tree parent d node := by
    intro d node
    unfold declareNode
    simp only [hfollow]
  induction nodes generalizing d with
  | nil => rfl
  | cons node nodes ih =>
    rw [declareNodes, declareNodes, hnode]
    simp only [ih]

theorem declareUnit_agree (h : cfg.Eases cfg') (hb : b.Agree Eq b') (u : SourceUnit)
    (parsed : SyntaxTree × List Marker) :
    (declareUnit cfg' u parsed b').1 = (declareUnit cfg u parsed b).1 ∧
      (declareUnit cfg u parsed b).2.program = (declareUnit cfg' u parsed b').2.program ∧
      (declareUnit cfg' u parsed b').2.tree = (declareUnit cfg u parsed b).2.tree ∧
      (declareUnit cfg' u parsed b').2.poisoned =
        (declareUnit cfg u parsed b).2.poisoned := by
  obtain ⟨program', tree', poisoned', notices'⟩ := b'
  obtain rfl : b.program = program' := hb.program
  obtain rfl : tree' = b.tree := hb.tree
  obtain rfl : poisoned' = b.poisoned := hb.poisoned
  unfold declareUnit
  simp only [declareNodes_eases h, Build.mark, Build.say, Build.sayAll]
  split <;> exact ⟨rfl, rfl, rfl, rfl⟩

theorem clean_of_parseUnit (hu : b.get? u.id = some u)
    (hclean : (parseUnit cfg u b).2.hasErrors = false) :
    ∃ text, u.resource.readText b.tree = .ok text ∧
      ∀ m ∈ (parseSource cfg.switches text).2, m.isError = false := by
  obtain ⟨-, -, ⟨e, -, heq⟩ | ⟨text, nodes, d, htext, hd, heq⟩⟩ := parseUnit_cases cfg u b
  · have hmarked := Program.hasErrors_mark hu (m := .error e.message) rfl
    rw [heq, hmarked] at hclean
    cases hclean
  · refine ⟨text, htext, ?_⟩
    have htree := Program.grows_modifyUnit d.program u.id (SourceUnit.grows_withTree nodes)
    have hmarked := hd.extends.grows.noErrors (htree.noErrors (heq ▸ hclean))
    exact Program.noErrors_of_mark hu hmarked

theorem Build.Agree.unit_eq (hb : b.Agree Eq b') {i : UnitId} (hu : b.get? i = some u)
    (hu' : b'.get? i = some u') : u' = u := by
  rw [← hb.program, hu] at hu'
  exact (Option.some.inj hu').symm

/-- **The parse.** A source that is read without errors is read alike. -/
theorem parsePhase_tolerant (h : cfg.Eases cfg') :
    parsePhase.Tolerant cfg cfg' Eq where
  standard := by simp [Pipeline.standard]
  same p p' heq := heq ▸ Program.SameButLines.refl p
  run b b' u u' hb hu hu' _ hok hclean := by
    obtain rfl := hb.unit_eq hu hu'
    obtain ⟨text, htext, hsource⟩ := clean_of_parseUnit hu hclean
    have heq : parsePhase.run cfg u' b =
        declareUnit cfg u' (parseSource cfg.switches text) b := by
      show parseUnit cfg u' b = _
      unfold parseUnit
      rw [htext]
    have heq' : parsePhase.run cfg' u' b' =
        declareUnit cfg' u' (parseSource cfg.switches text) b' := by
      show parseUnit cfg' u' b' = _
      unfold parseUnit
      rw [hb.tree, htext]
      simp only [parseSource_eases h.switches hsource]
    rw [heq] at hok ⊢
    rw [heq']
    obtain ⟨houtcome, hrest⟩ := declareUnit_agree h hb u' (parseSource cfg.switches text)
    exact ⟨houtcome.trans hok, hrest⟩

/-! ### The phases between the parse and the emission -/

theorem tolerant_of_run {phase : Phase} (hphase : phase ∈ Pipeline.standard.map Slot.phase)
    (hrun : ∀ (b : Build) (u : SourceUnit) notices, b.get? u.id = some u →
      (phase.run cfg u b).1 = .ok () → (phase.run cfg u b).2.hasErrors = false →
      (phase.run cfg' u { b with notices }).1 = (phase.run cfg u b).1 ∧
        (phase.run cfg u b).2.program = (phase.run cfg' u { b with notices }).2.program ∧
        (phase.run cfg' u { b with notices }).2.tree = (phase.run cfg u b).2.tree ∧
        (phase.run cfg' u { b with notices }).2.poisoned =
          (phase.run cfg u b).2.poisoned) :
    phase.Tolerant cfg cfg' Eq where
  standard := hphase
  same p p' heq := heq ▸ Program.SameButLines.refl p
  run b b' u u' hb hu hu' _ hok hclean := by
    obtain rfl := hb.unit_eq hu hu'
    obtain ⟨program', tree', poisoned', notices'⟩ := b'
    obtain rfl : b.program = program' := hb.program
    obtain rfl : tree' = b.tree := hb.tree
    obtain rfl : poisoned' = b.poisoned := hb.poisoned
    obtain ⟨houtcome, hrest⟩ := hrun b u' notices' hu hok hclean
    exact ⟨houtcome.trans hok, hrest⟩

theorem referencePhase_tolerant : referencePhase.Tolerant cfg cfg' Eq := by
  refine tolerant_of_run (by simp [Pipeline.standard]) fun b u notices _ _ _ => ?_
  simp only [referencePhase, checkCycles, withTree, Build.sayAll, Build.mark]
  generalize CycleSearch.checkUnit b.symbols b.poisoned u.id = search
  rcases markOwners { b.program with symbols := search.table } search.markers with ⟨outcome, p⟩
  cases outcome with
  | error e => exact ⟨rfl, rfl, rfl, rfl⟩
  | ok _ => cases u.tree <;> exact ⟨rfl, rfl, rfl, rfl⟩

theorem layoutPhase_tolerant (h : cfg.Eases cfg') :
    layoutPhase.Tolerant cfg cfg' Eq := by
  refine tolerant_of_run (by simp [Pipeline.standard]) fun b u notices _ _ _ => ?_
  simp only [layoutPhase, withTree, layUnit, h.switches.inlining, Build.say, Build.sayAll]
  split <;> exact ⟨rfl, rfl, rfl, rfl⟩

theorem foldingPhase_tolerant : foldingPhase.Tolerant cfg cfg' Eq := by
  refine tolerant_of_run (by simp [Pipeline.standard]) fun b u notices _ _ _ => ?_
  simp only [foldingPhase, withTree, Build.sayAll, Build.modifyUnit]
  split <;> exact ⟨rfl, rfl, rfl, rfl⟩

/-- A value without a problem has none under lenient switches; only the problem that a value does
not fit is put in milder words. -/
theorem valueProblem?_eases (h : s.Eases s') {value : Option Int64}
    (hclean : ∀ m ∈ valueProblem? s inlined e value, m.isError = false) :
    valueProblem? s' inlined e value = valueProblem? s inlined e value := by
  cases value with
  | none => rfl
  | some v =>
    by_cases hfits : fitsWord v = true
    · simp only [valueProblem?, hfits, Bool.not_true, Bool.false_eq_true, if_false]
    · by_cases hrelaxed : s.has .relaxedValidation = true
      · simp only [valueProblem?, hrelaxed, h.validation hrelaxed]
      · simp [valueProblem?, hfits, hrelaxed, Marker.error, Marker.isError] at hclean

theorem exprProblems_eases (h : s.Eases s') {v : Viewpoint}
    (hclean : ∀ m ∈ exprProblems s t v inlined e, m.isError = false) :
    exprProblems s' t v inlined e = exprProblems s t v inlined e := by
  unfold exprProblems at hclean ⊢
  have hvalue : valueProblem? s' inlined e (t.eval v e) = valueProblem? s inlined e (t.eval v e) :=
    valueProblem?_eases h fun m hm => hclean m
      (mem_append_left _ (Option.mem_toList.mpr hm))
  rw [hvalue, h.relocation]

theorem validateNode_eases (h : s.Eases s')
    (hclean : ∀ m ∈ validateNode s t unit node, m.isError = false) :
    validateNode s' t unit node = validateNode s t unit node := by
  unfold validateNode
  congr 1
  refine flatMap_congr fun e he => exprProblems_eases h fun m hm => ?_
  have hmarker : (m.located node.location).on node.id ∈ validateNode s t unit node :=
    mem_map_of_mem (mem_flatMap.mpr ⟨e, he, hm⟩)
  have hnone := hclean _ hmarker
  exact hnone

/-- **The validation.** Where it finds no errors, lenience makes no difference. -/
theorem validationPhase_tolerant (h : cfg.Eases cfg') :
    validationPhase.Tolerant cfg cfg' Eq := by
  refine tolerant_of_run (by simp [Pipeline.standard]) fun b u notices hu hok hclean => ?_
  cases htree : u.tree with
  | none =>
    obtain ⟨e, hrun⟩ := (validationPhase_treewise cfg).treeless u htree
    rw [hrun] at hok
    cases hok
  | some nodes =>
    have hrun : ∀ (cfg : Settings) (c : Build), validationPhase.run cfg u c = (.ok (),
        c.mark u.id (nodes.flatMap (validateNode cfg.switches c.symbols u.id))) := by
      intro cfg c
      simp only [validationPhase, withTree, htree]
    rw [hrun] at hclean
    rw [hrun, hrun]
    have hnone := Program.noErrors_of_mark hu hclean
    have hproblems : nodes.flatMap (validateNode cfg'.switches b.symbols u.id) =
        nodes.flatMap (validateNode cfg.switches b.symbols u.id) :=
      flatMap_congr fun node hnode => validateNode_eases h.switches fun m hm =>
        hnone m (mem_flatMap.mpr ⟨node, hnode, hm⟩)
    rw [hproblems]
    exact ⟨rfl, rfl, rfl, rfl⟩

/-! ### The emission -/

def Emission.SameButLines (m m' : Emission) : Prop :=
  m'.buffer = m.buffer ∧ m'.relocations = m.relocations

theorem emitNode_eases (h : s.Eases s') {m m' n : Emission} (hm : m.SameButLines m')
    (hemit : emitNode s t unit m node = .ok n) :
    ∃ n', emitNode s' t unit m' node = .ok n' ∧ n.SameButLines n' := by
  unfold emitNode at hemit ⊢
  split
  · rename_i haddress
    rw [haddress] at hemit
    cases hemit
    exact ⟨m', rfl, hm⟩
  · rename_i address haddress
    rw [haddress] at hemit
    simp only [bind, Except.bind, pure, Except.pure] at hemit ⊢
    split at hemit
    · cases hemit
    · rename_i result hwords
      cases result with
      | none =>
        cases hemit
        exact ⟨m', rfl, hm⟩
      | some words =>
        simp only [hm.1, hm.2, h.relocation] at hemit ⊢
        split at hemit
        · cases hemit
        · cases hemit
          exact ⟨_, rfl, rfl, rfl⟩

/-- **All nodes** make the same words. -/
theorem emitNodes_eases (h : s.Eases s') (huu : u.SameButLines u') {nodes : SyntaxTree}
    {n : Emission} (hemit : emitNodes s t u nodes = .ok n) :
    ∃ n', emitNodes s' t u' nodes = .ok n' ∧ n.SameButLines n' := by
  have hall : ∀ (m m' : Emission), m.SameButLines m' →
      nodes.foldlM (emitNode s t u.id) m = .ok n →
      ∃ n', nodes.foldlM (emitNode s' t u.id) m' = .ok n' ∧ n.SameButLines n' := by
    clear hemit
    induction nodes with
    | nil =>
      intro m m' hm hemit
      cases hemit
      exact ⟨m', rfl, hm⟩
    | cons node nodes ih =>
      intro m m' hm hemit
      rw [foldlM_cons] at hemit
      cases hfirst : emitNode s t u.id m node with
      | error e =>
        rw [hfirst] at hemit
        cases hemit
      | ok next =>
        rw [hfirst] at hemit
        obtain ⟨next', hfirst', hnext⟩ := emitNode_eases h hm hfirst
        obtain ⟨n', hrest, hn⟩ := ih next next' hnext hemit
        refine ⟨n', ?_, hn⟩
        rw [foldlM_cons, hfirst']
        exact hrest
  unfold emitNodes at hemit ⊢
  rw [huu.id, huu.start]
  exact hall _ _ ⟨rfl, rfl⟩ hemit

theorem SourceUnit.SameButLines.withEmission (h : u.SameButLines u') {m m' : Emission}
    (hm : m.SameButLines m') (code : ObjectCode) :
    (u.withEmission m code).SameButLines (u'.withEmission m' code) := by
  unfold SourceUnit.SameButLines SourceUnit.withEmission
  rw [hm.2]
  rw [h]

theorem emissionPhase_tolerant (h : cfg.Eases cfg')
    (hsink : cfg'.sink = cfg.sink) :
    emissionPhase.Tolerant cfg cfg' Program.SameButLines where
  standard := by simp [Pipeline.standard]
  same p p' hp := hp
  run b b' u u' hb hu hu' huu hok _ := by
    cases htree : u.tree with
    | none =>
      simp only [emissionPhase, withTree, htree] at hok
      cases hok
    | some nodes =>
      have htree' : u'.tree = some nodes := huu.tree.trans htree
      rw [emissionPhase_of_tree htree] at hok ⊢
      rw [emissionPhase_of_tree htree']
      unfold emitUnit at hok ⊢
      cases hemit : emitNodes cfg.switches b.symbols u nodes with
      | error e =>
        rw [hemit] at hok
        cases hok
      | ok m =>
        obtain ⟨m', hemit', hm⟩ := emitNodes_eases h.switches huu hemit
        rw [hemit] at hok
        rw [hb.program.symbols, hemit']
        simp only [bind, Except.bind, pure, Except.pure] at hok ⊢
        rw [hsink, hb.tree, huu.identifier, huu.id, hm.1]
        cases hclose : cfg.sink.close b.tree u.identifier u.id m.buffer with
        | error e =>
          rw [hclose] at hok
          cases hok
        | ok written =>
          exact ⟨rfl, hb.program.modifyUnit u.id fun v v' hv => hv.withEmission hm written.1, rfl,
            hb.poisoned⟩

/-! ### The whole compilation -/

theorem tolerant_ahead_of_emission (h : cfg.Eases cfg') :
    ∀ slot ∈ Pipeline.standard.take 5, slot.phase.Tolerant cfg cfg' Eq := by
  simp only [Pipeline.standard, take_succ_cons, take_zero, forall_mem_cons]
  exact ⟨parsePhase_tolerant h, referencePhase_tolerant, layoutPhase_tolerant h,
    foldingPhase_tolerant, validationPhase_tolerant h,
    fun slot hslot => absurd hslot not_mem_nil⟩

/-- **The emission comes last**: if the first side comes to its end without errors, both sides are
the same ahead of it. -/
theorem standard_ahead (h : cfg.Eases cfg') (hb : b.Agree Eq b')
    (hw : b.WellFormed) (hgo : (runPipeline cfg .standard b).1 = false)
    (hclean : (runPipeline cfg .standard b).2.hasErrors = false) :
    ∃ c c', c.Agree Eq c' ∧ c.WellFormed ∧
      c = (runPipeline cfg (Pipeline.standard.take 5) b).2 ∧
      runPipeline cfg .standard b =
        runPipeline cfg [{ phase := emissionPhase, abortOnError := true }] c ∧
      runPipeline cfg' .standard b' =
        runPipeline cfg' [{ phase := emissionPhase, abortOnError := true }] c' := by
  have hsplit : Pipeline.standard = Pipeline.standard.take 5 ++
      [{ phase := emissionPhase, abortOnError := true }] := rfl
  have hahead : ∀ slot ∈ Pipeline.standard.take 5, slot.stopAfter = false :=
    fun slot hslot => standard_goes_on slot (mem_of_mem_take hslot)
  rw [hsplit, runPipeline_append hahead] at hgo hclean ⊢
  rw [runPipeline_append hahead]
  by_cases hcut : (runPipeline cfg (Pipeline.standard.take 5) b).1 = true
  · rw [if_pos hcut] at hgo
    exact absurd (hgo.symm.trans hcut) Bool.false_ne_true
  · rw [if_neg hcut] at hgo hclean ⊢
    have hmiddle := (grows_runPipeline_of_standard cfg
      (fun slot hslot => by simp_all [Pipeline.standard]) _).noErrors hclean
    obtain ⟨hcut', hagree, hwell⟩ := runPipeline_agree (tolerant_ahead_of_emission h) hahead
      h.resolver ⟨hb, hw⟩ (Bool.eq_false_iff.mpr hcut) hmiddle
    rw [hcut', if_neg hcut]
    exact ⟨_, _, hagree, hwell, rfl, rfl, rfl⟩

/-- **All phases, on both sides**, if the first side comes to its end without errors. -/
theorem standard_agree (h : cfg.Eases cfg') (hsink : cfg'.sink = cfg.sink)
    (hb : b.Agree Eq b')
    (hw : b.WellFormed) (hgo : (runPipeline cfg .standard b).1 = false)
    (hclean : (runPipeline cfg .standard b).2.hasErrors = false) :
    (runPipeline cfg' .standard b').1 = false ∧
      (runPipeline cfg .standard b).2.Agree Program.SameButLines
        (runPipeline cfg' .standard b').2 := by
  obtain ⟨c, c', hagree, hwell, -, hlast, hlast'⟩ := standard_ahead h hb hw hgo hclean
  rw [hlast] at hgo hclean ⊢
  rw [hlast']
  have hstart : c.Agree Program.SameButLines c' :=
    ⟨hagree.program ▸ Program.SameButLines.refl _, hagree.tree, hagree.poisoned, hagree.heard⟩
  have hemission : ∀ slot ∈ [({ phase := emissionPhase, abortOnError := true } : Slot)],
      slot.phase.Tolerant cfg cfg' Program.SameButLines := by
    intro slot hslot
    rw [mem_singleton.mp hslot]
    exact emissionPhase_tolerant h hsink
  obtain ⟨hflag, hend, -⟩ := runPipeline_agree hemission
    (fun slot hslot => by rw [mem_singleton.mp hslot]) h.resolver ⟨hstart, hwell⟩ hgo hclean
  exact ⟨hflag.trans hgo, hend⟩

end Phases

/-- **Permissive switches do not change a good build.** If a compilation succeeds, it also
succeeds with relaxed parsing, relaxed validation, local labels, debug mode and debug information
switched on, or any of these. It comes to the same queue and the same symbols with their values,
and to the same units: the same statements, addresses, markers, object code and relocation tables.
Only the source lines that debug information notes may differ. The same files are written, and the
same is told. -/
theorem permissive_switches_keep_good_builds {cfg : Settings} {p : Program}
    (hw : p.WellFormed) (tree : FileTree) {extra : List Switch}
    (hextra : ∀ switch ∈ extra, switch ∈ Switch.permissive)
    (hgood : (compile cfg p tree).1 = true) :
    let r := compile cfg p tree
    let r' := compile { cfg with switches := extra.foldl Switches.set cfg.switches } p tree
    r'.1 = true ∧ r.2.program.SameButLines r'.2.program ∧ r'.2.tree = r.2.tree ∧
      events r'.2.notices = events r.2.notices := by
  intro r r'
  have heases : cfg.Eases
      { cfg with switches := extra.foldl Switches.set cfg.switches } :=
    ⟨cfg.switches.eases_foldl_set hextra, rfl⟩
  obtain ⟨hgo, hclean⟩ := compile_success.mp hgood
  have hstart : (opening p tree).Agree Eq (opening p tree) := ⟨rfl, rfl, rfl, rfl⟩
  obtain ⟨hgo', hagree⟩ := standard_agree heases rfl hstart (reset_wellFormed hw) hgo hclean
  have hr' : r'.1 = true := compile_success.mpr ⟨hgo', hagree.program.hasErrors.trans hclean⟩
  refine ⟨hr', hagree.program, hagree.tree, ?_⟩
  have hunits : r'.2.all.length = r.2.all.length :=
    hagree.program.units.length_eq.symm
  show Build.heard (Build.tell (Build.tell (runPipeline _ .standard (opening p tree)).2
    (if r'.1 then .success else .failure)) (.finish r'.2.all.length)) =
    Build.heard (Build.tell (Build.tell (runPipeline cfg .standard (opening p tree)).2
      (if r.1 then .success else .failure)) (.finish r.2.all.length))
  rw [Build.heard_tell, Build.heard_tell, Build.heard_tell, Build.heard_tell, hagree.heard, hr',
    hunits, show r.1 = true from hgood]

/-- With all permissive switches on, the source lines of two units are noted in addition. -/
theorem permissive_switches_keep_good_builds_call :
    let r := compile besideSources callMain callFiles
    let r' := compile { besideSources with
      switches := Switch.permissive.foldl Switches.set besideSources.switches } callMain callFiles
    (r.1 = true ∧ r.2.all.map SourceUnit.lines = [[], []] ∧
      r'.2.all.map SourceUnit.lines = [[(0, 1)], [(2, 0)]]) ∧
    r'.1 = true ∧ r.2.program.SameButLines r'.2.program ∧ r'.2.tree = r.2.tree ∧
      events r'.2.notices = events r.2.notices := by
  have hgood : (compile besideSources callMain callFiles).1 = true := by decide +kernel
  have hkept := permissive_switches_keep_good_builds (Program.wellFormed_ofResources _) callFiles
    (fun switch (hswitch : switch ∈ Switch.permissive) => hswitch) hgood
  refine ⟨⟨hgood, ?_, ?_⟩, hkept⟩
  · decide +kernel
  · decide +kernel

end WordAsm
