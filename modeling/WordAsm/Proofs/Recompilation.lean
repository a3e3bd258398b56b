/-
# Compiling again

A compilation starts from the sources and their order and from nothing else: whatever
earlier compilations and links have left in a program, the result is the same but for the
numbers of markers and stores (`SameResult`). Compiling the result once more gives it again,
although there are units in it now that the first compilation had to find: they are
untouched until the parse comes to them, and it comes to them in the same order.

Object code may go to files, and a file may be a source. If it is, the second compilation
reads what the first has written (`recompilation_may_differ`). So for the second one the
sources have to read alike before and after the first (`Units.ReadAlike`), which they do as
long as object code is kept in memory.

A phase ahead of the parse works on the units that are queued by then, and these are more the
second time. The standard phases come to nothing there: the first of them breaks down on every
unit, since there are no trees, and the others pass all of them over (`Program.Stuck`). Phases
of other kinds have to stand behind the parse, and must not look at numbers (`Phase.Blind`).
-/
import WordAsm.Proofs.Checkpoints
import WordAsm.Proofs.MirroredParse
import WordAsm.Proofs.ObjectFiles

namespace WordAsm

open List

variable {b b' : Build}

/-! ### Pipelines that do not begin with the parse -/

/-- No unit has a tree, and no symbol is defined. -/
structure Program.Unread (p : Program) : Prop where
  trees : p.Each fun u => u.tree = none
  stores : p.symbols.stores = []

/-- Every queued unit has errors, so no phase has anything to do. -/
def Program.Stuck (p : Program) : Prop :=
  ∀ id ∈ p.order, ∀ u, p.get? id = some u → u.hasErrors = true

section Stuck

variable {p : Program} {slot : Slot} {cfg : Settings} {f : StoreId → StoreId}

theorem Program.unread_reset (p : Program) : p.reset.Unread := by
  refine ⟨fun i u hu => ?_, rfl⟩
  obtain ⟨v, -, rfl⟩ := mem_map.mp (mem_of_getElem? hu)
  rfl

theorem Program.Unread.mark (h : p.Unread) (id : UnitId) (ms : List Marker) :
    (p.mark id ms).Unread := by
  refine ⟨h.trees.modifyUnit id fun u _ hu => ?_, h.stores⟩
  obtain ⟨added, next, heq, -⟩ := u.markAll_eq ms
  rw [heq]
  exact hu

theorem checkCycles_of_unread (h : b.Unread) (unit : UnitId) :
    (checkCycles unit b).1 = .ok () ∧ (checkCycles unit b).2.program = b.program := by
  have hsearch : CycleSearch.checkUnit b.symbols b.poisoned unit =
      { table := b.symbols, poisoned := b.poisoned } := by
    unfold CycleSearch.checkUnit Table.store?
    rw [h.stores]
    rfl
  unfold checkCycles
  rw [hsearch]
  exact ⟨rfl, rfl⟩

/-- **Behind the parse, every phase breaks down** on a unit without a tree. -/
theorem runUnit_of_unread (cfg : Settings) {phase : Phase}
    (hphase : phase ∈ Pipeline.standard.tail.map Slot.phase) (h : b.Unread) {u : SourceUnit}
    (hu : u.tree = none) :
    ∃ m : Marker, m.isError = true ∧
      (runUnit cfg phase u b).program = b.program.mark u.id [m] := by
  have hrun : ∃ e c, phase.run cfg u b = (.error e, c) ∧ c.program = b.program := by
    rcases behind_parse_cases hphase with rfl | rfl | rfl | rfl | rfl
    · obtain ⟨hok, hprogram⟩ := checkCycles_of_unread h u.id
      rcases hc : checkCycles u.id b with ⟨outcome, c⟩
      rw [hc] at hok hprogram
      cases hok
      simp only [referencePhase, hc, withTree, hu]
      exact ⟨_, _, rfl, hprogram⟩
    · obtain ⟨e, he⟩ := (layoutPhase_treewise cfg).treeless u hu
      exact ⟨e, b, he b, rfl⟩
    · obtain ⟨e, he⟩ := (foldingPhase_treewise cfg).treeless u hu
      exact ⟨e, b, he b, rfl⟩
    · obtain ⟨e, he⟩ := (validationPhase_treewise cfg).treeless u hu
      exact ⟨e, b, he b, rfl⟩
    · obtain ⟨e, he⟩ := emissionPhase_treeless cfg hu
      exact ⟨e, b, he b, rfl⟩
  obtain ⟨e, c, heq, hc⟩ := hrun
  rw [runUnit_of_error heq, ← hc]
  exact ⟨_, rfl, rfl⟩

/-- **The first phase leaves every unit with errors**, unless it is cut short. -/
theorem stuck_of_unread (hphase : slot.phase ∈ Pipeline.standard.tail.map Slot.phase)
    (haccepts : ∀ u, slot.phase.accepts u = !u.hasErrors) (h : b.Unread)
    (hw : b.WellFormed) :
    (runPhase cfg slot b).2.Stuck ∨
      (runPhase cfg slot b).1 = true ∧ slot.abortOnError = true := by
  obtain ⟨n, ⟨-, -, horder, herrors⟩, hend⟩ := runUnits_induct cfg slot
    (I := fun k c => c.WellFormed ∧ c.Unread ∧
      c.order = b.order ∧ ∀ id ∈ c.order.take k, ∀ u,
        c.get? id = some u → u.hasErrors = true)
    (fun _ _ _ hp => hp) (fun _ _ hp => hp.1)
    (fun k c id u hid hu hskip hp => by
      refine ⟨hp.1, hp.2.1, hp.2.2.1, fun i hi v hv => ?_⟩
      by_cases hne : i = id
      · obtain rfl : u = v := Option.some.inj (hu.symm.trans (hne ▸ hv))
        simpa [haccepts] using hskip
      · exact hp.2.2.2 i (mem_take_of_mem_take_succ hid hi hne) v hv)
    (fun k c id u hid hu _ hp => by
      obtain rfl := hp.1.numbered id u hu
      obtain ⟨m, hm, heq⟩ := runUnit_of_unread cfg hphase hp.2.1 (hp.2.1.trees _ u hu)
      rw [heq]
      have hg := Program.grows_mark c.program u.id [m]
      refine ⟨hg.wellFormed hp.1, hp.2.1.mark u.id [m], hp.2.2.1, fun i hi v hv => ?_⟩
      rcases Program.get?_modifyUnit_cases hv with ⟨rfl, w, -, rfl⟩ | ⟨hne, hv⟩
      · simp [SourceUnit.hasErrors_markAll, hm]
      · exact hp.2.2.2 i (mem_take_of_mem_take_succ hid hi hne) v hv)
    (queueBound cfg b) 0 false (b.tell (.phaseStart slot.name))
    ⟨hw, h, rfl, fun id hid => by simp at hid⟩
  rcases hend with hlast | hlast | habort
  · refine .inl fun id hid => herrors id ?_
    rwa [take_of_length_le hlast]
  · refine .inl fun id hid => herrors id ?_
    rw [take_of_length_le]
    · exact hid
    · rw [hlast, horder, Nat.zero_add]
      unfold queueBound
      omega
  · exact .inr habort

theorem Program.Stuck.mirrors {p' : Program} (h : p.Stuck) (hp : p.Mirrors f p') : p'.Stuck := by
  intro id hid u' hu'
  cases hu : p.get? id with
  | none =>
    rw [rel_none (hp.get? id) hu] at hu'
    cases hu'
  | some u =>
    obtain ⟨v, hv, huv⟩ := rel_some (hp.get? id) hu
    obtain rfl := Option.mem_unique hv hu'
    rw [huv.hasErrors]
    exact h id (hp.order ▸ hid) u hu

theorem runUnits_of_stuck (cfg : Settings)
    (haccepts : ∀ u, slot.phase.accepts u = !u.hasErrors) (steps k : ℕ) (h : b.Stuck) :
    ∃ notices, runUnits cfg slot steps k false b = (false, { b with notices }) := by
  induction steps generalizing k b with
  | zero => exact ⟨b.notices, rfl⟩
  | succ steps ih =>
    rcases runUnits_cases cfg slot k b with ⟨-, hstep⟩ | ⟨fails, c, hturn, hstep⟩
    · exact ⟨b.notices, hstep _ _⟩
    rw [hstep]
    cases hturn with
    | unknown => exact ih (k + 1) h
    | skipped => exact ih (k + 1) (b := b.tell _) h
    | taken hid hu ha =>
      rw [haccepts, h _ (mem_of_getElem? hid) _ hu] at ha
      cases ha

theorem runPhase_of_stuck (cfg : Settings)
    (haccepts : ∀ u, slot.phase.accepts u = !u.hasErrors) (h : b.Stuck) :
    ∃ notices, runPhase cfg slot b = (false, { b with notices }) := by
  obtain ⟨notices, heq⟩ := runUnits_of_stuck cfg haccepts (queueBound cfg b) 0
    (b := b.tell (.phaseStart slot.name)) h
  unfold runPhase
  rw [heq]
  exact ⟨_, rfl⟩

def Pipeline.cutShort (errors : Bool) : Pipeline → Bool
  | [] => false
  | slot :: slots =>
    slot.abortOnError && errors || !slot.stopAfter && Pipeline.cutShort errors slots

/-- **A pipeline that is stuck** passes all units over. -/
theorem runPipeline_of_stuck (cfg : Settings) {slots : Pipeline}
    (haccepts : ∀ slot ∈ slots, ∀ u, slot.phase.accepts u = !u.hasErrors) (h : b.Stuck) :
    ∃ notices, runPipeline cfg slots b =
      (Pipeline.cutShort b.hasErrors slots, { b with notices }) := by
  induction slots generalizing b with
  | nil => exact ⟨b.notices, rfl⟩
  | cons slot slots ih =>
    obtain ⟨notices, heq⟩ :=
      runPhase_of_stuck cfg (haccepts slot mem_cons_self) h
    rw [runPipeline, heq, Pipeline.cutShort]
    split
    · rename_i habort
      exact ⟨_, by rw [habort]; rfl⟩
    · rename_i habort
      simp only [Bool.false_and, Bool.false_eq_true, if_false]
      rw [Bool.eq_false_iff.mpr habort, Bool.false_or]
      split
      · rename_i hstop
        exact ⟨_, by rw [hstop]; rfl⟩
      · rename_i hstop
        rw [Bool.eq_false_iff.mpr hstop, Bool.not_false, Bool.true_and]
        exact ih (fun s hs => haccepts s (mem_cons_of_mem _ hs)) (b := { b with notices }) h

end Stuck

/-! ### Compilations side by side -/

/-- A phase that does the same whatever the numbers of stores and markers are, and queues
no units. -/
def Phase.Blind (phase : Phase) (cfg : Settings) : Prop :=
  ∀ (f : StoreId → StoreId) (K : FileTree → FileTree → Prop), Function.Injective f →
    cfg.sink.Respects K → phase.Mirrored cfg f K

/-- A pipeline of phases under names of their own: the six standard ones in any order, or the
parse ahead of any others that are blind to numbers. -/
structure Pipeline.Regular (cfg : Settings) (pipeline : Pipeline) : Prop where
  names : pipeline.names.Nodup
  phases : ∀ slot ∈ pipeline, slot.phase ∈ Pipeline.standard.map Slot.phase ∨
    slot.phase.Blind cfg
  first : (∀ slot ∈ pipeline, slot.phase ∈ Pipeline.standard.map Slot.phase) ∨
    pipeline.head?.map Slot.phase = some parsePhase

section Pipelines

variable {phase : Phase} {pipeline slots : Pipeline} {s slot : Slot} {cfg : Settings}

theorem accepts_of_standard (h : phase ∈ Pipeline.standard.map Slot.phase) (u : SourceUnit) :
    phase.accepts u = !u.hasErrors := by
  rcases (mem_cons.mp h).imp_right behind_parse_cases with
    rfl | rfl | rfl | rfl | rfl | rfl <;> rfl

theorem Pipeline.Regular.blind (h : pipeline.Regular cfg) (hslot : slot ∈ pipeline)
    (hne : slot.phase ≠ parsePhase) : slot.phase.Blind cfg := by
  rcases h.phases slot hslot with hstandard | hblind
  · exact fun f K hf hsink => mirrored_of_standard hf hsink ((mem_cons.mp hstandard).resolve_left hne)
  · exact hblind

theorem Pipeline.Regular.behind_parse (h : Pipeline.Regular cfg (slot :: slots))
    (hslot : slot.phase = parsePhase) (hs : s ∈ slots) : s.phase.Blind cfg := by
  refine h.blind (mem_cons_of_mem _ hs) fun hparse => ?_
  refine (nodup_cons.mp h.names).1 (mem_map.mpr ⟨s, hs, ?_⟩)
  unfold Slot.name
  rw [hparse, hslot]

theorem Pipeline.Regular.standard (h : Pipeline.Regular cfg (slot :: slots))
    (hslot : slot.phase ≠ parsePhase) (hs : s ∈ slot :: slots) :
    s.phase ∈ Pipeline.standard.map Slot.phase := by
  rcases h.first with hall | hparse
  · exact hall s hs
  · exact absurd (Option.some.inj hparse) hslot

theorem Pipeline.Regular.grows (h : pipeline.Regular cfg) (hslot : slot ∈ pipeline)
    (u : SourceUnit) (b : Build) : b.program.Grows (runUnit cfg slot.phase u b).program := by
  refine grows_runUnit ?_
  by_cases hparse : slot.phase = parsePhase
  · rw [hparse]
    exact (parsePhase_quiet cfg).grows u b
  · exact (h.blind hslot hparse id (fun _ _ => False) Function.injective_id
      fun _ _ _ _ _ hfalse => hfalse.elim).grows u b

end Pipelines

section Runs

variable {cfg : Settings} {f : StoreId → StoreId} {K : FileTree → FileTree → Prop}
  {pipeline slots : Pipeline} {slot : Slot}

theorem runPipeline_sameSources_of_first (hgo : ¬ (slot.abortOnError && b.hasErrors) = true)
    {us : Units} (hfirst : us.SameSources (runPhase cfg slot b).2.units)
    (hrest : ¬ ((runPhase cfg slot b).1 && slot.abortOnError) = true → us.SameSources
      (runPipeline cfg slots (runPhase cfg slot b).2).2.units) :
    us.SameSources (runPipeline cfg (slot :: slots) b).2.units := by
  rw [runPipeline, if_neg hgo]
  simp only
  split
  · exact hfirst
  · split
    · exact hfirst
    · exact hrest ‹_›

/-- Two builds that a pipeline is to run on: nothing has been done with their units yet, and
the second may have more of them. -/
structure Build.Poised (f : StoreId → StoreId) (K : FileTree → FileTree → Prop) (b b' : Build) :
    Prop where
  program : b.program.Ahead f b'.program
  unread : b.Unread
  fit : b.program.Fit
  fit' : b'.program.Fit
  files : K b.tree b'.tree
  poisoned : b'.poisoned = b.poisoned.map (SymbolId.renumber f)

section Injective

variable (hf : Function.Injective f) (hnext : ∀ n, f (n + 1) = f n + 1)
  (hsink : cfg.sink.Respects K)

include hf hsink

/-- The pipeline begins with another phase. Nothing is parsed before it, so it leaves the
pipeline stuck. -/
theorem runPipeline_ahead_of_unparsed (hregular : Pipeline.Regular cfg (slot :: slots))
    (hparse : slot.phase ≠ parsePhase) (h : b.Poised f K b')
    (hgo : ¬ (slot.abortOnError && b.hasErrors) = true)
    (hF : b'.units.Within (runPipeline cfg (slot :: slots) b).2.units) :
    InStep (Build.Mirrors f K) (runPipeline cfg (slot :: slots) b)
      (runPipeline cfg (slot :: slots) b') := by
  have haccepts : ∀ s ∈ slot :: slots, ∀ u, s.phase.accepts u = !u.hasErrors := fun s hs =>
    accepts_of_standard (hregular.standard hparse hs)
  have haccepts' := fun s hs => haccepts s (mem_cons_of_mem slot hs)
  have htail := (mem_cons.mp (hregular.standard hparse mem_cons_self)).resolve_left hparse
  have hmirrored : slot.phase.Mirrored cfg f K := mirrored_of_standard hf hsink htail
  have hstuck : ¬ ((runPhase cfg slot b).1 && slot.abortOnError) = true →
      (runPhase cfg slot b).2.Stuck := fun hcut =>
    (stuck_of_unread htail (haccepts slot mem_cons_self) h.unread
      h.fit.wellFormed).resolve_right fun hboth => hcut (by rw [hboth.1, hboth.2]; rfl)
  have hphase := runPhase_sameSources (hmirrored.settled _)
    (Units.SameSources.refl b.units)
  have hsame := runPipeline_sameSources_of_first hgo hphase fun hcut => by
    obtain ⟨notices, heq⟩ := runPipeline_of_stuck cfg haccepts' (hstuck hcut)
    rw [heq]
    exact hphase
  obtain ⟨hflag, hfirst⟩ := runPhase_mirrors hmirrored
    ⟨h.program.mirrors (hF.trans hsame.symm.within), h.files, h.poisoned⟩
  refine runPipeline_cons_abreast (fun _ _ _ hb => ⟨hb.program, hb.files, hb.poisoned⟩)
    h.program.hasErrors (absurd · hgo) (fun _ => ⟨hflag, hfirst⟩) fun hcut => ?_
  obtain ⟨notices, heq⟩ := runPipeline_of_stuck cfg haccepts' (hstuck hcut)
  obtain ⟨notices', heq'⟩ := runPipeline_of_stuck cfg haccepts'
    ((hstuck hcut).mirrors hfirst.program)
  rw [heq, heq', hfirst.program.hasErrors]
  exact ⟨rfl, hfirst.program, hfirst.files, hfirst.poisoned⟩

include hnext

theorem runPipeline_ahead_of_parse (hregular : Pipeline.Regular cfg (slot :: slots))
    (hparse : slot.phase = parsePhase) (h : b.Poised f K b')
    (hgo : ¬ (slot.abortOnError && b.hasErrors) = true)
    (hF : b'.units.Within (runPipeline cfg (slot :: slots) b).2.units)
    (hread : (runPipeline cfg (slot :: slots) b).2.units.ReadAlike cfg
      b.tree b'.tree) :
    InStep (Build.Mirrors f K) (runPipeline cfg (slot :: slots) b)
      (runPipeline cfg (slot :: slots) b') := by
  have hmirrored : ∀ s ∈ slots, s.phase.Mirrored cfg f K := fun s hs =>
    hregular.behind_parse hparse hs f K hf hsink
  -- no phase behind the parse adds to what it ends with
  have hsame := runPipeline_sameSources_of_first hgo (Units.SameSources.refl _) fun _ =>
    runPipeline_sameSources (fun s hs => (hmirrored s hs).settled _) (Units.SameSources.refl _)
  obtain ⟨hflag, hlevel⟩ := runPhase_parse_mirrors hf hnext hparse (hread.of_within hsame.within)
    ⟨h.program, hF.trans hsame.symm.within, h.fit, h.fit', rfl, rfl, h.poisoned⟩
  have hfirst : (runPhase cfg slot b).2.Mirrors f K (runPhase cfg slot b').2 :=
    ⟨hlevel.program, by rw [hlevel.files.1, hlevel.files.2]; exact h.files, hlevel.poisoned⟩
  exact runPipeline_cons_abreast (fun _ _ _ hb => ⟨hb.program, hb.files, hb.poisoned⟩)
    h.program.hasErrors (absurd · hgo) (fun _ => ⟨hflag, hfirst⟩)
    fun _ => runPipeline_mirrors hmirrored hfirst

/-- **A pipeline on both sides.** If the first ends with the units that the second has, the
two do the same. -/
theorem runPipeline_ahead (hregular : pipeline.Regular cfg) (h : b.Poised f K b')
    (hF : b'.units.Within (runPipeline cfg pipeline b).2.units)
    (hread : (runPipeline cfg pipeline b).2.units.ReadAlike cfg b.tree b'.tree) :
    InStep (Build.Mirrors f K) (runPipeline cfg pipeline b)
      (runPipeline cfg pipeline b') := by
  cases pipeline with
  | nil => exact ⟨rfl, h.program.mirrors hF, h.files, h.poisoned⟩
  | cons slot slots =>
    by_cases hgo : (slot.abortOnError && b.hasErrors) = true
    · have hskipped : ∀ c : Build, c.hasErrors = b.hasErrors →
          runPipeline cfg (slot :: slots) c =
            (true, (c.say .debug s!"Not running {slot.name}: program has errors").tell
              (.phaseSkipped slot.name)) := fun c hc => by rw [runPipeline, hc, if_pos hgo]
      rw [hskipped b rfl] at hF
      rw [hskipped b rfl, hskipped b' h.program.hasErrors]
      exact ⟨rfl, h.program.mirrors hF, h.files, h.poisoned⟩
    by_cases hparse : slot.phase = parsePhase
    · exact runPipeline_ahead_of_parse hf hnext hsink hregular hparse h hgo hF hread
    · exact runPipeline_ahead_of_unparsed hf hsink hregular hparse h hgo hF

/-- **Two compilations side by side.** The second program has the units of the first, and
perhaps units more that the first compilation ends with. -/
theorem compile_mirrors (hregular : pipeline.Regular cfg) {p p' : Program}
    {tree tree' : FileTree} (hw : p.WellFormed) (hw' : p'.WellFormed)
    (hsupply : p'.symbols.supply = f p.symbols.supply) (hfiles : K tree tree')
    (hp : p.units.Within p'.units)
    (hF : p'.units.Within (compile cfg p tree pipeline).2.units)
    (hread : (compile cfg p tree pipeline).2.units.ReadAlike cfg tree tree') :
    InStep (Build.Mirrors f K) (compile cfg p tree pipeline)
      (compile cfg p' tree' pipeline) := by
  have hfit : ∀ {q : Program}, q.WellFormed → q.reset.Fit := fun hq =>
    ⟨reset_wellFormed hq, fun s hs => absurd hs not_mem_nil⟩
  have hstart : (opening p tree).Poised f K (opening p' tree') :=
    ⟨ahead_reset hp hsupply, p.unread_reset, hfit hw, hfit hw', hfiles, rfl⟩
  obtain ⟨hflag, hend⟩ := runPipeline_ahead hf hnext hsink hregular hstart
    (p'.sameSources_reset.symm.within.trans hF) hread
  refine ⟨?_, hend.program, hend.files, hend.poisoned⟩
  show (!(runPipeline cfg pipeline (opening p' tree')).1 &&
      !(runPipeline cfg pipeline (opening p' tree')).2.hasErrors) =
    (!(runPipeline cfg pipeline (opening p tree)).1 &&
      !(runPipeline cfg pipeline (opening p tree)).2.hasErrors)
  rw [hflag, hend.program.hasErrors]

end Injective

theorem compile_grows (hregular : pipeline.Regular cfg) (p : Program) (tree : FileTree) :
    p.reset.Grows (compile cfg p tree pipeline).2.program :=
  runPipeline_keeps (b := opening p tree) (I := fun q => p.reset.Grows q)
    (fun _ hslot _ u c _ _ hc => hc.trans (hregular.grows hslot u c))
    (Program.Grows.refl _)

end Runs

/-! ### Results -/

/-- The same program but for the numbers of its stores and its markers: both are one
program, whose stores have been numbered in two ways. -/
def Program.SameButNumbers (p p' : Program) : Prop :=
  ∃ (q : Program) (f f' : StoreId → StoreId), Function.Injective f ∧ Function.Injective f' ∧
    q.Mirrors f p ∧ q.Mirrors f' p'

/-- The same result of a compilation: success and failure, the program, the values of all
expressions, and the files. -/
structure SameResult (r r' : Bool × Build) : Prop where
  success : r'.1 = r.1
  program : r.2.program.SameButNumbers r'.2.program
  values : ∀ (unit : UnitId) (current : Option Address) (labels : Bool) (e : Expr),
    r'.2.symbols.eval { unit, current, labels } e =
      r.2.symbols.eval { unit, current, labels } e
  files : r'.2.tree = r.2.tree

theorem Program.SameButNumbers.eval {p p' : Program} (h : p.SameButNumbers p') (unit : UnitId)
    (current : Option Address) (labels : Bool) (e : Expr) :
    p'.symbols.eval { unit, current, labels } e = p.symbols.eval { unit, current, labels } e := by
  obtain ⟨q, f, f', hf, hf', hp, hp'⟩ := h
  rw [hp.symbols, hp'.symbols]
  have hvalue := q.symbols.eval_renumber hf { unit, current, labels } e
  have hvalue' := q.symbols.eval_renumber hf' { unit, current, labels } e
  exact hvalue'.trans hvalue.symm

section Results

variable {cfg : Settings} {pipeline : Pipeline} {p p' : Program} {tree tree' : FileTree}

theorem Program.Mirrors.sameSources {f : StoreId → StoreId} (h : p.Mirrors f p') :
    p.units.SameSources p'.units :=
  ⟨h.order, Program.Ahead.sources_front h.units⟩

/-- What a compilation gives from the sources of `p` in their order, whatever else there is
of `p`. The numbers of stores are counted from 0 for comparison. -/
theorem sameResult_of_within (hregular : pipeline.Regular cfg) (hw : p.WellFormed)
    (hw' : p'.WellFormed) (htarget : tree'.target? = tree.target?)
    (hp : p.units.Within p'.units)
    (hF : p'.units.Within (compile cfg p tree pipeline).2.units)
    (hread : (compile cfg p tree pipeline).2.units.ReadAlike cfg tree tree') :
    (compile cfg p' tree' pipeline).1 = (compile cfg p tree pipeline).1 ∧
      (compile cfg p tree pipeline).2.program.SameButNumbers
        (compile cfg p' tree' pipeline).2.program ∧
      FileTree.WrittenAlike tree tree' (compile cfg p tree pipeline).2.tree
        (compile cfg p' tree' pipeline).2.tree := by
  have hshift : ∀ d : ℕ, Function.Injective (fun n : StoreId => n + d) ∧
      ∀ n, n + 1 + d = n + d + 1 := fun d =>
    ⟨fun _ _ h => Nat.add_right_cancel h, fun n => Nat.add_right_comm n 1 d⟩
  let q : Program := { p with symbols := { p.symbols with supply := 0 } }
  have hfirst := compile_mirrors (hshift p.symbols.supply).1 (hshift p.symbols.supply).2
    (cfg.sink.respects_writes rfl) hregular (p := q) hw hw (Nat.zero_add _).symm
    ⟨[], rfl, rfl⟩ (Units.Within.refl _)
    (q.sameSources_reset.within.trans (compile_grows hregular q tree).within)
    (Units.ReadAlike.refl cfg tree _)
  have hsame := hfirst.2.program.sameSources
  have hsecond := compile_mirrors (hshift p'.symbols.supply).1 (hshift p'.symbols.supply).2
    (cfg.sink.respects_writes htarget) hregular (p := q) hw hw'
    (Nat.zero_add _).symm ⟨[], rfl, rfl⟩ hp (hF.trans hsame.symm.within)
    (hread.of_within hsame.within)
  refine ⟨hsecond.1.trans hfirst.1.symm, ⟨_, _, _, (hshift _).1, (hshift _).1,
    hfirst.2.program, hsecond.2.program⟩, ?_⟩
  obtain ⟨ws, hws, hws'⟩ := hfirst.2.files
  obtain ⟨vs, hvs, hvs'⟩ := hsecond.2.files
  exact ⟨vs, hvs.trans (hws.symm.trans hws'), hvs'⟩

theorem compile_files_of_memory (hregular : pipeline.Regular cfg) (hw : p.WellFormed)
    (hsink : cfg.sink = .memory) : (compile cfg p tree pipeline).2.tree = tree := by
  have hrespects : cfg.sink.Respects (fun t _ => t = tree) := by
    rintro t t' identifier id buffer rfl
    rw [hsink]
    exact .inr ⟨_, _, _, rfl, rfl, rfl⟩
  exact (compile_mirrors (f := id) Function.injective_id (fun _ => rfl) hrespects hregular hw hw rfl
    rfl (Units.Within.refl _)
    (p.sameSources_reset.within.trans (compile_grows hregular p tree).within)
    (Units.ReadAlike.refl cfg tree _)).2.files

/-- **A compilation does not depend on earlier ones.** Programs of the same sources in the
same order give the same result, whatever else there is of them. The program that a
compilation leaves gives the same result again, among the files that there were before it;
and also among the files that it leaves, if the sources read alike among them. They do if
object code is kept in memory, as no file changes then. -/
theorem recompilation_gives_same_result (hregular : pipeline.Regular cfg)
    (hw : p.WellFormed) (tree : FileTree) :
    let r := compile cfg p tree pipeline
    (∀ p' : Program, p.units.SameSources p'.units →
        SameResult r (compile cfg p' tree pipeline)) ∧
      SameResult r (compile cfg r.2.program tree pipeline) ∧
      (r.2.units.ReadAlike cfg tree r.2.tree →
        SameResult r (compile cfg r.2.program r.2.tree pipeline)) ∧
      (cfg.sink = .memory → r.2.tree = tree) := by
  intro r
  have hgrows := compile_grows hregular p tree
  have hgrown : p.units.Within r.2.units :=
    p.sameSources_reset.within.trans hgrows.within
  have hwr : r.2.WellFormed := hgrows.wellFormed (reset_wellFormed hw)
  -- among the same files, the same files are written, so the files are the same
  have hsamefiles : ∀ p' : Program, p'.WellFormed → p.units.Within p'.units →
      p'.units.Within r.2.units → SameResult r (compile cfg p' tree pipeline) := by
    intro p' hw' hp hF
    obtain ⟨hsuccess, hprogram, ws, hws, hws'⟩ := sameResult_of_within hregular hw hw' rfl hp hF
      (Units.ReadAlike.refl cfg tree _)
    exact ⟨hsuccess, hprogram, hprogram.eval, Option.mem_unique hws' hws⟩
  refine ⟨fun p' hp => hsamefiles p' (hp.wellFormed hw) hp.within (hp.symm.within.trans hgrown),
    hsamefiles _ hwr hgrown (Units.Within.refl _), fun hread => ?_,
    compile_files_of_memory hregular hw⟩
  obtain ⟨-, -, ws, hws, -⟩ := sameResult_of_within hregular hw hw rfl
    (Units.Within.refl _) hgrown (Units.ReadAlike.refl cfg tree _)
  obtain ⟨hsuccess, hprogram, vs, hvs, hvs'⟩ := sameResult_of_within hregular hw hwr
    (FileTree.exists_puts_of_writes hws).1 hgrown (Units.Within.refl _) hread
  exact ⟨hsuccess, hprogram, hprogram.eval,
    Option.some.inj (hvs'.symm.trans (FileTree.writes_again hvs))⟩

end Results

/-! ### Programs that are compiled twice -/

def remarkPhase : Phase where
  name := "remark"
  run _ unit b := (.ok (), b.mark unit.id [.warning "remarked"])

theorem remarkPhase_blind (cfg : Settings) : remarkPhase.Blind cfg :=
  fun _ _ _ _ => {
    accepts _ _ hu := congrArg (!·) hu.hasErrors
    grows _ b := Program.grows_mark b.program _ _
    settled _ _ _ _ hsame _ _ := hsame.trans (Program.sameSources_mark ..)
    run b b' u u' hb hu := by
      simp only [remarkPhase, hu.id]
      exact ⟨trivial, hb.program.mark u.id _, hb.files, hb.poisoned⟩ }

def besideSources : Settings where
  sink := .files none

/-- Two sources in files; the first includes the second. -/
def callFiles : FileTree where
  files := [(["main.s"], Utf8.encode ".include \"lib.s\"\nmov a0, f\n"),
    (["lib.s"], Utf8.encode "f: ret\n")]

def callMain : Program := .ofResources [.file "main.s"]

def remarkLast : Pipeline := Pipeline.standard ++ [{ phase := remarkPhase }]

/-- A compilation finds a unit and writes two object files, which say nothing to the
sources; so it gives the same result when it is done again. -/
theorem recompilation_gives_same_result_call :
    let r := compile besideSources callMain callFiles remarkLast
    (r.1 = true ∧ callMain.order = [0] ∧ r.2.order = [0, 1] ∧
        r.2.tree.places = [["main.s"], ["lib.s"], ["main.o"], ["lib.o"]]) ∧
      (∀ p' : Program, callMain.units.SameSources p'.units →
        SameResult r (compile besideSources p' callFiles remarkLast)) ∧
      SameResult r (compile besideSources r.2.program callFiles remarkLast) ∧
      r.2.units.ReadAlike besideSources callFiles r.2.tree ∧
      SameResult r (compile besideSources r.2.program r.2.tree remarkLast) := by
  intro r
  have hregular : Pipeline.Regular besideSources remarkLast := by
    refine ⟨by decide +kernel, fun slot hslot => ?_, .inr rfl⟩
    rcases mem_append.mp hslot with hslot | hslot
    · exact .inl (mem_map_of_mem hslot)
    · rw [mem_singleton.mp hslot]
      exact .inr (remarkPhase_blind _)
  obtain ⟨hothers, hagain, hafter, -⟩ := recompilation_gives_same_result hregular
    (Program.wellFormed_ofResources _) callFiles
  have hread : r.2.units.ReadAlike besideSources callFiles r.2.tree := by decide +kernel
  exact ⟨by decide +kernel, hothers, hagain, hread, hafter hread⟩

theorem Program.SameButNumbers.map_get? {α : Type} {p p' : Program} (h : p.SameButNumbers p')
    {g : SourceUnit → α} (hg : ∀ f (u u' : SourceUnit), u.Mirrors f u' → g u' = g u) (i : UnitId) :
    (p'.get? i).map g = (p.get? i).map g := by
  obtain ⟨q, f, f', -, -, hp, hp'⟩ := h
  have hq : ∀ {r : Program} {f : StoreId → StoreId}, q.Mirrors f r →
      (r.get? i).map g = (q.get? i).map g := by
    intro r f hr
    cases hu : q.get? i with
    | none => rw [rel_none (hr.get? i) hu]
    | some u =>
      obtain ⟨u', hu', huu⟩ := rel_some (hr.get? i) hu
      rw [hu', Option.map_some, Option.map_some, hg f u u' huu]
  rw [hq hp, hq hp']

def objectNamed : Program := .ofResources [.file "a.o"]

def objectNamedFiles : FileTree where
  files := [(["a.o"], Utf8.encode ".word 0x0A0A\n")]

/-- Remarks ahead of the parse, and then the standard phases. -/
def remarkFirst : Pipeline := { phase := remarkPhase } :: Pipeline.standard

/-- **A second compilation can differ** from the first in two ways. The object code of a
source may be written over the source: the first compilation of `objectNamed` makes one
word, and the second finds two empty lines. And a phase ahead of the parse works on the
units that are queued by then: the first compilation of `callMain` remarks on one unit, and
the second also on the unit that the first has found. -/
theorem recompilation_may_differ :
    (let r := compile besideSources objectNamed objectNamedFiles
     ¬ SameResult r (compile besideSources r.2.program r.2.tree)) ∧
    let r := compile {} callMain callFiles remarkFirst
    ¬ SameResult r (compile {} r.2.program r.2.tree remarkFirst) := by
  refine ⟨fun h => ?_, fun h => ?_⟩
  · have hstops := h.program.map_get? (g := SourceUnit.stop) (fun _ _ _ hu => hu.stop) 0
    revert hstops
    decide +kernel
  · have hmarkers := h.program.map_get? (g := fun u => u.markers.map Marker.bare)
      (fun _ _ _ hu => hu.markers) 1
    revert hmarkers
    decide +kernel

end WordAsm
