/-
# What a listener hears

A compilation tells how it goes: where it starts, what becomes of each phase it comes to, how it
ends. Inside a phase every queued unit has its turn, by position, although the queue may grow
under way: the turns of a phase are those of the queue as it is when the phase is over, unless
the phase is aborted at a unit (`PhaseTurns`).

The turns are told as they happen, and phases themselves tell nothing (`Phase.Orderly`). So what
is heard of a phase is its start, its turns and one word on how it ended (`runPhase_heard`), and
what is heard of a pipeline follows from what is heard of its phases (`PipelineHeard`).
-/
import WordAsm.Proofs.Recompilation

namespace WordAsm

open List

variable {phase : Phase} {u : SourceUnit} {b : Build} {k : ℕ}

def Build.heard (b : Build) : List Event := events b.notices

namespace Build

theorem heard_append (b : Build) (more : List Notice) :
    Build.heard { b with notices := b.notices ++ more } = b.heard ++ events more :=
  filterMap_append

@[simp] theorem heard_tell (b : Build) (e : Event) : (b.tell e).heard = b.heard ++ [e] :=
  b.heard_append [.event e]

@[simp] theorem heard_sayAll (b : Build) (lines : List LogLine) :
    (b.sayAll lines).heard = b.heard := by
  simp [heard, sayAll, events, Notice.event?, filterMap_map, Function.comp_def]

@[simp] theorem heard_say (b : Build) (level : LogLevel) (message : String) :
    (b.say level message).heard = b.heard := b.heard_sayAll _

@[simp] theorem heard_mark (b : Build) (id : UnitId) (ms : List Marker) :
    (b.mark id ms).heard = b.heard := rfl

@[simp] theorem heard_modifyUnit (b : Build) (id : UnitId) (f : SourceUnit → SourceUnit) :
    (b.modifyUnit id f).heard = b.heard := rfl

end Build

@[simp] theorem heard_traceUnit (cfg : Settings) (phase : Phase) (u : SourceUnit) (b : Build) :
    (traceUnit cfg phase u b).heard = b.heard := by
  unfold traceUnit
  split
  · exact b.heard_sayAll _
  · rfl

/-! ### Turns -/

/-- How the turn of a unit went. -/
inductive Turn
  | skipped
  | succeeded
  | failed
  deriving DecidableEq

def Turn.events (phase unit : String) : Turn → List Event
  | skipped => [.unitSkipped phase unit]
  | succeeded => [.unitStart phase unit, .unitSuccess phase unit]
  | failed => [.unitStart phase unit, .unitFailure phase unit]

/-- What is told of the turns of some units, which are known among `us`. -/
def turnEvents (phase : String) (us : Units) (turns : List (UnitId × Turn)) : List Event :=
  turns.flatMap fun turn => turn.2.events phase (us.nameOf turn.1)

/-- The turns of a phase over the queue `ids`, and whether the phase has failed. -/
inductive PhaseTurns (abortOnError : Bool) (ids : List UnitId) : Bool → List (UnitId × Turn) → Prop
  /-- Every queued unit has one turn, in the order of the queue. The phase has failed if a turn
  has; an aborting phase has not. -/
  | whole (turns : List (UnitId × Turn)) (hunits : turns.map Prod.fst = ids)
    (hgo : abortOnError = true → ∀ turn ∈ turns, turn.2 ≠ .failed) :
    PhaseTurns abortOnError ids (turns.any (·.2 = .failed)) turns
  /-- An aborting phase ends with the first turn that fails. -/
  | cut (turns : List (UnitId × Turn)) {id : UnitId} {rest : List UnitId}
    (habort : abortOnError = true) (hunits : turns.map Prod.fst ++ id :: rest = ids)
    (hgo : ∀ turn ∈ turns, turn.2 ≠ .failed) :
    PhaseTurns abortOnError ids true (turns ++ [(id, .failed)])

theorem PhaseTurns.cons {abort failed : Bool} {ids : List UnitId} {turns : List (UnitId × Turn)}
    (h : PhaseTurns abort ids failed turns) (id : UnitId) {turn : Turn}
    (hturn : abort = true → turn ≠ .failed) :
    PhaseTurns abort (id :: ids) (decide (turn = .failed) || failed) ((id, turn) :: turns) := by
  cases h with
  | whole _ hunits hgo =>
    have hall : abort = true → ∀ t ∈ (id, turn) :: turns, t.2 ≠ .failed := by
      intro habort t ht
      rcases mem_cons.mp ht with rfl | ht
      · exact hturn habort
      · exact hgo habort t ht
    have hwhole := PhaseTurns.whole ((id, turn) :: turns) (congrArg (id :: ·) hunits) hall
    rwa [any_cons] at hwhole
  | @cut done last rest habort hunits hgo =>
    rw [Bool.or_true]
    refine .cut ((id, turn) :: done) habort (congrArg (id :: ·) hunits) ?_
    intro t ht
    rcases mem_cons.mp ht with rfl | ht
    · exact hturn habort
    · exact hgo t ht

def PhaseHeard (slot : Slot) (failed : Bool) (us : Units) (heard : List Event) : Prop :=
  ∃ turns, PhaseTurns slot.abortOnError us.order failed turns ∧
    heard = .phaseStart slot.name :: turnEvents slot.name us turns ++
      [if failed then .phaseFailure slot.name else .phaseSuccess slot.name]

/-- What is heard of a pipeline that runs on a build. -/
inductive PipelineHeard (cfg : Settings) : Pipeline → Build → List Event → Prop
  | done (b : Build) : PipelineHeard cfg [] b []
  /-- An aborting phase is skipped if there are errors ahead of it, and nothing else is run. -/
  | skips {slot : Slot} {slots : Pipeline} {b : Build} (habort : slot.abortOnError = true)
    (herrors : b.hasErrors = true) :
    PipelineHeard cfg (slot :: slots) b [.phaseSkipped slot.name]
  /-- A phase is the last one if it is aborted, or if the build is to stop after it. -/
  | ends {slot : Slot} {slots : Pipeline} {b : Build} {heard : List Event}
    (hruns : slot.abortOnError = true → b.hasErrors = false)
    (hphase : PhaseHeard slot (runPhase cfg slot b).1
      (runPhase cfg slot b).2.units heard)
    (hlast : (runPhase cfg slot b).1 = true ∧ slot.abortOnError = true ∨
      slot.stopAfter = true) :
    PipelineHeard cfg (slot :: slots) b heard
  /-- Otherwise the other phases follow. -/
  | goesOn {slot : Slot} {slots : Pipeline} {b : Build} {heard more : List Event}
    (hruns : slot.abortOnError = true → b.hasErrors = false)
    (hphase : PhaseHeard slot (runPhase cfg slot b).1
      (runPhase cfg slot b).2.units heard)
    (hgo : ¬ ((runPhase cfg slot b).1 = true ∧ slot.abortOnError = true) ∧
      slot.stopAfter = false)
    (hrest : PipelineHeard cfg slots (runPhase cfg slot b).2 more) :
    PipelineHeard cfg (slot :: slots) b (heard ++ more)

/-! ### Phases -/

/-- A phase that tells nothing itself, lets the program grow, and does not raise the bound `N`
on the length of the queue. -/
structure Phase.Orderly (phase : Phase) (cfg : Settings) (N : Program → FileTree → ℕ) :
    Prop where
  silent : ∀ u (b : Build), (phase.run cfg u b).2.heard = b.heard
  grows : ∀ u (b : Build), b.program.Grows (phase.run cfg u b).2.program
  length : ∀ p tree, p.order.length ≤ N p tree
  enough : ∀ b : Build, N b.program b.tree ≤ queueBound cfg b
  bound : ∀ u (b : Build), b.WellFormed → u.id ∈ b.order →
    b.get? u.id = some u →
    N (runUnit cfg phase u b).program (runUnit cfg phase u b).tree ≤ N b.program b.tree

section Phases

variable {cfg : Settings}

theorem heard_runUnit (h : (phase.run cfg u b).2.heard = b.heard) :
    (runUnit cfg phase u b).heard = b.heard := by
  unfold runUnit
  rcases hrun : phase.run cfg u b with ⟨outcome, c⟩
  rw [hrun] at h
  cases outcome with
  | ok _ => exact h
  | error e =>
    rw [Build.heard_mark, Build.heard_say]
    exact h

theorem heard_withTree {f : SyntaxTree → Except Error Unit × Build}
    (h : ∀ nodes, (f nodes).2.heard = b.heard) : (withTree u b f).2.heard = b.heard := by
  unfold withTree
  split
  · exact h _
  · rfl

theorem heard_parseUnit (u : SourceUnit) (b : Build) :
    (parseUnit cfg u b).2.heard = b.heard := by
  unfold parseUnit declareUnit
  split
  · rfl
  · simp only
    split <;> simp [Build.heard, Build.say, Build.sayAll, Build.mark, Build.modifyUnit, events,
      Notice.event?]

theorem heard_referencePhase (u : SourceUnit) (b : Build) :
    (referencePhase.run cfg u b).2.heard = b.heard := by
  have hcheck : (checkCycles u.id b).2.heard = b.heard := Build.heard_sayAll _ _
  rcases referencePhase_cases cfg u b with ⟨-, heq⟩ | ⟨-, nodes, -, heq⟩
  · rw [heq, hcheck]
  · rw [heq, Build.heard_mark, hcheck]

theorem heard_emissionPhase (u : SourceUnit) (b : Build) :
    (emissionPhase.run cfg u b).2.heard = b.heard := by
  refine heard_withTree fun nodes => ?_
  unfold emitUnit
  simp only
  split
  · rfl
  · rw [Build.heard_modifyUnit, Build.heard_say]
    rfl

/-- **The six phases tell nothing.** -/
theorem silent_of_standard (h : phase ∈ Pipeline.standard.map Slot.phase) (u : SourceUnit)
    (b : Build) : (phase.run cfg u b).2.heard = b.heard := by
  rcases (mem_cons.mp h).imp_right behind_parse_cases with rfl | rfl | rfl | rfl | rfl | rfl
  · exact heard_parseUnit u b
  · exact heard_referencePhase u b
  · exact heard_withTree fun nodes => Build.heard_say _ _ _
  · exact heard_withTree fun nodes => by rw [Build.heard_modifyUnit, Build.heard_sayAll]
  · exact heard_withTree fun nodes => rfl
  · exact heard_emissionPhase u b

theorem parsePhase_orderly : parsePhase.Orderly cfg
    fun p tree => p.load (cfg.resolver.targets tree) where
  silent := heard_parseUnit
  grows := (parsePhase_quiet cfg).grows
  length p tree := p.units.order_le_load _
  enough := load_le_queueBound cfg
  bound u b hw _ _ := by
    rw [runUnit_parse, (parseUnit_cases cfg u b).2.1]
    exact load_parseUnit hw

theorem orderly_behind_parse (h : phase ∈ Pipeline.standard.tail.map Slot.phase) :
    phase.Orderly cfg fun p _ => p.order.length := by
  have hmirrored : phase.Mirrored cfg id (fun _ _ => False) :=
    mirrored_of_standard Function.injective_id (fun _ _ _ _ _ hfalse => hfalse.elim) h
  refine ⟨silent_of_standard (mem_cons_of_mem _ h), hmirrored.grows, fun _ _ => le_rfl,
    fun b => ?_, fun u b _ hqueued hu => ?_⟩
  · unfold queueBound
    omega
  · have hsame := runUnit_sameSources (hmirrored.settled _) (Units.SameSources.refl _) hqueued hu
    rw [hsame.order]

/-- **The six phases are orderly.** -/
theorem orderly_of_standard (cfg : Settings) (h : phase ∈ Pipeline.standard.map Slot.phase) :
    ∃ N, phase.Orderly cfg N := by
  rcases mem_cons.mp h with rfl | h
  · exact ⟨_, parsePhase_orderly⟩
  · exact ⟨_, orderly_behind_parse h⟩

theorem grows_of_standard (h : phase ∈ Pipeline.standard.map Slot.phase) (u : SourceUnit)
    (b : Build) : b.program.Grows (phase.run cfg u b).2.program := by
  obtain ⟨N, hN⟩ := orderly_of_standard cfg h
  exact hN.grows u b

end Phases

/-! ### Runs -/

theorem Program.Grows.nameOf {p q : Program} (h : p.Grows q) {i : UnitId}
    (hu : p.get? i = some u) : q.nameOf i = u.identifier := by
  obtain ⟨v, hv, huv⟩ := h.units i u hu
  unfold Units.nameOf
  rw [hv]
  exact congrArg Resource.identifier huv.resource

section Runs

variable {c : Build} {slots : Pipeline} {cfg : Settings} {slot : Slot}
  {N : Program → FileTree → ℕ}

/-- The loop of a phase, from position `k` of the queue of `b` on, has come to `result` by one
turn for each position. -/
def TurnsFrom (slot : Slot) (k : ℕ) (failed : Bool) (b : Build) (result : Bool × Build) : Prop :=
  ∃ turns fails,
    PhaseTurns slot.abortOnError (result.2.order.drop k) fails turns ∧
    result.1 = (failed || fails) ∧
    result.2.heard = b.heard ++ turnEvents slot.name result.2.units turns

theorem turnsFrom_of_length_le (failed : Bool) (h : b.order.length ≤ k) :
    TurnsFrom slot k failed b (failed, b) := by
  refine ⟨[], false, ?_, (Bool.or_false _).symm, (append_nil _).symm⟩
  have hnone : b.order.drop k = [] := drop_eq_nil_of_le h
  rw [show (failed, b).2 = b from rfl, hnone]
  exact .whole [] rfl fun _ turn ht => absurd ht not_mem_nil

theorem Program.Grows.drop_order {p q : Program} (h : p.Grows q) {id : UnitId}
    (hid : p.order[k]? = some id) :
    q.order.drop k = id :: q.order.drop (k + 1) := by
  obtain ⟨rest, hrest⟩ := h.order
  have hlt := (List.getElem?_eq_some_iff.mp hid).1
  have hk : q.order[k]? = some id := by
    rw [← hrest, getElem?_append_left hlt, hid]
  obtain ⟨hlt', heq⟩ := List.getElem?_eq_some_iff.mp hk
  rw [drop_eq_getElem_cons hlt', heq]

theorem TurnsFrom.next (turn : Turn) {failed : Bool} {result : Bool × Build}
    (hid : b.order[k]? = some u.id) (hu : b.get? u.id = some u)
    (hgrows : b.program.Grows result.2.program) (hturn : slot.abortOnError = true → turn ≠ .failed)
    (hheard : c.heard = b.heard ++ turn.events slot.name u.identifier)
    (h : TurnsFrom slot (k + 1) (failed || decide (turn = .failed)) c result) :
    TurnsFrom slot k failed b result := by
  obtain ⟨turns, fails, hturns, hflag, hrest⟩ := h
  refine ⟨(u.id, turn) :: turns, decide (turn = .failed) || fails, ?_, ?_, ?_⟩
  · rw [hgrows.drop_order hid]
    exact hturns.cons u.id hturn
  · rw [hflag, Bool.or_assoc]
  · rw [hrest, hheard, turnEvents, turnEvents, flatMap_cons, hgrows.nameOf hu, append_assoc]

theorem TurnsFrom.cut (failed : Bool) (hid : b.order[k]? = some u.id)
    (hu : b.get? u.id = some u) (hgrows : b.program.Grows c.program)
    (habort : slot.abortOnError = true)
    (hheard : c.heard = b.heard ++ Turn.failed.events slot.name u.identifier) :
    TurnsFrom slot k failed b (true, c) := by
  refine ⟨[(u.id, .failed)], true, ?_, (Bool.or_true _).symm, ?_⟩
  · rw [hgrows.drop_order hid]
    exact .cut [] habort rfl fun turn ht => absurd ht not_mem_nil
  · rw [turnEvents, flatMap_singleton, hgrows.nameOf hu]
    exact hheard

/-- **The turns of a phase.** By induction on the steps: each takes one position of the queue,
and the steps do not run out before the queue does. -/
theorem runUnits_heard (h : slot.phase.Orderly cfg N) (steps k : ℕ) (failed : Bool)
    (b : Build) (hw : b.WellFormed) (hsteps : N b.program b.tree ≤ k + steps) :
    TurnsFrom slot k failed b (runUnits cfg slot steps k failed b) := by
  have hgrows : ∀ u (c : Build), c.program.Grows (runUnit cfg slot.phase u c).program :=
    fun u c => grows_runUnit (h.grows u c)
  induction steps generalizing k failed b with
  | zero =>
    have hlength := h.length b.program b.tree
    exact turnsFrom_of_length_le failed (by omega)
  | succ steps ih =>
    rcases runUnits_cases cfg slot k b with ⟨hid, hstep⟩ | ⟨fails, c, hturn, hstep⟩
    · rw [hstep]
      exact turnsFrom_of_length_le failed (List.getElem?_eq_none_iff.mp hid)
    have hall := runUnits_grows hgrows (steps + 1) k failed b
    obtain ⟨hwc, hbound⟩ : c.WellFormed ∧ N c.program c.tree ≤ k + 1 + steps := by
      refine hturn.keeps (I := fun c => c.WellFormed ∧ N c.program c.tree ≤ k + 1 + steps)
        (fun _ _ hc => hc) (fun id u c hid hu hc => ?_) ⟨hw, by omega⟩
      obtain rfl := hc.1.numbered id u hu
      exact ⟨(hgrows u c).wellFormed hc.1, Nat.le_trans (h.bound u c hc.1 hid hu) hc.2⟩
    rw [hstep] at hall ⊢
    cases hturn with
    | unknown hid hu => exact absurd hu (ne_none_of_queued hw hid)
    | @skipped id u hid hu hacc =>
      obtain rfl := hw.numbered id u hu
      exact TurnsFrom.next .skipped hid hu hall (fun _ => by decide) (Build.heard_tell _ _)
        (by simpa using ih (k + 1) failed _ hwc hbound)
    | @taken id u w c fails hid hu hacc hc hget hfails =>
      obtain rfl := hw.numbered id u hu
      have hname : w.identifier = u.identifier := by
        have hgrew := hgrows u (b.tell (.unitStart slot.name u.identifier))
        obtain ⟨v, hv, huv⟩ := hgrew.units u.id u hu
        rw [← hget, ← hc, hv]
        exact congrArg Resource.identifier huv.resource
      -- the run itself tells nothing, so only the start and the outcome are heard
      have hheard := heard_runUnit (h.silent u (b.tell (.unitStart slot.name u.identifier)))
      rw [hc, Build.heard_tell] at hheard
      cases fails with
      | false =>
        refine TurnsFrom.next .succeeded hid hu hall (fun _ => by decide) ?_
          (by simpa using ih (k + 1) failed _ hwc hbound)
        rw [Build.heard_tell, heard_traceUnit, hheard, hname, append_assoc]
        rfl
      | true =>
        have hfailed : ((traceUnit cfg slot.phase w c).tell
            (.unitFailure slot.name w.identifier)).heard =
            b.heard ++ Turn.failed.events slot.name u.identifier := by
          rw [Build.heard_tell, heard_traceUnit, hheard, hname, append_assoc]
          rfl
        simp only [Bool.true_and, if_true, Bool.or_true] at hall hwc hbound ⊢
        by_cases habort : slot.abortOnError = true
        · rw [if_pos habort] at hall ⊢
          exact TurnsFrom.cut failed hid hu hall habort hfailed
        · rw [if_neg habort] at hall ⊢
          exact TurnsFrom.next .failed hid hu hall (fun hslot => absurd hslot habort)
            hfailed (by simpa using ih (k + 1) true _ hwc hbound)

/-- **What is heard of a phase**: its start, its turns, and how it ended. -/
theorem runPhase_heard (h : slot.phase.Orderly cfg N) (hw : b.WellFormed) :
    ∃ heard, PhaseHeard slot (runPhase cfg slot b).1
        (runPhase cfg slot b).2.units heard ∧
      (runPhase cfg slot b).2.heard = b.heard ++ heard := by
  obtain ⟨turns, fails, hturns, hflag, hheard⟩ := runUnits_heard h (queueBound cfg b) 0 false
    (b.tell (.phaseStart slot.name)) hw (by
      rw [Nat.zero_add]
      exact h.enough b)
  rw [Bool.false_or] at hflag
  rw [← hflag] at hturns
  refine ⟨_, ⟨turns, hturns, rfl⟩, ?_⟩
  unfold runPhase
  simp only [Build.heard_tell, hheard, append_assoc, cons_append, nil_append, Build.program_tell]

theorem not_skipped (hruns : slot.abortOnError = true → b.hasErrors = false) :
    ¬ (slot.abortOnError && b.hasErrors) = true := by
  rw [Bool.and_eq_true]
  exact fun hboth => Bool.false_ne_true ((hruns hboth.1).symm.trans hboth.2)

theorem runPipeline_of_goes_on (hruns : slot.abortOnError = true → b.hasErrors = false)
    (hgo : ¬ ((runPhase cfg slot b).1 = true ∧ slot.abortOnError = true))
    (hstop : slot.stopAfter = false) :
    runPipeline cfg (slot :: slots) b =
      runPipeline cfg slots (runPhase cfg slot b).2 := by
  have hcut : ¬ ((runPhase cfg slot b).1 && slot.abortOnError) = true := by
    rwa [Bool.and_eq_true]
  rw [runPipeline, if_neg (not_skipped hruns)]
  simp only [if_neg hcut, hstop, Bool.false_eq_true, if_false]

/-- **What is heard of a pipeline.** -/
theorem runPipeline_heard (h : ∀ slot ∈ slots, ∃ N, slot.phase.Orderly cfg N)
    (hw : b.WellFormed) :
    ∃ heard, PipelineHeard cfg slots b heard ∧
      (runPipeline cfg slots b).2.heard = b.heard ++ heard := by
  induction slots generalizing b with
  | nil => exact ⟨[], .done b, (append_nil _).symm⟩
  | cons slot slots ih =>
    rw [runPipeline]
    by_cases hskip : (slot.abortOnError && b.hasErrors) = true
    · rw [if_pos hskip]
      obtain ⟨habort, herrors⟩ := Bool.and_eq_true_iff.mp hskip
      refine ⟨_, .skips habort herrors, ?_⟩
      rw [Build.heard_tell, Build.heard_say]
    · rw [if_neg hskip]
      have hruns : slot.abortOnError = true → b.hasErrors = false := by
        intro habort
        rw [habort, Bool.true_and] at hskip
        exact Bool.eq_false_iff.mpr hskip
      obtain ⟨N, hN⟩ := h slot mem_cons_self
      obtain ⟨heard, hphase, hheard⟩ := runPhase_heard hN hw
      have hwafter : (runPhase cfg slot b).2.units.WellFormed :=
        (runUnits_grows (fun u c => grows_runUnit (hN.grows u c)) (queueBound cfg b) 0 false
          (b.tell (.phaseStart slot.name))).wellFormed hw
      simp only
      by_cases hcut : ((runPhase cfg slot b).1 && slot.abortOnError) = true
      · rw [if_pos hcut]
        exact ⟨heard, .ends hruns hphase (.inl (Bool.and_eq_true_iff.mp hcut)), hheard⟩
      · rw [if_neg hcut]
        by_cases hstop : slot.stopAfter = true
        · rw [if_pos hstop]
          refine ⟨heard, .ends hruns hphase (.inr hstop), ?_⟩
          rw [Build.heard_say, hheard]
        · rw [if_neg hstop]
          obtain ⟨more, hrest, hmore⟩ := ih (fun s hs => h s (mem_cons_of_mem _ hs)) hwafter
          refine ⟨heard ++ more, .goesOn hruns hphase ⟨fun hboth => hcut ?_, ?_⟩ hrest, ?_⟩
          · exact Bool.and_eq_true_iff.mpr hboth
          · exact Bool.eq_false_iff.mpr hstop
          · rw [hmore, hheard, append_assoc]

end Runs

/-! ### The whole compilation -/

def Event.inPhase : Event → Bool
  | start _ _ | success | failure | finish _ => false
  | _ => true

theorem inPhase_of_mem_turnEvents {phase : String} {us : Units} {turns : List (UnitId × Turn)}
    {e : Event} (he : e ∈ turnEvents phase us turns) : e.inPhase = true := by
  obtain ⟨⟨id, turn⟩, -, hturn⟩ := mem_flatMap.mp he
  cases turn <;>
    simp only [Turn.events, mem_cons, not_mem_nil, or_false] at hturn <;>
    rcases hturn with rfl | rfl <;> rfl

theorem PhaseHeard.inPhase {slot : Slot} {failed : Bool} {us : Units} {heard : List Event}
    (h : PhaseHeard slot failed us heard) : ∀ e ∈ heard, e.inPhase = true := by
  obtain ⟨turns, -, rfl⟩ := h
  intro e he
  rcases mem_append.mp he with he | he
  · rcases mem_cons.mp he with rfl | he
    · rfl
    · exact inPhase_of_mem_turnEvents he
  · rw [mem_singleton.mp he]
    cases failed <;> rfl

theorem PipelineHeard.inPhase {cfg : Settings} {slots : Pipeline} {heard : List Event}
    (h : PipelineHeard cfg slots b heard) :
    ∀ e ∈ heard, e.inPhase = true := by
  induction h with
  | done b => exact fun e he => absurd he not_mem_nil
  | skips _ _ =>
    intro e he
    rw [mem_singleton.mp he]
    rfl
  | ends _ hphase _ => exact hphase.inPhase
  | goesOn _ hphase _ _ ih =>
    intro e he
    rcases mem_append.mp he with he | he
    · exact hphase.inPhase e he
    · exact ih e he

theorem compile_heard (cfg : Settings) {pipeline : Pipeline}
    (hphases : ∀ slot ∈ pipeline, slot.phase ∈ Pipeline.standard.map Slot.phase) {p : Program}
    (hw : p.WellFormed) (tree : FileTree) :
    ∃ heard, PipelineHeard cfg pipeline (opening p tree) heard ∧
      events (compile cfg p tree pipeline).2.notices =
        .start p.all.length p.order.length :: heard ++
          [if (compile cfg p tree pipeline).1 then .success else .failure,
            .finish (compile cfg p tree pipeline).2.units.all.length] := by
  obtain ⟨heard, hpipeline, hheard⟩ := runPipeline_heard (b := opening p tree)
    (fun slot hslot => orderly_of_standard cfg (hphases slot hslot))
    (reset_wellFormed hw)
  have hopening : (opening p tree).heard = [.start p.all.length p.order.length] := by
    simp [opening, Program.reset, Build.heard, Build.tell, events, Notice.event?]
  refine ⟨heard, hpipeline, ?_⟩
  show Build.heard (Build.tell (Build.tell (runPipeline cfg pipeline (opening p tree)).2 _)
    _) = _
  rw [Build.heard_tell, Build.heard_tell, hheard, hopening, append_assoc]
  rfl

/-- **A compilation tells how it goes, in order.** The start comes first, with the numbers of
units and of queued units. Then follows what is heard of the phases: each of them is skipped for
errors ahead of it, and then it is the last, or it is told from its start over the turns of the
queue it leaves to its success or failure. At the end come the outcome and, once, the finish. The
outcome is a success exactly if the compilation gives one, and no unit has errors then. -/
theorem compile_tells_in_order (cfg : Settings) {pipeline : Pipeline}
    (hphases : ∀ slot ∈ pipeline, slot.phase ∈ Pipeline.standard.map Slot.phase) {p : Program}
    (hw : p.WellFormed) (tree : FileTree) :
    let r := compile cfg p tree pipeline
    ∃ heard, PipelineHeard cfg pipeline (opening p tree) heard ∧
      (∀ e ∈ heard, e.inPhase = true) ∧
      events r.2.notices = .start p.all.length p.order.length :: heard ++
        [if r.1 then .success else .failure, .finish r.2.all.length] ∧
      (.success ∈ events r.2.notices ↔ r.1 = true) ∧
      (r.1 = true → ∀ u ∈ r.2.all, u.hasErrors = false) := by
  intro r
  obtain ⟨heard, hpipeline, hevents⟩ := compile_heard cfg hphases hw tree
  change events r.2.notices = _ at hevents
  refine ⟨heard, hpipeline, hpipeline.inPhase, hevents, ?_, ?_⟩
  · rw [hevents]
    have houtside : .success ∉ heard := fun he =>
      Bool.false_ne_true (hpipeline.inPhase _ he)
    cases hr : r.1 <;> simp [houtside]
  · intro hr u hu
    exact Bool.eq_false_iff.mpr (any_eq_false.mp (compile_success.mp hr).2 u hu)

/-- A source that includes another, in which nothing makes sense. -/
def faultyCall : FileTree where
  files := [(["main.s"], Utf8.encode ".include \"lib.s\"\n"), (["lib.s"], Utf8.encode "?\n")]

/-- Four of the phases in an order of their own. -/
def foldingEarly : Pipeline :=
  [{ phase := parsePhase }, { phase := foldingPhase },
    { phase := layoutPhase, abortOnError := true }, { phase := referencePhase }]

/-- The first phase comes to a unit that is queued under way and fails there, the second skips
that unit and succeeds, the third is skipped, and the fourth is not heard of. -/
theorem compile_tells_in_order_faulty :
    let r := compile {} callMain faultyCall foldingEarly
    (∃ heard, PipelineHeard {} foldingEarly (opening callMain faultyCall) heard ∧
      (∀ e ∈ heard, e.inPhase = true) ∧
      events r.2.notices = .start 1 1 :: heard ++ [.failure, .finish 2]) ∧
    events r.2.notices = [.start 1 1, .phaseStart "parse", .unitStart "parse" "main.s",
      .unitSuccess "parse" "main.s", .unitStart "parse" "lib.s", .unitFailure "parse" "lib.s",
      .phaseFailure "parse", .phaseStart "fold-expressions",
      .unitStart "fold-expressions" "main.s", .unitSuccess "fold-expressions" "main.s",
      .unitSkipped "fold-expressions" "lib.s", .phaseSuccess "fold-expressions",
      .phaseSkipped "resolve-addresses", .failure, .finish 2] := by
  intro r
  have hphases : ∀ slot ∈ foldingEarly, slot.phase ∈ Pipeline.standard.map Slot.phase := by
    simp [foldingEarly, Pipeline.standard]
  have hwell : callMain.WellFormed := Program.wellFormed_ofResources _
  obtain ⟨heard, hpipeline, hinside, hevents, -⟩ :=
    compile_tells_in_order {} hphases hwell faultyCall
  have hr : r.1 = false ∧ r.2.all.length = 2 := by decide +kernel
  rw [show compile {} callMain faultyCall foldingEarly = r from rfl, hr.1, hr.2] at hevents
  exact ⟨⟨heard, hpipeline, hinside, hevents⟩, by decide +kernel⟩

end WordAsm
