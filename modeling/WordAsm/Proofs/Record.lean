/-
# A record of the runs of a compilation

`recordCompile` compiles and also lists every run of a phase on a unit with its
outcome. It is the compilation itself with the list beside it
(`recordCompile_eq`), so what holds of all recorded runs holds of all runs there
are.
-/
import WordAsm.Proofs.Passes

namespace WordAsm

/-- A run of a phase on a unit. -/
structure Call where
  phase : String
  unit : UnitId
  outcome : Except Error Unit

/-- Runs a phase like `runUnits`, and lists the runs. -/
def recordUnits (cfg : Settings) (slot : Slot) :
    Nat → Nat → Bool → Build → List Call × (Bool × Build)
  | 0, _, failed, b => ([], failed, b)
  | steps + 1, index, failed, b =>
    match b.order[index]? with
    | none => ([], failed, b)
    | some id =>
      match b.get? id with
      | none => recordUnits cfg slot steps (index + 1) failed b
      | some unit =>
        if !slot.phase.accepts unit then
          recordUnits cfg slot steps (index + 1) failed
            (b.tell (.unitSkipped slot.name unit.identifier))
        else
          let b := b.tell (.unitStart slot.name unit.identifier)
          let call : Call := ⟨slot.name, id, (slot.phase.run cfg unit b).1⟩
          let b := runUnit cfg slot.phase unit b
          let unit := (b.get? id).getD unit
          let b := traceUnit cfg slot.phase unit b
          if unit.hasErrors then
            let b := b.tell (.unitFailure slot.name unit.identifier)
            if slot.abortOnError then ([call], true, b)
            else
              let (calls, result) := recordUnits cfg slot steps (index + 1) true b
              (call :: calls, result)
          else
            let (calls, result) := recordUnits cfg slot steps (index + 1) failed
              (b.tell (.unitSuccess slot.name unit.identifier))
            (call :: calls, result)

theorem recordUnits_eq (cfg : Settings) (slot : Slot) (steps index : ℕ) (failed : Bool)
    (b : Build) :
    (recordUnits cfg slot steps index failed b).2 =
      runUnits cfg slot steps index failed b := by
  induction steps generalizing index failed b with
  | zero => rfl
  | succ steps ih =>
    rw [recordUnits, runUnits]
    cases b.order[index]? with
    | none => rfl
    | some id =>
      simp only
      cases b.get? id with
      | none => exact ih ..
      | some unit =>
        simp only
        cases slot.phase.accepts unit with
        | false => exact ih ..
        | true =>
          simp only [Bool.not_true, Bool.false_eq_true, if_false]
          split
          · split
            · rfl
            · exact ih ..
          · exact ih ..

/-- Runs a phase like `runPhase`, and lists the runs. -/
def recordPhase (cfg : Settings) (slot : Slot) (b : Build) : List Call × (Bool × Build) :=
  let (calls, failed, b) := recordUnits cfg slot (queueBound cfg b) 0 false
    (b.tell (.phaseStart slot.name))
  (calls, failed, b.tell (if failed then .phaseFailure slot.name else .phaseSuccess slot.name))

theorem recordPhase_eq (cfg : Settings) (slot : Slot) (b : Build) :
    (recordPhase cfg slot b).2 = runPhase cfg slot b := by
  unfold recordPhase runPhase
  rw [← recordUnits_eq]

/-- Runs the phases like `runPipeline`, and lists the runs. -/
def recordPipeline (cfg : Settings) : Pipeline → Build → List Call × (Bool × Build)
  | [], b => ([], false, b)
  | slot :: slots, b =>
    if slot.abortOnError && b.hasErrors then
      ([], true, (b.say .debug s!"Not running {slot.name}: program has errors").tell
        (.phaseSkipped slot.name))
    else
      let (calls, failed, b) := recordPhase cfg slot b
      if failed && slot.abortOnError then (calls, true, b)
      else if slot.stopAfter then (calls, false, b.say .debug s!"Stopping after {slot.name}")
      else
        let (more, result) := recordPipeline cfg slots b
        (calls ++ more, result)

theorem recordPipeline_eq (cfg : Settings) (pipeline : Pipeline) (b : Build) :
    (recordPipeline cfg pipeline b).2 = runPipeline cfg pipeline b := by
  induction pipeline generalizing b with
  | nil => rfl
  | cons slot slots ih =>
    rw [recordPipeline, runPipeline, ← recordPhase_eq]
    split
    · rfl
    · simp only
      split
      · rfl
      · split
        · rfl
        · exact ih _

theorem recordPipeline_cons {cfg : Settings} (slot : Slot) (slots : Pipeline)
    (habort : slot.abortOnError = false) (hstop : slot.stopAfter = false) (b : Build) :
    recordPipeline cfg (slot :: slots) b =
      ((recordPhase cfg slot b).1 ++
        (recordPipeline cfg slots (runPhase cfg slot b).2).1,
        (recordPipeline cfg slots (runPhase cfg slot b).2).2) := by
  rw [recordPipeline, ← recordPhase_eq]
  simp [habort, hstop]

/-- Compiles like `compile`, and lists the runs. -/
def recordCompile (cfg : Settings) (program : Program) (tree : FileTree)
    (pipeline : Pipeline := .standard) : List Call × (Bool × Build) :=
  let program := program.reset
  let b : Build := { program, tree }
  let b := b.tell (.start program.all.length program.order.length)
  let (calls, aborted, b) := recordPipeline cfg pipeline b
  let success := !aborted && !b.hasErrors
  let b := b.tell (if success then .success else .failure)
  (calls, success, b.tell (.finish b.all.length))

/-- **The record is a record of the compilation.** -/
theorem recordCompile_eq (cfg : Settings) (pipeline : Pipeline) (program : Program)
    (tree : FileTree) :
    (recordCompile cfg program tree pipeline).2 = compile cfg program tree pipeline := by
  unfold recordCompile compile
  simp only [← recordPipeline_eq]

/-! ### Phases that do not break down -/

/-- A phase takes an invariant of position, program and files from unit to unit,
and does not break down. -/
structure Phase.Carries (phase : Phase) (cfg : Settings) (I : ℕ → Program → FileTree → Prop) :
    Prop where
  wellFormed : ∀ k p t, I k p t → p.WellFormed
  skipped : ∀ k (b : Build) u, b.order[k]? = some u.id →
    b.get? u.id = some u → phase.accepts u = false →
    I k b.program b.tree → I (k + 1) b.program b.tree
  run : ∀ k (b : Build) u, b.order[k]? = some u.id →
    b.get? u.id = some u → phase.accepts u = true → I k b.program b.tree →
    (phase.run cfg u b).1 = .ok () ∧
      I (k + 1) (phase.run cfg u b).2.program (phase.run cfg u b).2.tree

section Carries

variable {cfg : Settings} {slot : Slot} {I : ℕ → Program → FileTree → Prop}

theorem Phase.Carries.ran (hc : slot.phase.Carries cfg I) {k : ℕ} {b : Build} {id : UnitId}
    {u : SourceUnit} (hid : b.order[k]? = some id)
    (hu : b.get? id = some u) (hacc : slot.phase.accepts u = true)
    (h : I k b.program b.tree) : (slot.phase.run cfg u b).1 = .ok () ∧
      I (k + 1) (runUnit cfg slot.phase u b).program (runUnit cfg slot.phase u b).tree := by
  obtain rfl : u.id = id := (hc.wellFormed _ _ _ h).numbered id u hu
  obtain ⟨hok, hnext⟩ := hc.run k b u hid hu hacc h
  rw [runUnit_of_ok (Prod.ext hok rfl : slot.phase.run cfg u b = (.ok (), _))]
  exact ⟨hok, hnext⟩

theorem recordUnits_ok (hc : slot.phase.Carries cfg I) :
    ∀ (steps k : ℕ) (failed : Bool) (b : Build), I k b.program b.tree →
      ∀ call ∈ (recordUnits cfg slot steps k failed b).1, call.outcome = .ok () := by
  intro steps
  induction steps with
  | zero => intro k failed b _ call hcall; cases hcall
  | succ steps ih =>
    intro k failed b h call hcall
    rw [recordUnits] at hcall
    cases hid : b.order[k]? with
    | none =>
      simp only [hid] at hcall
      cases hcall
    | some id =>
      cases hu : b.get? id with
      | none => exact absurd hu (ne_none_of_queued (hc.wellFormed _ _ _ h) hid)
      | some u =>
        obtain rfl : u.id = id := (hc.wellFormed _ _ _ h).numbered id u hu
        cases hacc : slot.phase.accepts u with
        | false =>
          simp only [hid, hu, hacc, Bool.not_false, if_true] at hcall
          exact ih (k + 1) failed (b.tell (.unitSkipped slot.name u.identifier))
            (hc.skipped k b u hid hu hacc h) call hcall
        | true =>
          simp only [hid, hu, hacc, Bool.not_true, Bool.false_eq_true, if_false] at hcall
          obtain ⟨hok, hnext⟩ := hc.ran (b := b.tell _) hid hu hacc h
          split at hcall
          · split at hcall
            · rw [List.mem_singleton.mp hcall]
              exact hok
            · rcases List.mem_cons.mp hcall with rfl | hcall
              · exact hok
              · exact ih (k + 1) true _ (by simpa using hnext) call hcall
          · rcases List.mem_cons.mp hcall with rfl | hcall
            · exact hok
            · exact ih (k + 1) failed _ (by simpa using hnext) call hcall

theorem Phase.Carries.not_failed (hc : slot.phase.Carries cfg I)
    (hclean : ∀ k p t, I k p t → p.hasErrors = false) :
    ∀ (steps k : ℕ) (failed : Bool) (b : Build), I k b.program b.tree →
      (runUnits cfg slot steps k failed b).1 = failed := by
  intro steps
  induction steps with
  | zero => intro k failed b _; rfl
  | succ steps ih =>
    intro k failed b h
    rcases runUnits_cases cfg slot k b with ⟨-, hstep⟩ | ⟨fails, c, hturn, hstep⟩
    · rw [hstep]
    have hnext : fails = false ∧ I (k + 1) c.program c.tree := by
      cases hturn with
      | unknown hid hu => exact absurd hu (ne_none_of_queued (hc.wellFormed _ _ _ h) hid)
      | @skipped id u hid hu ha =>
        obtain rfl : u.id = id := (hc.wellFormed _ _ _ h).numbered id u hu
        exact ⟨rfl, hc.skipped k b u hid hu ha h⟩
      | @taken id u w c fails hid hu ha hrun hget hfails =>
        obtain ⟨-, hnext⟩ := hc.ran (b := b.tell _) hid hu ha h
        rw [hrun] at hnext
        subst hget
        rw [Build.program_tell, Build.tree_tell, program_traceUnit, tree_traceUnit, ← hfails]
        refine ⟨?_, hnext⟩
        cases hget : Units.get? _ id with
        | none => exact Program.noErrors_get? (hclean _ _ _ h) hu
        | some v => exact Program.noErrors_get? (hclean _ _ _ hnext) hget
    rw [hstep, hnext.1, Bool.false_and, if_neg Bool.false_ne_true, Bool.or_false]
    exact ih (k + 1) failed c hnext.2

/-- **A phase that carries an invariant** has only runs that succeed, and the
invariant holds where it ends: behind the last unit, or at an error that aborts
it. -/
theorem Phase.Carries.runPhase (slot : Slot) (hc : slot.phase.Carries cfg I) {b : Build}
    (h : I 0 b.program b.tree) :
    (∀ call ∈ (recordPhase cfg slot b).1, call.outcome = .ok ()) ∧
      ∃ n, I n (runPhase cfg slot b).2.program (runPhase cfg slot b).2.tree ∧
        ((runPhase cfg slot b).2.units.order.length ≤ n ∨ n = queueBound cfg b ∨
          ((runPhase cfg slot b).1 = true ∧ slot.abortOnError = true)) := by
  refine ⟨recordUnits_ok hc _ 0 false (b.tell (.phaseStart slot.name)) h, ?_⟩
  obtain ⟨n, hn, hend⟩ := runUnits_induct cfg slot (I := fun k b => I k b.program b.tree)
    (fun _ _ _ hI => hI) (fun k c => hc.wellFormed k c.program c.tree)
    (fun k c id u hk hu hacc hI => by
      obtain rfl : u.id = id := (hc.wellFormed _ _ _ hI).numbered id u hu
      exact hc.skipped k c u hk hu hacc hI)
    (fun k c id u hk hu hacc hI => (hc.ran hk hu hacc hI).2)
    (queueBound cfg b) 0 false (b.tell (.phaseStart slot.name)) h
  rw [Nat.zero_add] at hend
  exact ⟨n, hn, hend⟩

end Carries

end WordAsm
