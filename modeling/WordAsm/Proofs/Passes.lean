/-
# Passes of a phase over a program

A phase works on the queued units one after the other, by position, and the
queue may grow under way. What one turn of that loop can do is `UnitTurn`
(`runUnits_cases`). Two readings of the loop carry all that is proved about
compilations.

`runUnits_induct` is the loop's induction: what holds at a position, and is
kept by every step, holds where the loop ends. It makes no assumption on errors.

`Passes` is the loop when nothing goes wrong: every known unit is worked on, no
run breaks down, and no unit has errors at any time. If a program has no errors
when a phase is done, the phase has passed over it (`passes_of_runUnits`), and
what passes preserve goes by induction on `Passes` (`Passes.induct`).
-/
import WordAsm.Build.Compile
import WordAsm.Proofs.Growth

namespace WordAsm

variable {u : SourceUnit} {I : Program → Prop}

namespace Build

@[simp] theorem program_tell (b : Build) (e : Event) : (b.tell e).program = b.program := rfl

@[simp] theorem tree_tell (b : Build) (e : Event) : (b.tell e).tree = b.tree := rfl

@[simp] theorem program_say (b : Build) (level : LogLevel) (message : String) :
    (b.say level message).program = b.program := rfl

@[simp] theorem tree_say (b : Build) (level : LogLevel) (message : String) :
    (b.say level message).tree = b.tree := rfl

@[simp] theorem program_sayAll (b : Build) (lines : List LogLine) :
    (b.sayAll lines).program = b.program := rfl

@[simp] theorem tree_sayAll (b : Build) (lines : List LogLine) : (b.sayAll lines).tree = b.tree :=
  rfl

@[simp] theorem program_mark (b : Build) (id : UnitId) (ms : List Marker) :
    (b.mark id ms).program = b.program.mark id ms := rfl

@[simp] theorem tree_mark (b : Build) (id : UnitId) (ms : List Marker) :
    (b.mark id ms).tree = b.tree := rfl

@[simp] theorem program_modifyUnit (b : Build) (id : UnitId) (f : SourceUnit → SourceUnit) :
    (b.modifyUnit id f).program = b.program.modifyUnit id f := rfl

@[simp] theorem tree_modifyUnit (b : Build) (id : UnitId) (f : SourceUnit → SourceUnit) :
    (b.modifyUnit id f).tree = b.tree := rfl

end Build

@[simp] theorem program_traceUnit (cfg : Settings) (phase : Phase) (u : SourceUnit)
  (b : Build) :
    (traceUnit cfg phase u b).program = b.program := by
  unfold traceUnit
  split <;> rfl

@[simp] theorem tree_traceUnit (cfg : Settings) (phase : Phase) (u : SourceUnit) (b : Build) :
    (traceUnit cfg phase u b).tree = b.tree := by
  unfold traceUnit
  split <;> rfl

@[simp] theorem poisoned_traceUnit (cfg : Settings) (phase : Phase) (u : SourceUnit)
    (b : Build) : (traceUnit cfg phase u b).poisoned = b.poisoned := by
  unfold traceUnit
  split <;> rfl

theorem told_traceUnit (cfg : Settings) (phase : Phase) (u : SourceUnit) (b : Build)
    (e : Event) : ∃ more, events more = [e] ∧
      (traceUnit cfg phase u b).tell e = { b with notices := b.notices ++ more } := by
  unfold traceUnit
  split
  · refine ⟨(unitTrace phase.name u).map .log ++ [.event e], ?_, ?_⟩
    · simp [events, Notice.event?, List.filterMap_map, Function.comp_def]
    · simp [Build.tell, Build.sayAll]
  · exact ⟨[.event e], rfl, rfl⟩

theorem runUnit_of_ok {cfg : Settings} {phase : Phase} {b c : Build}
    (h : phase.run cfg u b = (.ok (), c)) : runUnit cfg phase u b = c := by
  unfold runUnit
  rw [h]

theorem runUnit_of_error {cfg : Settings} {phase : Phase} {b c : Build} {e : Error}
    (h : phase.run cfg u b = (.error e, c)) :
    (runUnit cfg phase u b).program =
      c.program.mark u.id [.generic s!"Internal error in phase `{phase.name}`" e.message] := by
  unfold runUnit
  rw [h]
  rfl

/-! ### The loop over the queued units -/

theorem ne_none_of_queued {us : Units} (hw : us.WellFormed) {k : ℕ} {id : UnitId}
    (hk : us.order[k]? = some id) : us.get? id ≠ none :=
  Option.isSome_iff_ne_none.mp (hw.queued id (List.mem_of_getElem? hk))

theorem Program.Grows.get?_of_getD {p q : Program} (h : p.Grows q) {i : UnitId} {w : SourceUnit}
    (hu : p.get? i = some u) (hw : (q.get? i).getD u = w) :
    q.get? i = some w := by
  obtain ⟨v, hv, -⟩ := h.units i u hu
  rw [hv] at hw ⊢
  exact congrArg some hw

/-- A compilation ahead of its first phase. -/
def opening (p : Program) (tree : FileTree) : Build :=
  ({ program := p.reset, tree } : Build).tell
    (.start p.reset.all.length p.reset.order.length)

/-- The turn at position `k` of the queue: `fails` tells whether it leaves errors, and `c` is
the build when it is over. -/
inductive UnitTurn (cfg : Settings) (slot : Slot) (k : ℕ) (b : Build) : Bool → Build → Prop
  | unknown {id : UnitId} (hid : b.order[k]? = some id)
    (hu : b.get? id = none) : UnitTurn cfg slot k b false b
  | skipped {id : UnitId} {u : SourceUnit} (hid : b.order[k]? = some id)
    (hu : b.get? id = some u) (ha : slot.phase.accepts u = false) :
    UnitTurn cfg slot k b false (b.tell (.unitSkipped slot.name u.identifier))
  /-- The unit is worked on, and what it has become, `w`, is traced and told. -/
  | taken {id : UnitId} {u w : SourceUnit} {c : Build} {fails : Bool}
    (hid : b.order[k]? = some id) (hu : b.get? id = some u)
    (ha : slot.phase.accepts u = true)
    (hc : runUnit cfg slot.phase u (b.tell (.unitStart slot.name u.identifier)) = c)
    (hw : (c.get? id).getD u = w) (hfails : w.hasErrors = fails) :
    UnitTurn cfg slot k b fails ((traceUnit cfg slot.phase w c).tell
      (if fails then .unitFailure slot.name w.identifier else .unitSuccess slot.name w.identifier))

section Loop

variable {fails failed : Bool} {c b : Build} {slots : Pipeline} {cfg : Settings} {slot : Slot}
  {steps k : ℕ} {I : Build → Prop}

theorem runUnits_of_none (h : b.order[k]? = none) :
    runUnits cfg slot steps k failed b = (failed, b) := by
  cases steps with
  | zero => rfl
  | succ steps => rw [runUnits, h]

/-- A turn is a step of the loop: it ends at an error that aborts it, or goes on at the next
position, where it remembers whether there was an error. -/
theorem runUnits_of_turn (h : UnitTurn cfg slot k b fails c) (steps : ℕ) (failed : Bool) :
    runUnits cfg slot (steps + 1) k failed b =
      if fails && slot.abortOnError then (true, c)
      else runUnits cfg slot steps (k + 1) (failed || fails) c := by
  cases h with
  | unknown hid hu => simp [runUnits, hid, hu]
  | skipped hid hu ha => simp [runUnits, hid, hu, ha]
  | taken hid hu ha hc hw hfails =>
    subst hc hw
    rw [runUnits]
    simp only [hid, hu, ha, Bool.not_true, Bool.false_eq_true, if_false, hfails]
    cases fails <;> simp

variable (cfg slot)

/-- **One step of a phase**: it ends behind the last unit, or a unit has its turn. -/
theorem runUnits_cases (k : ℕ) (b : Build) :
    (b.order[k]? = none ∧
      ∀ steps failed, runUnits cfg slot steps k failed b = (failed, b)) ∨
    ∃ fails c, UnitTurn cfg slot k b fails c ∧
      ∀ steps failed, runUnits cfg slot (steps + 1) k failed b =
        if fails && slot.abortOnError then (true, c)
        else runUnits cfg slot steps (k + 1) (failed || fails) c := by
  cases hid : b.order[k]? with
  | none => exact .inl ⟨rfl, fun _ _ => runUnits_of_none hid⟩
  | some id =>
    have hturn : ∃ fails c, UnitTurn cfg slot k b fails c := by
      cases hu : b.get? id with
      | none => exact ⟨_, _, .unknown hid hu⟩
      | some u =>
        cases ha : slot.phase.accepts u with
        | false => exact ⟨_, _, .skipped hid hu ha⟩
        | true => exact ⟨_, _, .taken hid hu ha rfl rfl rfl⟩
    obtain ⟨fails, c, hturn⟩ := hturn
    exact .inr ⟨fails, c, hturn, runUnits_of_turn hturn⟩

variable {cfg slot}

/-- **A loop that is over** does not go on with more steps. -/
theorem runUnits_more (more : ℕ)
    (h : (runUnits cfg slot steps k failed b).2.units.order.length ≤ k + steps) :
    runUnits cfg slot (steps + more) k failed b =
      runUnits cfg slot steps k failed b := by
  -- the bound speaks of the queue as it is in the end, so a step passes it on to the rest
  induction steps generalizing k failed b with
  | zero => exact runUnits_of_none (List.getElem?_eq_none_iff.mpr h)
  | succ steps ih =>
    rw [Nat.add_right_comm]
    rcases runUnits_cases cfg slot k b with ⟨-, hstep⟩ | ⟨fails, c, -, hstep⟩
    · rw [hstep, hstep]
    rw [hstep] at h
    rw [hstep, hstep]
    split at h
    · rename_i hstop
      rw [if_pos hstop, if_pos hstop]
    · rename_i hgo
      rw [if_neg hgo, if_neg hgo]
      exact ih (by omega)

theorem runUnits_of_over (more : ℕ)
    (h : (runPhase cfg slot b).2.units.order.length ≤ queueBound cfg b) :
    runUnits cfg slot (queueBound cfg b + more) 0 false (b.tell (.phaseStart slot.name)) =
      runUnits cfg slot (queueBound cfg b) 0 false (b.tell (.phaseStart slot.name)) :=
  runUnits_more more (by rw [Nat.zero_add]; exact h)

theorem UnitTurn.keeps (htold : ∀ (b : Build) notices, I b → I { b with notices })
    (hrun : ∀ id u (b : Build), id ∈ b.order → b.get? id = some u →
      I b → I (runUnit cfg slot.phase u b))
    (h : UnitTurn cfg slot k b fails c) (hb : I b) : I c := by
  cases h with
  | unknown => exact hb
  | skipped => exact htold _ _ hb
  | taken hid hu _ hc =>
    obtain ⟨more, -, heq⟩ := told_traceUnit cfg slot.phase _ _ _
    exact heq ▸ htold _ _ (hc ▸ hrun _ _ (b.tell _) (List.mem_of_getElem? hid) hu (htold _ _ hb))

theorem runUnits_keeps_build (htold : ∀ (b : Build) notices, I b → I { b with notices })
    (hrun : ∀ id u (b : Build), id ∈ b.order → b.get? id = some u →
      I b → I (runUnit cfg slot.phase u b)) (steps k : ℕ) (failed : Bool) (h : I b) :
    I (runUnits cfg slot steps k failed b).2 := by
  induction steps generalizing k failed b with
  | zero => exact h
  | succ steps ih =>
    rcases runUnits_cases cfg slot k b with ⟨-, hstep⟩ | ⟨fails, c, hturn, hstep⟩
    · rw [hstep]
      exact h
    · have hc := hturn.keeps htold hrun h
      rw [hstep]
      split
      · exact hc
      · exact ih _ _ hc

theorem runUnits_keeps {I : Program → Prop}
    (hrun : ∀ id u (b : Build), id ∈ b.order → b.get? id = some u →
      I b.program → I (runUnit cfg slot.phase u b).program) (steps k : ℕ) (failed : Bool)
    (h : I b.program) : I (runUnits cfg slot steps k failed b).2.program :=
  runUnits_keeps_build (I := fun b => I b.program) (fun _ _ h => h) hrun steps k failed h

theorem runUnits_grows
    (hg : ∀ u (b : Build), b.program.Grows (runUnit cfg slot.phase u b).program)
    (steps k : ℕ) (failed : Bool) (b : Build) :
    b.program.Grows (runUnits cfg slot steps k failed b).2.program :=
  runUnits_keeps (I := b.program.Grows) (fun _ u c _ _ h => h.trans (hg u c)) steps k failed
    (.refl _)

variable (cfg slot)

/-- **The induction of the loop.** A property of position and build, whatever the build
has told so far, that each step takes one position further holds where the loop ends:
behind the last queued unit, or where an aborting phase met an error, or where the steps
ran out. -/
theorem runUnits_induct {I : ℕ → Build → Prop}
    (htold : ∀ k (b : Build) notices, I k b → I k { b with notices })
    (hwf : ∀ k (b : Build), I k b → b.WellFormed)
    (hskipped : ∀ k (b : Build) id u, b.order[k]? = some id →
      b.get? id = some u → slot.phase.accepts u = false → I k b → I (k + 1) b)
    (hrun : ∀ k (b : Build) id u, b.order[k]? = some id →
      b.get? id = some u → slot.phase.accepts u = true → I k b →
      I (k + 1) (runUnit cfg slot.phase u b)) :
    ∀ (steps k : ℕ) (failed : Bool) (b : Build), I k b →
      ∃ n, I n (runUnits cfg slot steps k failed b).2 ∧
        ((runUnits cfg slot steps k failed b).2.units.order.length ≤ n ∨
          n = k + steps ∨
          ((runUnits cfg slot steps k failed b).1 = true ∧ slot.abortOnError = true)) := by
  intro steps
  induction steps with
  | zero =>
    intro k failed b h
    exact ⟨k, h, .inr (.inl rfl)⟩
  | succ steps ih =>
    intro k failed b h
    rcases runUnits_cases cfg slot k b with ⟨hid, hstep⟩ | ⟨fails, c, hturn, hstep⟩
    · rw [hstep]
      exact ⟨k, h, .inl (List.getElem?_eq_none_iff.mp hid)⟩
    · have hc : I (k + 1) c := by
        cases hturn with
        | unknown hid hu => exact absurd hu (ne_none_of_queued (hwf _ _ h) hid)
        | skipped hid hu ha => exact htold _ _ _ (hskipped k b _ _ hid hu ha h)
        | taken hid hu ha hc =>
          obtain ⟨more, -, heq⟩ := told_traceUnit cfg slot.phase _ _ _
          exact heq ▸ htold _ _ _ (hc ▸ hrun k (b.tell _) _ _ hid hu ha (htold _ _ _ h))
      rw [hstep]
      split
      · rename_i hstop
        exact ⟨k + 1, hc, .inr (.inr ⟨rfl, (Bool.and_eq_true_iff.mp hstop).2⟩)⟩
      · obtain ⟨n, hn, hend⟩ := ih (k + 1) (failed || fails) c hc
        exact ⟨n, hn, hend.imp_right (Or.imp_left fun h => by omega)⟩

variable {cfg}

theorem runPipeline_keeps_build (htold : ∀ (b : Build) notices, I b → I { b with notices })
    (hphase : ∀ slot ∈ slots, ∀ b, I b → I (runPhase cfg slot b).2) (h : I b) :
    I (runPipeline cfg slots b).2 := by
  induction slots generalizing b with
  | nil => exact h
  | cons slot slots ih =>
    have hafter := hphase slot List.mem_cons_self b h
    rw [runPipeline]
    split
    · exact htold _ _ (htold _ _ h)
    · simp only
      split
      · exact hafter
      · split
        · exact htold _ _ hafter
        · exact ih (fun s hs => hphase s (List.mem_cons_of_mem _ hs)) hafter

theorem runPipeline_keeps {I : Program → Prop}
    (hrun : ∀ slot ∈ slots, ∀ id u (b : Build), id ∈ b.order →
      b.get? id = some u → I b.program → I (runUnit cfg slot.phase u b).program)
    (h : I b.program) : I (runPipeline cfg slots b).2.program :=
  runPipeline_keeps_build (I := fun b => I b.program) (fun _ _ hb => hb)
    (fun slot hslot b hb => runUnits_keeps (hrun slot hslot) (queueBound cfg b) 0 false
      (b := b.tell (.phaseStart slot.name)) hb) h

end Loop

/-! ### Passes without errors -/

/-- What every phase of a build does and leaves alone: it passes over units with
errors, lets the program grow, and does not touch the files. -/
structure Phase.Steady (phase : Phase) (cfg : Settings) : Prop where
  accepts : ∀ u, phase.accepts u = !u.hasErrors
  grows : ∀ u (b : Build), b.program.Grows (phase.run cfg u b).2.program
  tree : ∀ u (b : Build), (phase.run cfg u b).2.tree = b.tree

/-- A phase whose work depends on the program and the files only. -/
structure Phase.Quiet (phase : Phase) (cfg : Settings) : Prop extends
    phase.Steady cfg where
  outcome : ∀ u (b : Build), (phase.run cfg u b).1 =
    (phase.run cfg u { program := b.program, tree := b.tree }).1
  program : ∀ u (b : Build), (phase.run cfg u b).2.program =
    (phase.run cfg u { program := b.program, tree := b.tree }).2.program

/-- A phase has passed from position `k` on over the program `p`, which is `q`
then, without a breakdown or an error at any time. -/
inductive Passes (cfg : Settings) (tree : FileTree) (phase : Phase) :
    ℕ → Program → Program → Prop
  | done {k : ℕ} {p : Program} (hk : p.order[k]? = none) (hp : p.hasErrors = false) :
    Passes cfg tree phase k p p
  | visit {k : ℕ} {p q : Program} {id : UnitId} {u : SourceUnit} {c : Build}
    (hk : p.order[k]? = some id) (hu : p.get? id = some u)
    (hp : p.hasErrors = false) (hrun : phase.run cfg u { program := p, tree } = (.ok (), c))
    (next : Passes cfg tree phase (k + 1) c.program q) : Passes cfg tree phase k p q

section Runs

variable {slot : Slot} {id : UnitId} {q p : Program} {cfg : Settings} {phase : Phase}
  {b : Build} {tree : FileTree} {u : SourceUnit} {k : ℕ}

theorem runUnit_keeps (hmark : ∀ p title message, I p → I (p.mark u.id [.generic title message]))
    (h : I (phase.run cfg u b).2.program) : I (runUnit cfg phase u b).program := by
  rcases hr : phase.run cfg u b with ⟨_ | _, c⟩ <;> rw [hr] at h
  · rw [runUnit_of_error hr]
    exact hmark _ _ _ h
  · rwa [runUnit_of_ok hr]

theorem grows_runUnit (hg : b.program.Grows (phase.run cfg u b).2.program) :
    b.program.Grows (runUnit cfg phase u b).program :=
  runUnit_keeps (I := b.program.Grows) (fun _ _ _ hp => hp.trans (Program.grows_mark _ _ _)) hg

theorem Phase.Steady.grows_runUnit (hs : phase.Steady cfg) (u : SourceUnit) (b : Build) :
    b.program.Grows (runUnit cfg phase u b).program :=
  WordAsm.grows_runUnit (hs.grows u b)

theorem Phase.Steady.tree_runUnit (hs : phase.Steady cfg) (u : SourceUnit) (b : Build) :
    (runUnit cfg phase u b).tree = b.tree := by
  have ht := hs.tree u b
  unfold runUnit
  split <;> simp_all

/-- What is still the program `p` among the files `tree`, but for what was added, is so behind
a run. -/
theorem Phase.Steady.grown (hs : phase.Steady cfg) (u : SourceUnit) (b : Build)
    (h : p.Grows b.program ∧ b.tree = tree) :
    p.Grows (runUnit cfg phase u b).program ∧ (runUnit cfg phase u b).tree = tree :=
  ⟨h.1.trans (hs.grows_runUnit u b), (hs.tree_runUnit u b).trans h.2⟩

theorem UnitTurn.grows (hs : slot.phase.Steady cfg) {c : Build} {fails : Bool}
    (h : UnitTurn cfg slot k b fails c) : b.program.Grows c.program ∧ c.tree = b.tree :=
  h.keeps (I := fun c => b.program.Grows c.program ∧ c.tree = b.tree) (fun _ _ hc => hc)
    (fun _ u c _ _ hc => hs.grown u c hc) ⟨.refl _, rfl⟩

theorem grows_runUnits (slot : Slot) (hs : slot.phase.Steady cfg) (steps k : ℕ) (failed : Bool)
    (b : Build) : b.program.Grows (runUnits cfg slot steps k failed b).2.program ∧
      (runUnits cfg slot steps k failed b).2.tree = b.tree :=
  runUnits_keeps_build (I := fun c => b.program.Grows c.program ∧ c.tree = b.tree)
    (fun _ _ hc => hc) (fun _ u c _ _ hc => hs.grown u c hc) steps k failed ⟨.refl _, rfl⟩

theorem ok_of_grows (hg : b.program.Grows (phase.run cfg u b).2.program)
    (hw : b.WellFormed) (hu : b.get? id = some u)
    (hc : (runUnit cfg phase u b).hasErrors = false) :
    phase.run cfg u b = (.ok (), runUnit cfg phase u b) := by
  rcases hr : phase.run cfg u b with ⟨outcome, c⟩
  cases outcome with
  | ok _ => rw [runUnit_of_ok hr]
  | error e =>
    rw [runUnit_of_error hr] at hc
    rw [hr] at hg
    have hid : u.id = id := hw.numbered id u hu
    obtain ⟨v, hv, -⟩ := hg.units id u hu
    have hget := Units.get?_modify_self c.units id
      (·.markAll [.generic s!"Internal error in phase `{phase.name}`" e.message])
    rw [hv] at hget
    rw [hid] at hc
    have hfalse := Program.noErrors_get? hc hget
    rw [SourceUnit.hasErrors_markAll] at hfalse
    simp [Marker.generic, Marker.isError] at hfalse

/-- **A phase that leaves no errors has passed.** The number of steps is enough
if it covers a bound on the queue that no run raises. -/
theorem passes_of_runUnits (hq : slot.phase.Quiet cfg) {bound : Program → ℕ}
    (hlen : ∀ p : Program, p.order.length ≤ bound p)
    (hbound : ∀ (u : SourceUnit) (p : Program), p.WellFormed → p.get? u.id = some u →
      bound (slot.phase.run cfg u { program := p, tree }).2.program ≤ bound p) :
    ∀ (steps k : ℕ) (failed : Bool) (b : Build), b.tree = tree → b.WellFormed →
      bound b.program ≤ k + steps →
      (runUnits cfg slot steps k failed b).2.hasErrors = false →
      Passes cfg tree slot.phase k b.program (runUnits cfg slot steps k failed
        b).2.program := by
  intro steps
  induction steps with
  | zero =>
    intro k failed b _ _ hk he
    refine .done (List.getElem?_eq_none_iff.mpr ?_) he
    exact Nat.le_trans (hlen b.program) hk
  | succ steps ih =>
    intro k failed b ht hw hk he
    rcases runUnits_cases cfg slot k b with ⟨hid, hstep⟩ | ⟨fails, c, hturn, hstep⟩
    · rw [hstep] at he ⊢
      exact .done hid he
    obtain ⟨hgrows, htree⟩ := hturn.grows hq.toSteady
    have hwc := hgrows.wellFormed hw
    rw [hstep] at he ⊢
    -- what is without errors in the end has none behind this turn
    have hclean : c.hasErrors = false := by
      split at he
      · exact he
      · exact (grows_runUnits slot hq.toSteady steps (k + 1) _ c).1.noErrors he
    cases hturn with
    | unknown hid hu => exact absurd hu (ne_none_of_queued hw hid)
    | skipped hid hu ha =>
      rw [hq.accepts, Program.noErrors_get? (p := b.program) hclean hu] at ha
      cases ha
    | @taken id u w c fails hid hu ha hc hget hfails =>
      obtain rfl : u.id = id := hw.numbered id u hu
      obtain ⟨more, -, htold⟩ := told_traceUnit cfg slot.phase w c _
      rw [htold] at hgrows htree hwc he hclean ⊢
      obtain rfl : fails = false :=
        hfails.symm.trans (Program.noErrors_get? hclean (hgrows.get?_of_getD hu hget))
      have hok := ok_of_grows (hq.grows u (b.tell (.unitStart slot.name u.identifier))) hw hu
        (hc ▸ hclean)
      have houtcome := hq.outcome u (b.tell (.unitStart slot.name u.identifier))
      have hprogram := hq.program u (b.tell (.unitStart slot.name u.identifier))
      rw [hok, Build.program_tell, Build.tree_tell, ht] at houtcome hprogram
      rw [hc] at hprogram
      have hle := hbound u b.program hw hu
      rw [← hprogram] at hle
      refine .visit (c := (slot.phase.run cfg u { program := b.program, tree }).2) hid hu
        (hgrows.noErrors hclean) (Prod.ext houtcome.symm rfl) ?_
      rw [← hprogram]
      exact ih (k + 1) _ _ (htree.trans ht) hwc (Nat.le_trans hle (by omega)) he

/-! ### What passes do to programs -/

theorem Passes.noErrors (h : Passes cfg tree phase k p q) : q.hasErrors = false := by
  induction h with
  | done _ hp => exact hp
  | visit _ _ _ _ _ ih => exact ih

theorem Passes.noErrors_first (h : Passes cfg tree phase k p q) : p.hasErrors = false := by
  cases h with
  | done _ hp | visit _ _ hp => exact hp

theorem Passes.grows (hs : phase.Steady cfg) (h : Passes cfg tree phase k p q) :
    p.Grows q := by
  induction h with
  | done _ _ => exact Program.Grows.refl _
  | @visit _ p _ _ u _ _ _ _ hrun _ ih =>
    have hg := hs.grows u { program := p, tree }
    rw [hrun] at hg
    exact hg.trans ih

/-- **The induction of a pass.** A property of position and program that every
visit takes one position further holds at the end, behind the last queued unit.
A visit knows that the program grows into the one at the end. -/
theorem Passes.induct (hs : phase.Steady cfg) {I : ℕ → Program → Prop}
    (h : Passes cfg tree phase k p q) (h0 : I k p)
    (hvisit : ∀ k p id u c, p.order[k]? = some id → p.get? id = some u →
      p.hasErrors = false → phase.run cfg u { program := p, tree } = (.ok (), c) →
      c.hasErrors = false → p.Grows c.program → c.program.Grows q → I k p →
      I (k + 1) c.program) : ∃ n, q.order.length ≤ n ∧ I n q := by
  induction h with
  | done hk _ => exact ⟨_, List.getElem?_eq_none_iff.mp hk, h0⟩
  | @visit _ p _ _ u _ hk hu hp hrun next ih =>
    have hg := hs.grows u { program := p, tree }
    rw [hrun] at hg
    exact ih (hvisit _ _ _ _ _ hk hu hp hrun next.noErrors_first hg (next.grows hs) h0) hvisit

end Runs

end WordAsm
