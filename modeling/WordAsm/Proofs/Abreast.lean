/-
# Two builds abreast

A phase is run on two builds, perhaps under different settings. If every pair of runs keeps
a relation between the builds, so does the loop over the units: the two loops take the same
turns and come to the same end (`Abreast.runUnits`). What a pipeline makes of two builds
follows phase by phase (`runPipeline_abreast`).

The program that the first loop ends with may be known to have a property `E`. The programs
on the way grow into it, and a run may assume what that says of them, `D`. In between the
queue of the second build may be ahead of the first.
-/
import WordAsm.Proofs.Passes
import WordAsm.Proofs.TablePairs

namespace WordAsm

open List

/-- Units of one name that a phase takes or passes over alike; both have errors or neither. -/
structure Phase.Likens (phase : Phase) (u u' : SourceUnit) : Prop where
  identifier : u'.identifier = u.identifier
  accepts : phase.accepts u' = phase.accepts u
  hasErrors : u'.hasErrors = u.hasErrors

/-- The same outcome on both sides, and builds that are related by `J`. -/
abbrev InStep {α : Type} (J : Build → Build → Prop) (r r' : α × Build) : Prop :=
  r'.1 = r.1 ∧ J r.2 r'.2

/-- The runs of a phase keep the relation `J` between two builds. -/
structure Abreast (cfg cfg' : Settings) (slot : Slot) (D E : Program → Prop)
    (J : Build → Build → Prop) : Prop where
  grows : ∀ u (b : Build), b.program.Grows (runUnit cfg slot.phase u b).program
  onWay : ∀ p q : Program, p.Grows q → E q → D p
  told : ∀ (b b' : Build) more more', events more' = events more → J b b' →
    J { b with notices := b.notices ++ more } { b' with notices := b'.notices ++ more' }
  order : ∀ b b', J b b' → b.order <+: b'.order
  stop : ∀ b b', J b b' → E b.program → b'.order = b.order
  unit : ∀ (b b' : Build) id, J b b' → id ∈ b.order →
    Option.Rel slot.phase.Likens (b.get? id) (b'.get? id)
  run : ∀ (b b' : Build) id u u', J b b' → D (runUnit cfg slot.phase u b).program →
    id ∈ b.order → b.get? id = some u →
    b'.get? id = some u' →
    J (runUnit cfg slot.phase u b) (runUnit cfg' slot.phase u' b')

section Abreast

variable {cfg cfg' : Settings} {slot : Slot} {D E : Program → Prop}
  {J : Build → Build → Prop} {b b' : Build}

/-- **One turn** on both sides. -/
theorem Abreast.turn (h : Abreast cfg cfg' slot D E J) (hb : J b b') {k : ℕ}
    {fails : Bool} {c : Build} (hturn : UnitTurn cfg slot k b fails c) (hD : D c.program) :
    ∃ c', UnitTurn cfg' slot k b' fails c' ∧ J c c' := by
  have hqueue : ∀ {id}, b.order[k]? = some id →
      b'.order[k]? = some id := by
    intro id hid
    obtain ⟨rest, hrest⟩ := h.order b b' hb
    rw [← hrest, getElem?_append_left (List.getElem?_eq_some_iff.mp hid).1, hid]
  cases hturn with
  | unknown hid hu =>
    have hu' := rel_none (h.unit b b' _ hb (mem_of_getElem? hid)) hu
    exact ⟨b', .unknown (hqueue hid) hu', hb⟩
  | skipped hid hu ha =>
    obtain ⟨u', hu', hlike⟩ := rel_some (h.unit b b' _ hb (mem_of_getElem? hid)) hu
    refine ⟨_, .skipped (hqueue hid) hu' (hlike.accepts.trans ha), ?_⟩
    rw [hlike.identifier]
    exact h.told _ _ _ _ rfl hb
  | @taken id u w c fails hid hu ha hc hw hfails =>
    have hmem := mem_of_getElem? hid
    obtain ⟨u', hu', hlike⟩ := rel_some (h.unit b b' _ hb hmem) hu
    have hgrew := h.grows u (b.tell (.unitStart slot.name u.identifier))
    rw [Build.program_tell, program_traceUnit, ← hc] at hD
    have hafter := h.run (b.tell (.unitStart slot.name u.identifier))
      (b'.tell (.unitStart slot.name u.identifier)) id u u' (h.told _ _ _ _ rfl hb) hD hmem hu hu'
    rw [hc] at hgrew hafter
    rw [← hlike.identifier] at hafter
    -- what the unit has become is alike on both sides
    have hgetD : ∀ {x y : Option SourceUnit}, Option.Rel slot.phase.Likens x y →
        slot.phase.Likens (x.getD u) (y.getD u') := by
      rintro _ _ (hlike | _)
      · exact hlike
      · exact hlike
    have hbecome := hgetD (h.unit _ _ id hafter (hgrew.order.subset hmem))
    rw [hw] at hbecome
    refine ⟨_, .taken (hqueue hid) hu' (hlike.accepts.trans ha) rfl rfl
      (hbecome.hasErrors.trans hfails), ?_⟩
    obtain ⟨more, hmore, heq⟩ := told_traceUnit cfg slot.phase w c _
    obtain ⟨more', hmore', heq'⟩ := told_traceUnit cfg' slot.phase _ _ _
    rw [heq, heq']
    exact h.told _ _ _ _ (by rw [hmore, hmore', hbecome.identifier]) hafter

/-- **The loop over the units**, with as many steps on both sides. -/
theorem Abreast.runUnits (h : Abreast cfg cfg' slot D E J) (steps k : ℕ) (failed : Bool)
    (hb : J b b') (hE : E (runUnits cfg slot steps k failed b).2.program) :
    InStep J (WordAsm.runUnits cfg slot steps k failed b)
      (WordAsm.runUnits cfg' slot steps k failed b') := by
  induction steps generalizing k failed b b' with
  | zero => exact ⟨rfl, hb⟩
  | succ steps ih =>
    rcases runUnits_cases cfg slot k b with ⟨hid, hstep⟩ | ⟨fails, c, hturn, hstep⟩
    · rw [hstep] at hE ⊢
      rw [runUnits_of_none (by rw [h.stop b b' hb hE, hid])]
      exact ⟨rfl, hb⟩
    rw [hstep] at hE ⊢
    -- what is known of the end is known of the program behind this turn
    have hD : D c.program := by
      split at hE
      · exact h.onWay _ _ (.refl _) hE
      · exact h.onWay _ _ (runUnits_grows h.grows steps (k + 1) _ c) hE
    obtain ⟨c', hturn', hc⟩ := h.turn hb hturn hD
    rw [runUnits_of_turn hturn']
    split at hE
    · rename_i habort
      rw [if_pos habort, if_pos habort]
      exact ⟨rfl, hc⟩
    · rename_i habort
      rw [if_neg habort, if_neg habort]
      exact ih (k + 1) _ hc hE

/-- **A phase on both sides**: either the loops have the same number of steps, or both are over
when they end. -/
theorem Abreast.runPhase (h : Abreast cfg cfg' slot D E J) (hb : J b b')
    (hE : E (runPhase cfg slot b).2.program)
    (hsteps : queueBound cfg' b' = queueBound cfg b ∨
      (runPhase cfg slot b).2.units.order.length ≤ queueBound cfg b ∧
      (runPhase cfg' slot b').2.units.order.length ≤ queueBound cfg' b') :
    InStep J (WordAsm.runPhase cfg slot b) (WordAsm.runPhase cfg' slot b') := by
  have hstart : J (b.tell (.phaseStart slot.name)) (b'.tell (.phaseStart slot.name)) :=
    h.told _ _ _ _ rfl hb
  rcases hsteps with hsteps | ⟨hover, hover'⟩
  · have hloop := h.runUnits (queueBound cfg b) 0 false hstart hE
    unfold WordAsm.runPhase
    rw [hsteps]
    exact ⟨hloop.1, h.told _ _ _ _ (by rw [hloop.1]) hloop.2⟩
  · have hloop := h.runUnits (queueBound cfg b + queueBound cfg' b') 0 false hstart
      (by rw [runUnits_of_over _ hover]; exact hE)
    rw [runUnits_of_over _ hover, Nat.add_comm, runUnits_of_over _ hover'] at hloop
    exact ⟨hloop.1, h.told _ _ _ _ (by rw [hloop.1]) hloop.2⟩

section Pipeline

variable {slots : Pipeline}
  (htold : ∀ (b b' : Build) more, J b b' →
    J { b with notices := b.notices ++ more } { b' with notices := b'.notices ++ more })

include htold

theorem runPipeline_cons_abreast {slots' : Pipeline}
    (herrors : b'.hasErrors = b.hasErrors)
    (hskip : (slot.abortOnError && b.hasErrors) = true → J b b')
    (hphase : ¬ (slot.abortOnError && b.hasErrors) = true →
      InStep J (runPhase cfg slot b) (runPhase cfg' slot b'))
    (hrest : ¬ ((runPhase cfg slot b).1 && slot.abortOnError) = true →
      InStep J (runPipeline cfg slots (runPhase cfg slot b).2)
        (runPipeline cfg' slots' (runPhase cfg' slot b').2)) :
    InStep J (runPipeline cfg (slot :: slots) b)
      (runPipeline cfg' (slot :: slots') b') := by
  rw [runPipeline, runPipeline, herrors]
  split
  · exact ⟨rfl, htold _ _ _ (htold _ _ _ (hskip ‹_›))⟩
  · obtain ⟨hflag, hafter⟩ := hphase ‹_›
    simp only [hflag]
    split
    · exact ⟨rfl, hafter⟩
    · split
      · exact ⟨rfl, htold _ _ _ hafter⟩
      · exact hrest ‹_›

/-- **A pipeline on both sides.** -/
theorem runPipeline_abreast (herrors : ∀ b b', J b b' → b'.hasErrors = b.hasErrors)
    (hphase : ∀ slot ∈ slots, ∀ b b', J b b' →
      InStep J (runPhase cfg slot b) (runPhase cfg' slot b'))
    (hb : J b b') : InStep J (runPipeline cfg slots b) (runPipeline cfg' slots b') := by
  induction slots generalizing b b' with
  | nil => exact ⟨rfl, hb⟩
  | cons slot slots ih =>
    have hslot := hphase slot mem_cons_self b b' hb
    exact runPipeline_cons_abreast htold (herrors b b' hb) (fun _ => hb) (fun _ => hslot) fun _ =>
      ih (fun s hs => hphase s (mem_cons_of_mem _ hs)) hslot.2

end Pipeline

end Abreast

end WordAsm
