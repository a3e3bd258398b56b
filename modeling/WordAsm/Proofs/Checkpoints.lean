/-
# Compilations under way

A compilation can be looked at ahead of each of its phases (`stage`), and a phase
ahead of each of its units (`atPosition`). Both are what the compilation itself
computes, with fewer phases or fewer steps.

A compilation that comes as far as the validation has left no errors so far, since
the layout neither starts with errors nor ends with them (`arrival_of_stage`).
-/
import WordAsm.Proofs.Outcome

namespace WordAsm

open List

/-- The first `n` phases of a compilation: whether errors cut them short, and the
build that they leave. -/
def stage (cfg : Settings) (p : Program) (tree : FileTree) (n : ℕ) : Bool × Build :=
  runPipeline cfg (Pipeline.standard.take n) (opening p tree)

/-- The build `b` when a phase on it has come to position `k` of the order. -/
def atPosition (cfg : Settings) (slot : Slot) (b : Build) (k : ℕ) : Build :=
  (runUnits cfg slot k 0 false (b.tell (.phaseStart slot.name))).2

/-! ### Some of the steps -/

section Steps

variable {cfg : Settings} {slot : Slot}

theorem runUnits_failed (steps k : ℕ) (b : Build) :
    (runUnits cfg slot steps k true b).1 = true := by
  induction steps generalizing k b with
  | zero => rfl
  | succ steps ih =>
    rcases runUnits_cases cfg slot k b with ⟨-, hstep⟩ | ⟨fails, c, -, hstep⟩
    · rw [hstep]
    · rw [hstep, Bool.true_or]
      split
      · rfl
      · exact ih _ _

/-- **Some steps and then some more**, if none of them fails. -/
theorem runUnits_add (m n : ℕ) {k : ℕ} {failed : Bool} {b : Build}
    (h : (runUnits cfg slot (m + n) k failed b).1 = false) :
    (runUnits cfg slot m k failed b).1 = false ∧
      runUnits cfg slot (m + n) k failed b =
        runUnits cfg slot n (k + m) false (runUnits cfg slot m k failed b).2 := by
  induction m generalizing k failed b with
  | zero =>
    cases failed with
    | false => exact ⟨rfl, by rw [Nat.zero_add]; rfl⟩
    | true => rw [runUnits_failed] at h; cases h
  | succ m ih =>
    rcases runUnits_cases cfg slot k b with ⟨hk, hstep⟩ | ⟨fails, c, -, hstep⟩
    · have hbehind : b.order[k + (m + 1)]? = none := by
        rw [List.getElem?_eq_none_iff] at hk ⊢
        omega
      rw [hstep] at h ⊢
      rw [hstep, runUnits_of_none hbehind]
      exact ⟨h, congrArg (·, b) h⟩
    · rw [Nat.add_right_comm, hstep] at h ⊢
      rw [hstep]
      split at h
      · cases h
      · rename_i hgo
        rw [if_neg hgo, if_neg hgo, show k + (m + 1) = k + 1 + m by omega]
        exact ih h

theorem runPipeline_append {slots slots' : Pipeline}
    (hstop : ∀ slot ∈ slots, slot.stopAfter = false) (b : Build) :
    runPipeline cfg (slots ++ slots') b =
      if (runPipeline cfg slots b).1 then runPipeline cfg slots b
      else runPipeline cfg slots' (runPipeline cfg slots b).2 := by
  induction slots generalizing b with
  | nil => rfl
  | cons slot slots ih =>
    have hslot := hstop slot mem_cons_self
    rw [cons_append, runPipeline, runPipeline]
    split
    · rfl
    · simp only
      split
      · rfl
      · rw [hslot]
        exact ih (fun s hs => hstop s (mem_cons_of_mem _ hs)) _

end Steps

/-! ### Phases that work on one unit at a time -/

/-- A phase that changes the unit at hand and the symbols, but no other unit and not
the order. -/
structure Phase.Unitwise (phase : Phase) (cfg : Settings)
    (change : SourceUnit → SyntaxTree → Program → Program) : Prop
    extends phase.Treewise cfg change where
  order : ∀ u nodes p, (change u nodes p).order = p.order
  others : ∀ (u : SourceUnit) nodes p i, u.id ≠ i →
    (change u nodes p).get? i = p.get? i

theorem layoutPhase_unitwise (cfg : Settings) :
    layoutPhase.Unitwise cfg (Program.laid cfg) :=
  ⟨layoutPhase_treewise cfg, fun _ _ _ => rfl, fun _ _ _ _ h => Units.get?_modify_of_ne _ _ h⟩

namespace Phase.Unitwise

variable {b : Build} {u : SourceUnit} {k : ℕ} {cfg : Settings} {slot : Slot}
  {change : SourceUnit → SyntaxTree → Program → Program} (h : slot.phase.Unitwise cfg change)

include h

theorem noErrors_runUnit (hb : b.hasErrors = false)
    (he : (((runUnit cfg slot.phase u b).get? u.id).getD u).hasErrors = false) :
    (runUnit cfg slot.phase u b).hasErrors = false := by
  have hothers : ∀ i, u.id ≠ i →
      (runUnit cfg slot.phase u b).get? i = b.get? i := by
    intro i hi
    cases htree : u.tree with
    | none =>
      obtain ⟨e, hrun⟩ := h.treeless u htree
      rw [runUnit_of_error (hrun b)]
      exact Units.get?_modify_of_ne _ _ hi
    | some nodes =>
      have hok := h.outcome u b nodes htree
      rw [runUnit_of_ok (Prod.ext hok rfl), h.program u b nodes htree]
      exact h.others u nodes b.program i hi
  refine Program.noErrors_iff.mpr fun i v hv => ?_
  by_cases hi : u.id = i
  · subst hi
    rw [hv] at he
    exact he
  · rw [hothers i hi] at hv
    exact Program.noErrors_get? hb hv

theorem noErrors_runUnits (steps : ℕ) {failed : Bool} (hw : b.WellFormed)
    (hb : b.hasErrors = false) (hgo : (runUnits cfg slot steps k failed b).1 = false) :
    (runUnits cfg slot steps k failed b).2.hasErrors = false := by
  induction steps generalizing k failed b with
  | zero => exact hb
  | succ steps ih =>
    rcases runUnits_cases cfg slot k b with ⟨-, hstep⟩ | ⟨fails, c, hturn, hstep⟩
    · rw [hstep]
      exact hb
    have hwc := (hturn.grows h.quiet.toSteady).1.wellFormed hw
    rw [hstep] at hgo ⊢
    cases hfails : fails with
    | true =>
      -- the failure would be told in the end
      rw [hfails, Bool.or_true] at hgo
      split at hgo
      · cases hgo
      · rw [runUnits_failed] at hgo
        cases hgo
    | false =>
      rw [hfails, Bool.false_and, if_neg Bool.false_ne_true] at hgo
      refine ih hwc ?_ hgo
      cases hturn with
      | unknown | skipped => exact hb
      | @taken id u w c _ _ hu _ hc hget hclean =>
        rw [hfails, ← hget, ← hc, ← hw.numbered id u hu] at hclean
        rw [Build.program_tell, program_traceUnit, ← hc]
        exact h.noErrors_runUnit (b := b.tell _) hb hclean

theorem program_runUnits_one {c : Build} {nodes : SyntaxTree} (ht : c.At k u nodes)
    (he : u.hasErrors = false) (failed : Bool) :
    (runUnits cfg slot 1 k failed c).2.program = change u nodes c.program := by
  have hrun : ∀ b : Build,
      (runUnit cfg slot.phase u b).program = change u nodes b.program := by
    intro b
    rw [runUnit_of_ok (Prod.ext (h.outcome u b nodes ht.tree) rfl), h.program u b nodes ht.tree]
  rw [runUnits_of_turn (.taken ht.queued ht.unit (by rw [h.accepts, he]; rfl) rfl rfl rfl)]
  split <;> simp [runUnits, hrun]

theorem order_atPosition (b : Build) (k : ℕ) :
    (atPosition cfg slot b k).order = b.order := by
  refine runUnits_keeps (I := fun p => p.order = b.order)
    (fun _ u c _ _ hc => ?_) k 0 false (b := b.tell (.phaseStart slot.name)) rfl
  cases htree : u.tree with
  | none =>
    obtain ⟨e, hrun⟩ := h.treeless u htree
    rw [runUnit_of_error (hrun c)]
    exact hc
  | some nodes =>
    rw [runUnit_of_ok (Prod.ext (h.outcome u c nodes htree) rfl), h.program u c nodes htree,
      h.order]
    exact hc

/-- **The passes of a phase from any position on.** What every visit takes one
position further holds wherever the phase stands. -/
theorem passes_at (hw : b.WellFormed) (hgo : (runPhase cfg slot b).1 = false)
    (hpasses : Passes cfg b.tree slot.phase 0 b.program (runPhase cfg slot b).2.program)
    {I : ℕ → Program → Prop} (h0 : I 0 b.program)
    (hvisit : ∀ k p u nodes, p.WellFormed → p.At k u nodes →
      (change u nodes p).hasErrors = false → I k p → I (k + 1) (change u nodes p)) :
    ∀ k ≤ b.order.length,
      (atPosition cfg slot b k).WellFormed ∧
      I k (atPosition cfg slot b k).program ∧
      Passes cfg b.tree slot.phase k (atPosition cfg slot b k).program
        (runPhase cfg slot b).2.program := by
  intro k
  induction k with
  | zero => exact fun _ => ⟨hw, h0, hpasses⟩
  | succ k ih =>
    intro hk
    obtain ⟨hwk, hI, hrest⟩ := ih (Nat.le_of_succ_le hk)
    have horder := h.order_atPosition b k
    generalize hc : (atPosition cfg slot b k).program = p at horder hwk hI hrest
    cases hrest with
    | done hbehind _ =>
      rw [horder, List.getElem?_eq_none_iff] at hbehind
      omega
    | @visit _ _ _ id u c hid hu hp hrun next =>
      obtain rfl : u.id = id := hwk.numbered id u hu
      obtain ⟨nodes, htree, heq⟩ := h.visit hrun
      -- `k + 1` steps of the phase are `k` steps and one more
      have hbound : k + 1 ≤ queueBound cfg b := by
        unfold queueBound
        omega
      have hsteps : (runUnits cfg slot (k + 1) 0 false
          (b.tell (.phaseStart slot.name))).1 = false := by
        refine (runUnits_add (k + 1) (queueBound cfg b - (k + 1)) ?_).1
        rw [Nat.add_sub_cancel' hbound]
        exact hgo
      have hstep : (atPosition cfg slot b (k + 1)).program = change u nodes p := by
        subst hc
        unfold atPosition
        rw [(runUnits_add k 1 hsteps).2, Nat.zero_add]
        exact h.program_runUnits_one ⟨hid, hu, htree⟩ (Program.noErrors_get? hp hu) false
      rw [hstep]
      rw [heq] at next
      exact ⟨(h.grows u nodes _).wellFormed hwk,
        hvisit k _ u nodes hwk ⟨hid, hu, htree⟩ next.noErrors_first hI, next⟩

end Phase.Unitwise

/-! ### Coming as far as the validation -/

/-- The layout in the standard pipeline. -/
def layoutSlot : Slot := { phase := layoutPhase, abortOnError := true }

/-- The validation in the standard pipeline. -/
def validationSlot : Slot := { phase := validationPhase }

section Stage

variable {n : ℕ} {cfg : Settings} {p : Program} {tree : FileTree}

theorem standard_goes_on : ∀ slot ∈ Pipeline.standard, slot.stopAfter = false := by
  simp [Pipeline.standard]

theorem stage_add_one (slot : Slot) (hslot : Pipeline.standard[n]? = some slot) :
    stage cfg p tree (n + 1) = if (stage cfg p tree n).1 then stage cfg p tree n
      else runPipeline cfg [slot] (stage cfg p tree n).2 := by
  unfold stage
  rw [take_add_one, hslot]
  exact runPipeline_append
    (fun slot h => standard_goes_on slot (mem_of_mem_take h)) _

/-- **One more phase.** If the phases are not cut short with it, they were not
without it, and it ran. -/
theorem stage_succ (slot : Slot) (hslot : Pipeline.standard[n]? = some slot)
    (hgo : (stage cfg p tree (n + 1)).1 = false) :
    (stage cfg p tree n).1 = false ∧
      (slot.abortOnError = true → (stage cfg p tree n).2.hasErrors = false ∧
        (runPhase cfg slot (stage cfg p tree n).2).1 = false) ∧
      (stage cfg p tree (n + 1)).2 =
        (runPhase cfg slot (stage cfg p tree n).2).2 := by
  have hlast : stage cfg p tree (n + 1) =
      if (stage cfg p tree n).1 then stage cfg p tree n
      else runPipeline cfg [slot] (stage cfg p tree n).2 := stage_add_one slot hslot
  cases hcut : (stage cfg p tree n).1 with
  | true =>
    rw [hlast, hcut, if_pos rfl, hcut] at hgo
    cases hgo
  | false =>
    rw [hcut, if_neg Bool.false_ne_true] at hlast
    rw [hlast] at hgo ⊢
    have hslot' := standard_goes_on slot (mem_of_getElem? hslot)
    refine ⟨rfl, fun habort => ?_, by rw [runPipeline_cons hslot' hgo]; rfl⟩
    rw [runPipeline, habort] at hgo
    simp only [Bool.true_and, Bool.and_true] at hgo
    split at hgo
    · cases hgo
    · rename_i he
      split at hgo
      · cases hgo
      · rename_i hfail
        exact ⟨Bool.eq_false_iff.mpr he, Bool.eq_false_iff.mpr hfail⟩

/-- A compilation that succeeds has come as far as the validation, and then goes on from
there. -/
theorem stage_of_compile (h : (compile cfg p tree).1 = true) :
    (stage cfg p tree 4).1 = false ∧ (compile cfg p tree).2.program =
      (runPipeline cfg [validationSlot, emissionSlot]
        (stage cfg p tree 4).2).2.program := by
  have hsplit : runPipeline cfg (Pipeline.standard.take 4 ++ [validationSlot, emissionSlot])
        (opening p tree) =
      if (stage cfg p tree 4).1 then stage cfg p tree 4
      else runPipeline cfg [validationSlot, emissionSlot] (stage cfg p tree 4).2 :=
    runPipeline_append (fun slot hslot => standard_goes_on slot (mem_of_mem_take hslot)) _
  set r := runPipeline cfg (Pipeline.standard.take 4 ++ [validationSlot, emissionSlot])
    (opening p tree) with hr
  have hsuccess : (!r.1 && !r.2.hasErrors) = true := h
  have hprogram : (compile cfg p tree).2.program = r.2.program := rfl
  simp only [Bool.and_eq_true, Bool.not_eq_true'] at hsuccess
  cases hcut : (stage cfg p tree 4).1 with
  | true =>
    rw [hsplit, hcut, if_pos rfl, hcut] at hsuccess
    cases hsuccess.1
  | false =>
    rw [hprogram, hsplit, hcut]
    exact ⟨rfl, rfl⟩

theorem noErrors_runPhase_folding {b : Build} (hb : b.Ready)
    (he : b.hasErrors = false) :
    (runPhase cfg { phase := foldingPhase } b).2.hasErrors = false := by
  have hready : foldingPhase.Carries cfg fun _ p _ => p.Ready :=
    (foldingPhase_treewise cfg).carries fun _ nodes _ h => h.folded nodes
  have hcarries : foldingPhase.Carries cfg fun _ p _ => p.Ready ∧ p.hasErrors = false := by
    refine ⟨fun _ _ _ h => h.1.wellFormed, fun _ _ _ _ _ _ h => h, fun k b u hk hu hacc h => ?_⟩
    obtain ⟨hok, hnext⟩ := hready.run k b u hk hu hacc h.1
    refine ⟨hok, hnext, ?_⟩
    obtain ⟨nodes, -, heq⟩ := (foldingPhase_treewise cfg).visit
      (Prod.ext hok rfl : foldingPhase.run cfg u b = (.ok (), _))
    rw [heq]
    exact Program.noErrors_iff.mpr ((Program.noErrors_iff.mp h.2).modifyUnit _ fun _ _ hv => hv)
  obtain ⟨-, n, hend, -⟩ := hcarries.runPhase { phase := foldingPhase } ⟨hb, he⟩
  exact hend.2

/-- What it takes to come as far as the validation: a parse, a check of references,
a layout and a folding that leave no errors. -/
structure Arrival (cfg : Settings) (p : Program) (tree : FileTree) : Prop where
  opens : (stage cfg p tree 1).2 =
    (runPhase cfg { phase := parsePhase } (opening p tree)).2
  parse : Passes cfg tree parsePhase 0 p.reset (stage cfg p tree 1).2.program
  check : (stage cfg p tree 2).2 =
    (runPhase cfg { phase := referencePhase } (stage cfg p tree 1).2).2
  kept : (stage cfg p tree 2).2.program = (stage cfg p tree 1).2.program
  lays : (stage cfg p tree 3).2 = (runPhase cfg layoutSlot (stage cfg p tree 2).2).2
  laid : (runPhase cfg layoutSlot (stage cfg p tree 2).2).1 = false
  layout : Passes cfg tree layoutPhase 0 (stage cfg p tree 2).2.program
    (stage cfg p tree 3).2.program
  folding : Passes cfg tree foldingPhase 0 (stage cfg p tree 3).2.program
    (stage cfg p tree 4).2.program
  wellFormed : (stage cfg p tree 2).2.units.WellFormed
  files : (stage cfg p tree 2).2.tree = tree

/-- **A compilation that comes as far as the validation** has no errors so far. -/
theorem arrival_of_stage (hw : p.WellFormed) (hgo : (stage cfg p tree 4).1 = false) :
    Arrival cfg p tree := by
  obtain ⟨hgo₃, -, h₄⟩ := stage_succ { phase := foldingPhase } rfl hgo
  obtain ⟨hgo₂, hlayout, h₃⟩ := stage_succ layoutSlot rfl hgo₃
  obtain ⟨he₂, hlaid⟩ := hlayout rfl
  obtain ⟨hgo₁, -, h₂⟩ := stage_succ { phase := referencePhase } rfl hgo₂
  obtain ⟨-, -, h₁⟩ := stage_succ { phase := parsePhase } rfl hgo₁
  have hw₀ : (stage cfg p tree 0).2.units.WellFormed := reset_wellFormed hw
  obtain ⟨-, hw₁, ht₁⟩ := grows_runPhase { phase := parsePhase }
    (parsePhase_quiet cfg).toSteady hw₀
  rw [← h₁] at hw₁ ht₁
  obtain ⟨hg₂, hw₂, ht₂⟩ := grows_runPhase { phase := referencePhase }
    (referencePhase_steady cfg) hw₁
  rw [← h₂] at hg₂ hw₂ ht₂
  obtain ⟨-, hw₃, ht₃⟩ := grows_runPhase layoutSlot
    (layoutPhase_treewise cfg).quiet.toSteady hw₂
  rw [← h₃] at hw₃ ht₃
  rw [ht₁] at ht₂
  rw [ht₂] at ht₃
  have hunitwise : layoutSlot.phase.Unitwise cfg _ := layoutPhase_unitwise cfg
  have he₃ : (stage cfg p tree 3).2.hasErrors = false := by
    rw [h₃]
    exact hunitwise.noErrors_runUnits _ (b := Build.tell _ _) hw₂ he₂ hlaid
  have hkept : (stage cfg p tree 2).2.program = (stage cfg p tree 1).2.program := by
    rw [h₂] at he₂ ⊢
    exact runPhase_reference_clean hw₁ he₂
  have hready₁ : (stage cfg p tree 1).2.Ready := by
    rw [h₁]
    exact (ready_of_parse cfg (b := opening p tree) (blank_reset hw)).2
  have hready₃ : (stage cfg p tree 3).2.Ready := by
    have hcarries := (layoutPhase_treewise cfg).carries
      fun _ nodes _ h => h.laid cfg nodes
    obtain ⟨-, n, hready, -⟩ := hcarries.runPhase layoutSlot (hkept ▸ hready₁)
    rw [h₃]
    exact hready
  have he₄ : (stage cfg p tree 4).2.hasErrors = false := by
    rw [h₄]
    exact noErrors_runPhase_folding hready₃ he₃
  have he₁ := hg₂.noErrors he₂
  rw [h₁] at he₁
  rw [h₃] at he₃
  rw [h₄] at he₄
  have hparse := passes_of_runPhase (parsePhase_quiet cfg) hw₀
    (fun u q hq _ => load_parseUnit hq) he₁
  have hlays := (layoutPhase_treewise cfg).passes (load_laid cfg) hw₂ he₃
  have hfolds := (foldingPhase_treewise cfg).passes load_folded hw₃ he₄
  rw [← h₁] at hparse
  rw [← h₃, ht₂] at hlays
  rw [← h₄, ht₃] at hfolds
  exact ⟨h₁, hparse, h₂, hkept, h₃, hlaid, hlays, hfolds, hw₂, ht₂⟩

end Stage

end WordAsm
