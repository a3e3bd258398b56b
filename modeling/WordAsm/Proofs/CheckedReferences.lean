/-
# What a clean check of references says

A check of references that leaves no errors has looked at every queued unit and found
nothing: every name in an expression finds a label or an equation, and no equation
leads back to itself. The search for circles starts with no equation poisoned and
poisons none, so it is the same search for every unit.

Key definitions: `SourceUnit.Checked`, `Table.Knows`.
Key theorems: `checked_of_references`, `Program.Rooted.acyclic`, `Program.Rooted.knows`.
-/
import WordAsm.Proofs.Checkpoints
import WordAsm.Proofs.CycleCheck
import WordAsm.Proofs.Roots

namespace WordAsm

open List
open Relation (TransGen)

/-- The unit has a tree, and neither its names nor its equations are faulty. -/
structure SourceUnit.Checked (t : Table) (u : SourceUnit) : Prop where
  names : ∃ nodes, u.tree = some nodes ∧ referenceProblems t u.id nodes = []
  circles : (CycleSearch.checkUnit t [] u.id).markers = []

/-! ### The search -/

namespace CycleSearch

variable {t : Table} {unit : UnitId}

theorem checked_checkUnit (t : Table) (unit : UnitId) :
    (checkUnit t [] unit).Checked t [] := by
  have hsearch := (checkUnit_search (t := t) nodup_nil unit).1
  rw [t.cleared_nil] at hsearch
  exact hsearch.toChecked

theorem poisoned_checkUnit (h : (checkUnit t [] unit).markers = []) :
    (checkUnit t [] unit).poisoned = [] := by
  have hflagged := (checked_checkUnit t unit).forall₂_flagged
  rw [h, forall₂_nil_right_iff, reverse_eq_nil_iff] at hflagged
  exact hflagged

theorem acyclic_of_checkUnit (ht : t.Sound) (h : (checkUnit t [] unit).markers = [])
    {s : Store} (hs : s ∈ t.stores) (hunit : s.unit = unit) {id : SymbolId} {x : Symbol}
    (hx : s.symbol? id = some x) (hequation : x.isEquation = true) :
    ¬ TransGen t.Refers id id := by
  obtain ⟨hchecked, hsevered⟩ := checkUnit_spec ht nodup_nil unit
  rw [t.cleared_nil] at hchecked hsevered
  have htable : (checkUnit t [] unit).table = t := by
    rw [hchecked.table, poisoned_checkUnit h, t.cleared_nil]
  have hfree := hsevered s hs hunit id x hx hequation
  rwa [htable] at hfree

end CycleSearch

/-! ### The phase -/

section Phase

variable {cfg : Settings}

theorem checked_of_run {u : SourceUnit} {b c : Build} (hu : b.get? u.id = some u)
    (hb : b.poisoned = []) (hrun : referencePhase.run cfg u b = (.ok (), c))
    (hc : c.hasErrors = false) :
    c.program = b.program ∧ c.poisoned = [] ∧ u.Checked b.symbols := by
  obtain ⟨hsame, hmarkers, hpoisoned, hnames⟩ := referencePhase_silent hu hrun hc
  rw [hb] at hmarkers hpoisoned
  exact ⟨hsame, hpoisoned.trans (CycleSearch.poisoned_checkUnit hmarkers), hnames, hmarkers⟩

/-- **A check of references that leaves no errors** has found nothing in any queued unit. -/
theorem checked_of_references (cfg : Settings) {b : Build}
    (hw : b.WellFormed) (hb : b.poisoned = [])
    (he : (runPhase cfg { phase := referencePhase } b).2.hasErrors = false) :
    ∀ i ∈ b.order, ∀ u, b.get? i = some u →
      u.Checked b.symbols := by
  have hs := referencePhase_steady cfg
  -- without errors, the program is the one at the start, and the units ahead are checked
  obtain ⟨n, ⟨-, hend⟩, hlast⟩ := runUnits_induct cfg { phase := referencePhase }
    (I := fun k c => c.WellFormed ∧ (c.hasErrors = false →
      c.program = b.program ∧ c.poisoned = [] ∧ ∀ i ∈ b.order.take k, ∀ u,
        b.get? i = some u → u.Checked b.symbols))
    (fun _ _ _ h => h) (fun _ _ h => h.1)
    (by
      rintro k c id u - hu hacc ⟨hwc, hc⟩
      refine ⟨hwc, fun hclean => ?_⟩
      rw [hs.accepts, Program.noErrors_get? hclean hu] at hacc
      cases hacc)
    (by
      rintro k c id u hk hu - ⟨hwc, hc⟩
      have hg := hs.grows_runUnit u c
      refine ⟨hg.wellFormed hwc, fun hclean => ?_⟩
      have hok := ok_of_grows (hs.grows u c) hwc hu hclean
      obtain rfl : u.id = id := hwc.numbered id u hu
      obtain ⟨hsame, hpoisoned, hahead⟩ := hc (hg.noErrors hclean)
      obtain ⟨hsame', hpoisoned', hchecked⟩ := checked_of_run hu hpoisoned hok hclean
      rw [hsame] at hk hu hchecked
      refine ⟨hsame'.trans hsame, hpoisoned', fun i hi v hv => ?_⟩
      by_cases hid : i = u.id
      · rw [hid, hu] at hv
        exact Option.some.inj hv ▸ hchecked
      · exact hahead i (mem_take_of_mem_take_succ hk hi hid) v hv)
    (queueBound cfg b) 0 false (b.tell (.phaseStart "validate-references"))
    ⟨hw, fun _ => ⟨rfl, hb, by simp⟩⟩
  obtain ⟨hsame, -, hall⟩ := hend he
  have hlen : b.order.length ≤ n := by
    rcases hlast with hlast | hlast | ⟨-, habort⟩
    · exact hsame ▸ hlast
    · rw [hlast, Nat.zero_add, queueBound, Nat.add_assoc]
      exact Nat.le_add_right _ _
    · cases habort
  rw [take_of_length_le hlen] at hall
  exact hall

theorem poisoned_runPhase_parse (b : Build) :
    (runPhase cfg { phase := parsePhase } b).2.poisoned = b.poisoned :=
  runUnits_keeps_build (I := fun c => c.poisoned = b.poisoned) (fun _ _ hc => hc)
    (fun _ u c _ _ hc => by rw [runUnit_parse, poisoned_parseUnit, hc])
    (queueBound cfg b) 0 false (b := b.tell (.phaseStart parsePhase.name)) rfl

end Phase

/-! ### Names and circles -/

/-- The name finds a label or an equation. -/
def Table.Knows (t : Table) (unit : UnitId) (scope : Option SymbolId)
    (name : String) : Prop :=
  ∃ id x, t.resolve unit name scope = some id ∧ t.symbol? id = some x ∧ x.isMacro = false

theorem knows_of_nameProblem? {t : Table} {unit : UnitId} {scope : Option SymbolId}
    {name : String} (h : nameProblem? t unit scope name = none) : t.Knows unit scope name := by
  unfold nameProblem? at h
  split at h
  · cases h
  · rename_i x hx
    obtain ⟨id, hid, hx⟩ := Option.bind_eq_some_iff.mp hx
    split at h
    · cases h
    · rename_i hplain
      exact ⟨id, x, hid, hx, Bool.eq_false_iff.mpr hplain⟩

theorem knows_of_referenceProblems {t : Table} {unit : UnitId} {nodes : SyntaxTree}
    (h : referenceProblems t unit nodes = []) {n : Node} (hn : n ∈ nodes) {e : Expr}
    (he : e ∈ n.statement.exprs) {name : String} (hname : name ∈ e.identifiers) :
    t.Knows unit n.scope name := by
  have hnode : nodeProblems t unit n = [] := flatMap_eq_nil_iff.mp h n hn
  have hproblem := filterMap_eq_nil_iff.mp hnode name (mem_flatMap.mpr ⟨e, he, hname⟩)
  exact knows_of_nameProblem? (Option.map_eq_none_iff.mp hproblem)

namespace Program.Rooted

variable {id : SymbolId} {x : Symbol} {k : ℕ} {p : Program}

theorem exists_root (h : p.Rooted k) (hx : p.symbols.symbol? id = some x)
    (hplain : x.isMacro = false) :
    (∃ s ∈ p.symbols.stores, s.unit = x.unit ∧ s.symbol? id = some x) ∧
      x.unit ∈ p.order ∧ ∃ u nodes n, p.get? x.unit = some u ∧
        u.tree = some nodes ∧ n ∈ nodes ∧ n.Declares id x := by
  obtain ⟨s, hs, hsx⟩ := h.symbols.symbol?_eq_some.mp hx
  rcases h.roots s hs id x hsx with hm | ⟨hunit, u, nodes, n, hu, htree, hn, hdecl⟩
  · exact absurd (hm.symm.trans hplain) (by simp)
  · rw [← hunit] at hu
    exact ⟨⟨s, hs, hunit.symm, hsx⟩,
      mem_of_mem_take (h.trees x.unit u hu (by rw [htree]; rfl)), u, nodes, n, hu, htree, hn,
      hdecl⟩

/-- **No equation of a checked program leads back to itself.** -/
theorem acyclic (h : p.Rooted k) (hw : p.WellFormed)
    (hchecked : ∀ i ∈ p.order, ∀ u, p.get? i = some u → u.Checked p.symbols)
    (id : SymbolId) : ¬ TransGen p.symbols.Refers id id := by
  intro hcircle
  obtain ⟨_, ⟨x, e, context, hx, hkind, -⟩, -⟩ := TransGen.head'_iff.mp hcircle
  have hplain : x.isMacro = false := by rw [Symbol.isMacro, hkind]
  obtain ⟨⟨s, hs, hunit, hsx⟩, hqueued, u, -, -, hu, -, -, -⟩ := h.exists_root hx hplain
  have hnumber := hw.numbered _ u hu
  refine CycleSearch.acyclic_of_checkUnit h.symbols (hchecked _ hqueued u hu).circles hs
    (hunit.trans hnumber.symm) hsx ?_ hcircle
  rw [Symbol.isEquation, hkind]

/-- **The equations of a checked program** have expressions, and know the names in them. -/
theorem knows (h : p.Rooted k) (hw : p.WellFormed)
    (hchecked : ∀ i ∈ p.order, ∀ u, p.get? i = some u → u.Checked p.symbols)
    (hx : p.symbols.symbol? id = some x) (hequation : x.isEquation = true) :
    ∃ e context, x.kind = .equation (some e) context ∧
      ∀ name ∈ e.identifiers, p.symbols.Knows x.unit context name := by
  have hplain : x.isMacro = false := by
    unfold Symbol.isEquation at hequation
    split at hequation
    · rename_i hkind
      rw [Symbol.isMacro, hkind]
    · cases hequation
  obtain ⟨-, hqueued, u, nodes, n, hu, htree, hn, hdecl⟩ := h.exists_root hx hplain
  cases hdecl with
  | label _ _ hlabel =>
    unfold Symbol.isLabel at hlabel
    unfold Symbol.isEquation at hequation
    split at hlabel <;> simp_all
  | @equation e hs _ hkind =>
    refine ⟨e, n.scope, hkind, fun name hname => ?_⟩
    obtain ⟨nodes', htree', hproblems⟩ := (hchecked _ hqueued u hu).names
    obtain rfl := Option.mem_unique htree htree'
    rw [hw.numbered _ u hu] at hproblems
    exact knows_of_referenceProblems hproblems hn (by simp [hs, Statement.exprs]) hname

end Program.Rooted

end WordAsm
