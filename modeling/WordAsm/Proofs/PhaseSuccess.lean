/-
# What the success of a phase means

A phase is told to have succeeded if no unit had errors at the end of its turn. Five of the six
phases put markers on the unit at hand and on no other (`Phase.MarksItsUnit`), so after their
success no unit has more errors than before.

The check of references is the sixth. It also marks the units whose equations it finds to be
circular, and one of those may still be waiting for its turn. It has errors by then and is passed
over, and so nothing is told of them. That is all that can go wrong: the equations of a unit that
had its turn are on no circle any more, so it is not marked later (`errors_of_references`).
-/
import WordAsm.Proofs.EventProtocol
import WordAsm.Proofs.CheckedReferences

namespace WordAsm

open List
open Relation (TransGen)

/-! ### Errors of units -/

def Program.errorsOf (p : Program) (i : UnitId) : List Marker :=
  ((p.get? i).elim [] SourceUnit.markers).filter Marker.isError

namespace Program

variable {p q : Program} {i : UnitId}

theorem errorsOf_congr (h : q.get? i = p.get? i) : q.errorsOf i = p.errorsOf i := by
  unfold errorsOf
  rw [h]

theorem errorsOf_eq_nil_iff {u : SourceUnit} (hu : p.get? i = some u) :
    p.errorsOf i = [] ↔ u.hasErrors = false := by
  unfold errorsOf
  rw [hu, Option.elim_some, filter_eq_nil_iff, SourceUnit.hasErrors, any_eq_false]

theorem errorsOf_mark (p : Program) (owner : UnitId) (m : Marker) (i : UnitId) :
    ∃ new, (p.mark owner [m]).errorsOf i = p.errorsOf i ++ new ∧
      ∀ a ∈ new, i = owner ∧ ∃ n, a = { m with id := n } := by
  by_cases hi : owner = i
  · subst hi
    have hget : (p.mark owner [m]).get? owner = (p.get? owner).map (·.mark m) :=
      Units.get?_modify_self _ _ _
    unfold errorsOf
    rw [hget]
    cases p.get? owner with
    | none => exact ⟨[], rfl, fun a ha => absurd ha not_mem_nil⟩
    | some u =>
      refine ⟨[{ m with id := u.nextMarker }].filter Marker.isError, filter_append _ _, ?_⟩
      intro a ha
      exact ⟨rfl, _, mem_singleton.mp (mem_of_mem_filter ha)⟩
  · have hget : (p.mark owner [m]).get? i = p.get? i :=
      Units.get?_modify_of_ne _ _ hi
    refine ⟨[], ?_, fun a ha => absurd ha not_mem_nil⟩
    rw [append_nil]
    exact errorsOf_congr hget

end Program

theorem errorsOf_markOwners (p : Program) (ms : List (UnitId × Marker)) (i : UnitId) :
    ∃ new, (markOwners p ms).2.errorsOf i = p.errorsOf i ++ new ∧
      ∀ a ∈ new, ∃ m, (i, m) ∈ ms ∧ ∃ n, a = { m with id := n } := by
  refine markOwners_keeps (I := fun q => ∃ new, q.errorsOf i = p.errorsOf i ++ new ∧
    ∀ a ∈ new, ∃ m, (i, m) ∈ ms ∧ ∃ n, a = { m with id := n }) ?_
    ⟨[], (append_nil _).symm, fun a ha => absurd ha not_mem_nil⟩
  rintro ⟨owner, marker⟩ howner q ⟨new, hnew, hmarks⟩
  obtain ⟨more, hmore, hmark⟩ := q.errorsOf_mark owner marker i
  refine ⟨new ++ more, by rw [hmore, hnew, append_assoc], fun a ha => ?_⟩
  rcases mem_append.mp ha with ha | ha
  · exact hmarks a ha
  · obtain ⟨rfl, n, hn⟩ := hmark a ha
    exact ⟨marker, howner, n, hn⟩

/-! ### Turns of a phase that succeeds -/

section Turns

variable {cfg : Settings} {slot : Slot} {b : Build}

theorem wellFormed_atPosition (slot : Slot)
    (hgrows : ∀ u (c : Build), c.program.Grows (runUnit cfg slot.phase u c).program)
    (hw : b.WellFormed) (k : ℕ) :
    b.program.Grows (atPosition cfg slot b k).program ∧
      (atPosition cfg slot b k).WellFormed := by
  have hall : b.program.Grows (atPosition cfg slot b k).program :=
    runUnits_grows hgrows k 0 false (b.tell (.phaseStart slot.name))
  exact ⟨hall, hall.wellFormed hw⟩

/-- **One turn** of a phase that succeeds does not leave errors. -/
theorem atPosition_succ (hgo : (runPhase cfg slot b).1 = false) {k : ℕ}
    (hk : k < queueBound cfg b) :
    (atPosition cfg slot b k).order[k]? = none ∧
        atPosition cfg slot b (k + 1) = atPosition cfg slot b k ∨
      UnitTurn cfg slot k (atPosition cfg slot b k) false
        (atPosition cfg slot b (k + 1)) := by
  have hgo' : (runUnits cfg slot (queueBound cfg b) 0 false
      (b.tell (.phaseStart slot.name))).1 = false := hgo
  rw [show queueBound cfg b = k + 1 + (queueBound cfg b - (k + 1)) by omega] at hgo'
  have hnext := (runUnits_add (k + 1) _ hgo').1
  have hstep := (runUnits_add k 1 hnext).2
  rw [hstep, Nat.zero_add] at hnext
  have hstep' : atPosition cfg slot b (k + 1) =
      (runUnits cfg slot 1 k false (atPosition cfg slot b k)).2 := by
    rw [atPosition, hstep, Nat.zero_add]
    rfl
  rw [hstep']
  change (runUnits cfg slot 1 k false (atPosition cfg slot b k)).1 = false at hnext
  generalize atPosition cfg slot b k = c at hnext
  rcases runUnits_cases cfg slot k c with ⟨hid, hone⟩ | ⟨fails, d, hturn, hone⟩
  · exact .inl ⟨hid, by rw [hone]⟩
  · rw [hone] at hnext ⊢
    cases fails with
    | false => exact .inr hturn
    | true =>
      -- an error would be told in the end
      split at hnext <;> cases hnext

def Phase.MarksItsUnit (phase : Phase) (cfg : Settings) : Prop :=
  ∀ (u : SourceUnit) (b : Build) (i : UnitId), i ≠ u.id →
    (phase.run cfg u b).2.errorsOf i = b.errorsOf i

theorem Phase.MarksItsUnit.runUnit {phase : Phase} (h : phase.MarksItsUnit cfg)
    (u : SourceUnit) (b : Build) {i : UnitId} (hi : i ≠ u.id) :
    (runUnit cfg phase u b).errorsOf i = b.errorsOf i := by
  have hrun := h u b i hi
  rcases heq : phase.run cfg u b with ⟨outcome, c⟩
  rw [heq] at hrun
  cases outcome with
  | ok _ => rwa [runUnit_of_ok heq]
  | error e =>
    rw [runUnit_of_error heq, ← hrun]
    exact Program.errorsOf_congr (Units.get?_modify_of_ne _ _ hi.symm)

/-- **The success of a phase that marks its unit only** means that no unit has errors that it did
not have before. -/
theorem errorsOf_runPhase (hmarks : slot.phase.MarksItsUnit cfg)
    (haccepts : ∀ u, slot.phase.accepts u = !u.hasErrors)
    (hgrows : ∀ u (c : Build), c.program.Grows (runUnit cfg slot.phase u c).program)
    (hw : b.WellFormed) (hgo : (runPhase cfg slot b).1 = false) (i : UnitId) :
    (runPhase cfg slot b).2.errorsOf i = b.errorsOf i := by
  have hall : ∀ k ≤ queueBound cfg b,
      (atPosition cfg slot b k).errorsOf i = b.errorsOf i := by
    intro k hk
    induction k with
    | zero => rfl
    | succ k ih =>
      have hwell := (wellFormed_atPosition slot hgrows hw k).2
      rw [← ih (Nat.le_of_succ_le hk)]
      rcases atPosition_succ hgo hk with ⟨-, heq⟩ | hturn
      · rw [heq]
      generalize atPosition cfg slot b (k + 1) = c' at hturn ⊢
      cases hturn with
      | unknown | skipped => rfl
      | @taken id u w c _ _ hu hacc hc hget hclean =>
        obtain rfl := hwell.numbered id u hu
        rw [Build.program_tell, program_traceUnit, ← hc]
        rw [← hc] at hget
        by_cases hi : i = u.id
        · subst hi
          have hbefore : u.hasErrors = false := by
            rwa [haccepts, Bool.not_eq_true'] at hacc
          have hgot := (hgrows u (Build.tell _ _)).get?_of_getD hu hget
          rw [(Program.errorsOf_eq_nil_iff hgot).mpr hclean,
            (Program.errorsOf_eq_nil_iff hu).mpr hbefore]
        · exact hmarks.runUnit u _ hi
  exact hall _ le_rfl

end Turns

/-! ### Phases that mark the unit at hand -/

section Phases

variable {cfg : Settings}

theorem parsePhase_marksItsUnit : parsePhase.MarksItsUnit cfg := by
  intro u b i hi
  show (parseUnit cfg u b).2.errorsOf i = _
  cases hw : (parseUnit cfg u b).2.units.get? i with
  | some w =>
    rcases get?_parseUnit_other hi hw with hold | ⟨hnone, hfresh⟩
    · exact Program.errorsOf_congr (hw.trans hold.symm)
    · have hclean : w.hasErrors = false := by
        rw [hfresh]
        rfl
      rw [(Program.errorsOf_eq_nil_iff hw).mpr hclean, Program.errorsOf, hnone]
      rfl
  | none =>
    have hnone : b.get? i = none := by
      refine Option.eq_none_iff_forall_ne_some.mpr fun v hv => ?_
      obtain ⟨w, hw', -⟩ := ((parsePhase_quiet cfg).grows u b).units i v hv
      cases hw.symm.trans hw'
    exact Program.errorsOf_congr (hw.trans hnone.symm)

theorem Phase.Treewise.marksItsUnit {phase : Phase}
    {change : SourceUnit → SyntaxTree → Program → Program} (h : phase.Treewise cfg change)
    (hothers : ∀ (u : SourceUnit) nodes p i, u.id ≠ i →
      (change u nodes p).get? i = p.get? i) : phase.MarksItsUnit cfg :=
  fun u b i hi => h.keeps (I := fun p => p.errorsOf i = b.errorsOf i) rfl fun nodes _ =>
    Program.errorsOf_congr (hothers u nodes b.program i hi.symm)

theorem emissionPhase_marksItsUnit : emissionPhase.MarksItsUnit cfg := fun _ b i hi =>
  emissionPhase_keeps (I := fun p => p.errorsOf i = b.errorsOf i) rfl fun _ _ =>
    Program.errorsOf_congr (Units.get?_modify_of_ne _ _ hi.symm)

/-- **All phases but the check of references** mark the unit at hand only. -/
theorem marksItsUnit_of_standard {slot : Slot} (h : slot ∈ Pipeline.standard)
    (hname : slot.name ≠ referencePhase.name) : slot.phase.MarksItsUnit cfg := by
  simp only [Pipeline.standard, mem_cons, not_mem_nil, or_false] at h
  rcases h with rfl | rfl | rfl | rfl | rfl | rfl
  · exact parsePhase_marksItsUnit
  · exact absurd rfl hname
  · exact (layoutPhase_treewise cfg).marksItsUnit fun _ _ _ _ hi =>
      Units.get?_modify_of_ne _ _ hi
  · exact (foldingPhase_treewise cfg).marksItsUnit fun _ _ _ _ hi =>
      Units.get?_modify_of_ne _ _ hi
  · exact (validationPhase_treewise cfg).marksItsUnit fun _ _ _ _ hi =>
      Units.get?_modify_of_ne _ _ hi
  · exact emissionPhase_marksItsUnit

end Phases

/-! ### Where symbols are at home -/

/-- Every symbol is in the store of its unit, and the units of the symbols have the property
`Q`. -/
structure Table.Homed (t : Table) (Q : UnitId → Prop) : Prop extends t.Sound where
  homes : ∀ s ∈ t.stores, ∀ id x, s.symbol? id = some x → x.unit = s.unit ∧ Q x.unit

section Homes

variable {b : Build} {cfg : Settings} {t : Table} {Q : UnitId → Prop}

theorem Table.Homed.define (h : t.Homed Q) {symbol : Symbol} (hQ : Q symbol.unit) :
    (t.define symbol).2.Homed Q := by
  refine ⟨h.toSound.define symbol, fun s hs id x hx => ?_⟩
  rcases Table.symbol?_define_cases hs hx with ⟨r, hr, hunit, hrx⟩ | ⟨-, rfl, hunit⟩
  · rw [← hunit]
    exact h.homes r hr id x hrx
  · exact ⟨hunit.symm, hQ⟩

theorem Table.Homed.mono {Q' : UnitId → Prop} (h : t.Homed Q) (hQ : ∀ i, Q i → Q' i) :
    t.Homed Q' :=
  ⟨h.toSound, fun s hs id x hx => (h.homes s hs id x hx).imp_right (hQ x.unit)⟩

theorem Table.Homed.exists_store (h : t.Homed Q) {id : SymbolId} {x : Symbol}
    (hx : t.symbol? id = some x) :
    Q x.unit ∧ ∃ s ∈ t.stores, s.unit = x.unit ∧ s.symbol? id = some x := by
  obtain ⟨s, howner, hsx⟩ := Option.bind_eq_some_iff.mp hx
  have hs : s ∈ t.stores := mem_of_find?_eq_some howner
  obtain ⟨hunit, hQ⟩ := h.homes s hs id x hsx
  exact ⟨hQ, s, hs, hunit.symm, hsx⟩

/-- The symbols of the program belong to queued units, and each is in the store of its unit. -/
def Program.Homed (p : Program) : Prop := p.symbols.Homed (· ∈ p.order)

theorem homed_parseUnit {u : SourceUnit} (hu : u.id ∈ b.order) (h : b.Homed) :
    (parseUnit cfg u b).2.Homed := by
  have hqueued := ((parsePhase_quiet cfg).grows u b).order.subset
  exact parseUnit_symbols_keep (I := (Table.Homed · _)) (fun _ _ _ _ _ hd hsym ht =>
    ht.define ((Declaring.symbolOf_spec hsym).1.trans hd ▸ hqueued hu)) (h.mono fun _ hi => hqueued hi)

/-- **The parse** puts every symbol into the store of its unit. -/
theorem homed_runPhase_parse (hw : b.WellFormed) (h : b.Homed) :
    (runPhase cfg { phase := parsePhase } b).2.Homed := by
  have hall : (runPhase cfg { phase := parsePhase } b).2.units.WellFormed ∧
      (runPhase cfg { phase := parsePhase } b).2.Homed := by
    refine runUnits_keeps (I := fun p => p.WellFormed ∧ p.Homed) ?_ (queueBound cfg b) 0
      false (b := b.tell (.phaseStart "parse")) ⟨hw, h⟩
    intro id u c hid hu hc
    obtain rfl : u.id = id := hc.1.numbered id u hu
    rw [runUnit_parse]
    exact ⟨((parsePhase_quiet cfg).grows u c).wellFormed hc.1, homed_parseUnit hid hc.2⟩
  exact hall.2

end Homes

/-! ### The check of references -/

namespace Table

variable {id : SymbolId} {t : Table} {ids more : List SymbolId}

theorem cleared_cleared (h : ids ⊆ more) : (t.cleared ids).cleared more = t.cleared more := by
  unfold cleared
  rw [mapKinds_mapKinds]
  congr 1
  funext id kind
  by_cases hid : id ∈ ids
  · cases kind <;> simp [hid, h hid, SymbolKind.withoutExpr]
  · simp [hid]

theorem Circle.isEquation {others : List SymbolId} {x : Symbol} (h : t.Circle id others)
    (hx : t.symbol? id = some x) : x.isEquation = true := by
  obtain ⟨_, ⟨y, e, context, hy, hkind, -⟩, -⟩ := TransGen.head'_iff.mp (transGen_of_isChain h.1)
  obtain rfl : x = y := Option.mem_unique hx hy
  rw [Symbol.isEquation, hkind]

theorem Flagged.of_cleared {marker : UnitId × Marker} (h : (t.cleared ids).Flagged id marker) :
    t.Flagged id marker := by
  obtain ⟨x, others, hx, hcircle, rfl⟩ := h
  have hnames : (t.cleared ids).nameOf = t.nameOf := by
    funext i
    unfold nameOf
    rw [map_name_cleared]
  obtain ⟨next, hnext, -⟩ := TransGen.head'_iff.mp (transGen_of_isChain hcircle.1)
  have hid : id ∉ ids := (refers_cleared.mp hnext).1
  rw [symbol?_cleared_of_notMem t hid] at hx
  refine ⟨x, others, hx, ⟨hcircle.1.imp fun a b hab => (refers_cleared.mp hab).2, hcircle.2⟩, ?_⟩
  rw [hnames]

end Table

section References

variable {k : ℕ} {cfg : Settings} {b c : Build}

/-- **A turn of the check that leaves the unit without errors** does nothing but cut circles and
mark their owners. -/
theorem runUnit_reference_of_clean {u w : SourceUnit}
    (hw : (runUnit cfg referencePhase u c).get? u.id = some w)
    (hclean : w.hasErrors = false) :
    runUnit cfg referencePhase u c = (checkCycles u.id c).2 := by
  rcases hrun : referencePhase.run cfg u c with ⟨outcome, d⟩
  rcases referencePhase_cases cfg u c with ⟨⟨e, he⟩, -⟩ | ⟨-, nodes, -, heq⟩
  · -- a breakdown would be an error of the unit
    rw [hrun] at he
    obtain rfl : outcome = .error e := he
    rw [runUnit_of_error hrun] at hw
    rw [Program.mark, Program.modifyUnit, Units.get?_modify_self] at hw
    obtain ⟨v, -, rfl⟩ := Option.map_eq_some_iff.mp hw
    have hgeneric := SourceUnit.noErrors_of_markAll hclean _ (mem_singleton_self _)
    cases hgeneric
  · rw [runUnit_of_ok heq] at hw ⊢
    have hproblems : referenceProblems (checkCycles u.id c).2.symbols u.id nodes = [] := by
      rw [Build.program_mark, Program.mark, Program.modifyUnit, Units.get?_modify_self] at hw
      obtain ⟨v, -, rfl⟩ := Option.map_eq_some_iff.mp hw
      refine eq_nil_iff_forall_not_mem.mpr fun m hm => ?_
      have herror := SourceUnit.noErrors_of_markAll hclean m hm
      rw [(mem_referenceProblems hm).1] at herror
      cases herror
    rw [hproblems]
    unfold Build.mark
    rw [mark_nil]

/-- The check of references has come to position `k`, and no unit had errors at the end of its
turn. Markers are for circles of the table as it was. A unit that had its turn has no errors, and
its equations are on no circle. -/
structure ReferencesUpTo (cfg : Settings) (b : Build) (k : ℕ) (c : Build) : Prop where
  order : c.order = b.order
  table : c.symbols = b.symbols.cleared c.poisoned
  nodup : c.poisoned.Nodup
  gains : ∀ i, ∃ new, c.errorsOf i = b.errorsOf i ++ new ∧
    ∀ m ∈ new, ∃ id marker n, b.symbols.Flagged id (i, marker) ∧ m = { marker with id := n }
  checked : ∀ j < k, ∀ u : SourceUnit, b.order[j]? = some u.id →
    (atPosition cfg { phase := referencePhase } b j).get? u.id = some u →
    u.hasErrors = false → c.errorsOf u.id = [] ∧
      ∀ s ∈ b.symbols.stores, s.unit = u.id → ∀ id x, s.symbol? id = some x →
        x.isEquation = true → ¬ TransGen c.symbols.Refers id id

theorem ReferencesUpTo.congr {c' : Build} (h : ReferencesUpTo cfg b k c)
    (hprogram : c'.program = c.program) (hpoisoned : c'.poisoned = c.poisoned) :
    ReferencesUpTo cfg b k c' := by
  obtain ⟨horder, htable, hnodup, hgains, hchecked⟩ := h
  rw [← hprogram] at horder htable hgains hchecked
  rw [← hpoisoned] at htable hnodup
  exact ⟨horder, htable, hnodup, hgains, hchecked⟩

/-- What the check of a unit makes of the build `c`: some equations lose their expressions, and
those of the unit are on no circle then. The markers are for circles that were there. -/
structure CutsCircles (c : Build) (unit : UnitId) (c' : Build) : Prop where
  order : c'.order = c.order
  table : c'.symbols = c.symbols.cleared c'.poisoned
  poisoned : c.poisoned ⊆ c'.poisoned
  nodup : c'.poisoned.Nodup
  errors : ∀ i, ∃ new, c'.errorsOf i = c.errorsOf i ++ new ∧
    ∀ m ∈ new, ∃ id marker n, c.symbols.Flagged id (i, marker) ∧ m = { marker with id := n }
  cut : ∀ s ∈ c.symbols.stores, s.unit = unit → ∀ id x, s.symbol? id = some x →
    x.isEquation = true → ¬ TransGen c'.symbols.Refers id id

theorem cutsCircles_checkCycles (hwell : c.symbols.Sound) (hnodup : c.poisoned.Nodup)
    (hcleared : c.symbols.cleared c.poisoned = c.symbols) (unit : UnitId) :
    CutsCircles c unit (checkCycles unit c).2 := by
  obtain ⟨hchecked, hcut⟩ := CycleSearch.checkUnit_spec hwell hnodup unit
  rw [hcleared] at hchecked hcut
  obtain ⟨found, hfound, hflagged⟩ := hchecked.flagged
  have horder : (checkCycles unit c).2.units.order = c.order :=
    markOwners_keeps (I := (·.units.order = _)) (fun _ _ _ hq => hq) rfl
  have htable : (checkCycles unit c).2.symbols =
      (CycleSearch.checkUnit c.symbols c.poisoned unit).table :=
    markOwners_keeps (I := (·.symbols = _)) (fun _ _ _ hq => hq) rfl
  refine ⟨horder, htable.trans hchecked.table, ?_, hchecked.nodup, fun i => ?_, ?_⟩
  · have hpoisoned : (checkCycles unit c).2.poisoned = found ++ c.poisoned := hfound
    rw [hpoisoned]
    exact subset_append_right _ _
  · obtain ⟨new, hnew, hmarks⟩ := errorsOf_markOwners
      { c.program with symbols := (CycleSearch.checkUnit c.symbols c.poisoned unit).table }
      (CycleSearch.checkUnit c.symbols c.poisoned unit).markers i
    refine ⟨new, hnew, fun a ha => ?_⟩
    obtain ⟨m, hm, n, hn⟩ := hmarks a ha
    obtain ⟨k, hk⟩ := mem_iff_getElem?.mp hm
    obtain ⟨id, -, hid⟩ := rel_some (forall₂_getElem? hflagged.flip k) hk
    exact ⟨id, m, n, hid, hn⟩
  · rw [htable]
    exact hcut

/-- **One more unit is checked.** New markers are for circles that were left, and the equations of
units that had their turn are on none of those. -/
theorem ReferencesUpTo.check (h : ReferencesUpTo cfg b k c) (hb : b.Homed)
    {u w : SourceUnit} (hid : c.order[k]? = some u.id)
    (hw : (checkCycles u.id c).2.units.get? u.id = some w) (hclean : w.hasErrors = false) :
    ReferencesUpTo cfg b (k + 1) (checkCycles u.id c).2 := by
  have hcleared : c.symbols.cleared c.poisoned = c.symbols := by
    rw [h.table, Table.cleared_cleared (List.Subset.refl _)]
  have hwell : c.symbols.Sound := by
    rw [h.table]
    exact hb.toSound.mapKinds _
  have hcuts := cutsCircles_checkCycles hwell h.nodup hcleared u.id
  refine ⟨hcuts.order.trans h.order, ?_, hcuts.nodup, fun i => ?_, fun j hj v hv hget hvclean => ?_⟩
  · rw [hcuts.table, h.table]
    exact Table.cleared_cleared hcuts.poisoned
  · obtain ⟨before, hbefore, hflagged⟩ := h.gains i
    obtain ⟨new, hnew, hmarks⟩ := hcuts.errors i
    refine ⟨before ++ new, by rw [hnew, hbefore, append_assoc], fun a ha => ?_⟩
    rcases mem_append.mp ha with ha | ha
    · exact hflagged a ha
    · obtain ⟨id, m, n, hid, hn⟩ := hmarks a ha
      rw [h.table] at hid
      exact ⟨id, m, n, hid.of_cleared, hn⟩
  rcases Nat.lt_succ_iff_lt_or_eq.mp hj with hj | rfl
  · -- a unit that had its turn ahead of this one
    obtain ⟨hnone, hcircles⟩ := h.checked j hj v hv hget hvclean
    refine ⟨?_, fun s hs hunit id x hx hequation hcircle => ?_⟩
    · obtain ⟨new, hnew, hmarks⟩ := hcuts.errors v.id
      rw [hnew, hnone, nil_append]
      refine eq_nil_iff_forall_not_mem.mpr fun a ha => ?_
      obtain ⟨id, m, n, hid, -⟩ := hmarks a ha
      have hround := hid.transGen
      rw [h.table] at hid
      obtain ⟨x, others, hx, hcircle, hm⟩ := hid.of_cleared
      have hunit : v.id = x.unit := congrArg Prod.fst hm
      obtain ⟨-, s, hs, hsunit, hsx⟩ := hb.exists_store hx
      exact hcircles s hs (hsunit.trans hunit.symm) id x hsx (hcircle.isEquation hx) hround
    · rw [hcuts.table] at hcircle
      exact hcircles s hs hunit id x hx hequation
        (TransGen.mono (fun _ _ hab => (Table.refers_cleared.mp hab).2) _ _ hcircle)
  · -- the unit at hand
    rw [← h.order, hid] at hv
    have hsame : u.id = v.id := Option.some.inj hv
    refine ⟨?_, fun s hs hunit id x hx hequation => ?_⟩
    · rw [← hsame]
      exact (Program.errorsOf_eq_nil_iff hw).mpr hclean
    · have hmem : s.mapKinds (fun id kind => if id ∈ c.poisoned then kind.withoutExpr else kind) ∈
          c.symbols.stores := by
        rw [h.table]
        exact mem_map_of_mem (f := fun s : Store => s.mapKinds _) hs
      refine hcuts.cut _ hmem (hunit.trans hsame.symm) id _
        (by rw [Store.symbol?_mapKinds, hx, Option.map_some]) ?_
      by_cases hid : id ∈ c.poisoned
      · simp only [if_pos hid]
        exact (Symbol.isEquation_withoutExpr x).trans hequation
      · simpa [hid] using hequation

/-- **The check of references, turn after turn**, if it succeeds. -/
theorem referencesUpTo_atPosition (hw : b.WellFormed) (hb : b.Homed)
    (hpoisoned : b.poisoned = [])
    (hgo : (runPhase cfg { phase := referencePhase } b).1 = false)
    (hk : k ≤ queueBound cfg b) :
    ReferencesUpTo cfg b k (atPosition cfg { phase := referencePhase } b k) := by
  have hgrows := fun u c => (referencePhase_steady cfg).grows_runUnit u c
  induction k with
  | zero =>
    refine ⟨rfl, ?_, ?_, fun i => ⟨[], (append_nil _).symm, fun m hm => absurd hm
      not_mem_nil⟩, fun j hj => absurd hj (Nat.not_lt_zero j)⟩
    · show b.symbols = b.symbols.cleared b.poisoned
      rw [hpoisoned, Table.cleared_nil]
    · show b.poisoned.Nodup
      rw [hpoisoned]
      exact nodup_nil
  | succ k ih =>
    have hbefore := ih (Nat.le_of_succ_le hk)
    have hturn := atPosition_succ hgo hk
    have hwell := (wellFormed_atPosition { phase := referencePhase } hgrows hw k).2
    generalize hc : atPosition cfg { phase := referencePhase } b k = c at hturn hbefore hwell
    generalize atPosition cfg { phase := referencePhase } b (k + 1) = c' at hturn ⊢
    -- the position `k` counts only if the unit there was not passed over
    have hpassed : (∀ u : SourceUnit, c.order[k]? = some u.id →
        c.get? u.id = some u → u.hasErrors = true) →
        ReferencesUpTo cfg b (k + 1) c := by
      intro herrors
      refine ⟨hbefore.order, hbefore.table, hbefore.nodup, hbefore.gains,
        fun j hj v hv hget hclean => ?_⟩
      rcases Nat.lt_succ_iff_lt_or_eq.mp hj with hj | rfl
      · exact hbefore.checked j hj v hv hget hclean
      · rw [← hbefore.order] at hv
        rw [hc] at hget
        exact absurd (herrors v hv hget) (by rw [hclean]; decide)
    rcases hturn with ⟨hid, rfl⟩ | hturn
    · exact hpassed fun u hu => by rw [hid] at hu; cases hu
    cases hturn with
    | unknown hid hu => exact absurd hu (ne_none_of_queued hwell hid)
    | @skipped id u hid hu hacc =>
      have hskipped := hpassed fun v hv hget => by
        rw [hid] at hv
        obtain rfl : id = v.id := Option.some.inj hv
        rw [hu] at hget
        rw [← Option.some.inj hget]
        simpa [referencePhase] using hacc
      exact hskipped.congr rfl rfl
    | @taken id u w d _ hid hu hacc hrun hget hclean =>
      obtain rfl := hwell.numbered id u hu
      have hstart : ReferencesUpTo cfg b k
          (c.tell (.unitStart ({ phase := referencePhase } : Slot).name u.identifier)) :=
        hbefore.congr rfl rfl
      subst hrun
      have hwget := (hgrows u (Build.tell _ _)).get?_of_getD hu hget
      have hchecked := runUnit_reference_of_clean hwget hclean
      rw [hchecked] at hwget ⊢
      refine (hstart.check hb hid hwget hclean).congr (by simp) ?_
      exact poisoned_traceUnit ..

/-- The phase passes over the unit `i`: it is queued, but has errors whenever the phase comes to
it. -/
def PassedOver (cfg : Settings) (slot : Slot) (b : Build) (i : UnitId) : Prop :=
  i ∈ b.order ∧ ∀ k, b.order[k]? = some i →
    ∃ u, (atPosition cfg slot b k).get? i = some u ∧ u.hasErrors = true

/-- **The success of the check of references** means that a unit with new errors was passed over,
and that its new markers are for equations of its own on circles. -/
theorem errors_of_references (hw : b.WellFormed) (hb : b.Homed)
    (hpoisoned : b.poisoned = [])
    (hgo : (runPhase cfg { phase := referencePhase } b).1 = false) (i : UnitId) :
    ∃ new, (runPhase cfg { phase := referencePhase } b).2.errorsOf i =
        b.errorsOf i ++ new ∧
      (new ≠ [] → PassedOver cfg { phase := referencePhase } b i) ∧
      ∀ m ∈ new, ∃ id marker n, b.symbols.Flagged id (i, marker) ∧
        m = { marker with id := n } := by
  have hgrows := fun u c => (referencePhase_steady cfg).grows_runUnit u c
  have hend := referencesUpTo_atPosition hw hb hpoisoned hgo le_rfl
  obtain ⟨new, hnew, hflagged⟩ := hend.gains i
  refine ⟨new, hnew, fun hne => ?_, hflagged⟩
  obtain ⟨m, hm⟩ := exists_mem_of_ne_nil new hne
  obtain ⟨id, marker, n, ⟨x, others, hx, -, hmarker⟩, -⟩ := hflagged m hm
  obtain rfl : i = x.unit := congrArg Prod.fst hmarker
  refine ⟨(hb.exists_store hx).1, fun k hk => ?_⟩
  obtain ⟨hbefore, hwell⟩ := wellFormed_atPosition { phase := referencePhase } hgrows hw k
  have hqueued := hbefore.order.subset (mem_of_getElem? hk)
  obtain ⟨u, hu, -⟩ := hwell.exists_get? hqueued
  refine ⟨u, hu, ?_⟩
  -- without errors it would have had its turn, and no errors afterwards
  by_contra hclean
  have hlt : k < queueBound cfg b := by
    have hlength := (List.getElem?_eq_some_iff.mp hk).1
    unfold queueBound
    omega
  have hid := hwell.numbered _ u hu
  rw [← hid] at hk hu hnew
  have hnone := (hend.checked k hlt u hk hu (Bool.eq_false_iff.mpr hclean)).1
  rw [hnew] at hnone
  exact hne (append_eq_nil_iff.mp hnone).2

end References

/-! ### What is told -/

section Told

variable {name : String} {cfg : Settings} {slot : Slot} {slots : Pipeline} {b : Build}
  {heard : List Event}

theorem PhaseHeard.eq_of_success {failed : Bool} {us : Units} (h : PhaseHeard slot failed us heard)
    (hname : .phaseSuccess name ∈ heard) : name = slot.name ∧ failed = false := by
  obtain ⟨turns, -, rfl⟩ := h
  have hturns : .phaseSuccess name ∉ turnEvents slot.name us turns := by
    intro hin
    obtain ⟨⟨id, turn⟩, -, hturn⟩ := mem_flatMap.mp hin
    cases turn <;> simp [Turn.events] at hturn
  cases failed <;> simp [hturns] at hname
  exact ⟨hname, rfl⟩

theorem PipelineHeard.mem_names (h : PipelineHeard cfg slots b heard)
    (hname : .phaseSuccess name ∈ heard) : name ∈ slots.names := by
  induction h with
  | done b => cases hname
  | skips _ _ => simp at hname
  | ends _ hphase _ =>
    rw [(hphase.eq_of_success hname).1]
    exact mem_cons_self
  | goesOn _ hphase _ _ ih =>
    rcases mem_append.mp hname with hname | hname
    · rw [(hphase.eq_of_success hname).1]
      exact mem_cons_self
    · exact mem_cons_of_mem _ (ih hname)

/-- **A phase that is told successful** was run on what the phases ahead of it left, and
succeeded. -/
theorem PipelineHeard.runPhase_of_success (h : PipelineHeard cfg slots b heard)
    (hnames : slots.names.Nodup) {n : ℕ} (hslot : slots[n]? = some slot)
    (hname : .phaseSuccess slot.name ∈ heard) :
    (runPhase cfg slot (runPipeline cfg (slots.take n) b).2).1 = false ∧
      (runPipeline cfg (slots.take (n + 1)) b).2.program =
        (runPhase cfg slot (runPipeline cfg (slots.take n) b).2).2.program := by
  -- the first phase, if it is the one that is meant
  have hfirst : ∀ {b : Build} {heard : List Event},
      (slot.abortOnError = true → b.hasErrors = false) →
      PhaseHeard slot (runPhase cfg slot b).1 (runPhase cfg slot b).2.units
        heard →
      .phaseSuccess slot.name ∈ heard → (runPhase cfg slot b).1 = false ∧
        (runPipeline cfg [slot] b).2.program = (runPhase cfg slot b).2.program := by
    intro b heard hruns hphase hname
    have hgo := (hphase.eq_of_success hname).2
    refine ⟨hgo, ?_⟩
    rw [runPipeline, if_neg (not_skipped hruns)]
    simp only [hgo, Bool.false_and, Bool.false_eq_true, if_false]
    split <;> rfl
  induction h generalizing n with
  | done b => cases hname
  | skips _ _ => simp at hname
  | @ends first slots b heard hruns hphase _ =>
    cases n with
    | zero =>
      obtain rfl : first = slot := Option.some.inj hslot
      exact hfirst hruns hphase hname
    | succ n =>
      have hmem : slot.name ∈ slots.names := mem_map_of_mem (mem_of_getElem? hslot)
      rw [(hphase.eq_of_success hname).1] at hmem
      exact absurd hmem (nodup_cons.mp hnames).1
  | @goesOn first slots b heard more hruns hphase hgo hrest ih =>
    obtain ⟨hnew, hothers⟩ := nodup_cons.mp hnames
    cases n with
    | zero =>
      obtain rfl : first = slot := Option.some.inj hslot
      rcases mem_append.mp hname with hname | hname
      · exact hfirst hruns hphase hname
      · exact absurd (hrest.mem_names hname) hnew
    | succ n =>
      have hmem : slot.name ∈ slots.names := mem_map_of_mem (mem_of_getElem? hslot)
      rcases mem_append.mp hname with hname | hname
      · rw [(hphase.eq_of_success hname).1] at hmem
        exact absurd hmem hnew
      · have hstep : ∀ rest, runPipeline cfg (first :: rest) b =
            runPipeline cfg rest (runPhase cfg first b).2 :=
          fun rest => runPipeline_of_goes_on hruns hgo.1 hgo.2
        rw [take_succ_cons, take_succ_cons, hstep, hstep]
        exact ih hothers hslot hname

end Told

section Stages

variable {cfg : Settings} {p : Program}

theorem wellFormed_stage (hw : p.WellFormed) (tree : FileTree) (n : ℕ) :
    (stage cfg p tree n).2.units.WellFormed := by
  refine runPipeline_keeps (I := fun p => p.WellFormed) ?_ (reset_wellFormed hw)
  intro slot hslot id u b _ _ h
  have hmem : slot ∈ Pipeline.standard := mem_of_mem_take hslot
  exact (grows_runUnit (grows_of_standard (mem_map_of_mem hmem) u b)).wellFormed h

theorem homed_stage_one (cfg : Settings) (hw : p.WellFormed) (tree : FileTree) :
    (stage cfg p tree 1).2.Homed ∧ (stage cfg p tree 1).2.poisoned = [] := by
  have hstage : (stage cfg p tree 1).2 =
      (runPhase cfg { phase := parsePhase } (opening p tree)).2 := by
    simp [stage, Pipeline.standard, runPipeline]
  have hopening : (opening p tree).Homed :=
    ⟨Table.sound_of_nil rfl, fun s hs => by cases hs⟩
  rw [hstage]
  exact ⟨homed_runPhase_parse (reset_wellFormed hw) hopening,
    poisoned_runPhase_parse (opening p tree)⟩

theorem references_second {n : ℕ} {slot : Slot} (hslot : Pipeline.standard[n]? = some slot)
    (hname : slot.name = "validate-references") : n = 1 ∧ slot = { phase := referencePhase } := by
  have hnames : Pipeline.standard.names[n]? = Pipeline.standard.names[1]? := by
    rw [Pipeline.names, getElem?_map, hslot, Option.map_some, hname]
    rfl
  have hlt : n < Pipeline.standard.names.length := by
    simpa [Pipeline.names] using (List.getElem?_eq_some_iff.mp hslot).1
  have hn : n = 1 := (getElem?_inj hlt (by decide +kernel)).mp hnames
  subst hn
  exact ⟨rfl, (Option.some.inj hslot).symm⟩

end Stages

/-- **What the success of a phase means.** If a phase of the standard pipeline is told successful,
then no unit has an error marker that it did not have ahead of the phase, with one exception: the
check of references may have marked the circular equations of a unit before it came to that unit,
and then it passed over it. No unit that it worked on has new errors. -/
theorem phase_success_leaves_no_new_errors {cfg : Settings} {p : Program}
    (hw : p.WellFormed) (tree : FileTree) {n : ℕ} {slot : Slot}
    (hslot : Pipeline.standard[n]? = some slot)
    (htold : .phaseSuccess slot.name ∈ events (compile cfg p tree).2.notices) :
    let b := (stage cfg p tree n).2
    let c := (stage cfg p tree (n + 1)).2
    (slot.name ≠ "validate-references" →
      ∀ i, c.errorsOf i = b.errorsOf i) ∧
    ∀ i, ∃ new, c.errorsOf i = b.errorsOf i ++ new ∧
      (new ≠ [] → PassedOver cfg slot b i) ∧
      ∀ m ∈ new, ∃ id marker number, b.symbols.Flagged id (i, marker) ∧
        m = { marker with id := number } := by
  intro b c
  have hmem : slot ∈ Pipeline.standard := mem_of_getElem? hslot
  -- the success is heard of in the pipeline, so the phase was run and succeeded
  obtain ⟨heard, hpipeline, hevents⟩ :=
    compile_heard cfg (fun _ hslot => mem_map_of_mem hslot) hw tree
  have hname : .phaseSuccess slot.name ∈ heard := by
    rw [hevents] at htold
    cases hr : (compile cfg p tree).1 <;> simpa [hr] using htold
  obtain ⟨hgo, hprogram⟩ := hpipeline.runPhase_of_success (by decide +kernel) hslot hname
  change (runPhase cfg slot b).1 = false at hgo
  change c.program = (runPhase cfg slot b).2.program at hprogram
  have hwell : b.WellFormed := wellFormed_stage hw tree n
  have hothers : slot.name ≠ "validate-references" →
      ∀ i, c.errorsOf i = b.errorsOf i := by
    intro hne i
    rw [hprogram]
    have hphase : slot.phase ∈ Pipeline.standard.map Slot.phase := mem_map_of_mem hmem
    exact errorsOf_runPhase (marksItsUnit_of_standard hmem hne) (accepts_of_standard hphase)
      (fun u b => grows_runUnit (grows_of_standard hphase u b)) hwell hgo i
  refine ⟨hothers, fun i => ?_⟩
  by_cases hreferences : slot.name = "validate-references"
  · obtain ⟨rfl, rfl⟩ := references_second hslot hreferences
    obtain ⟨hhomed, hpoisoned⟩ := homed_stage_one cfg hw tree
    rw [hprogram]
    exact errors_of_references hwell hhomed hpoisoned hgo i
  · refine ⟨[], ?_, fun hne => absurd rfl hne, fun m hm => absurd hm not_mem_nil⟩
    rw [hothers hreferences i, append_nil]

/-- Two sources. The first refers to an equation of the second that is circular. -/
def circleBehind : Program :=
  .ofResources [.text "a.rk" ".equ Z X\n", .text "b.rk" ".equ X X\n"]

/-- The second unit of `circleBehind` is marked in the turn of the first, and passed over. -/
theorem phase_success_leaves_no_new_errors_circle :
    (.phaseSuccess "validate-references" ∈ events (compile {} circleBehind {}).2.notices ∧
      ∃ new, (stage {} circleBehind {} 2).2.errorsOf 1 =
        (stage {} circleBehind {} 1).2.errorsOf 1 ++ new ∧ new ≠ [] ∧
        PassedOver {} { phase := referencePhase } (stage {} circleBehind {} 1).2 1) ∧
    .phaseSuccess "parse" ∈ events (compile {} circleBehind {}).2.notices ∧
      ∀ i, (stage {} circleBehind {} 1).2.errorsOf i =
        (stage {} circleBehind {} 0).2.errorsOf i := by
  have hwell : circleBehind.WellFormed := Program.wellFormed_ofResources _
  have hreferences : .phaseSuccess "validate-references" ∈
      events (compile {} circleBehind {}).2.notices := by decide +kernel
  have hparse : .phaseSuccess "parse" ∈
      events (compile {} circleBehind {}).2.notices := by decide +kernel
  obtain ⟨-, hunits⟩ := phase_success_leaves_no_new_errors hwell {} (n := 1) rfl hreferences
  obtain ⟨new, hnew, hpassed, -⟩ := hunits 1
  have hne : new ≠ [] := by
    rintro rfl
    revert hnew
    decide +kernel
  exact ⟨⟨hreferences, new, hnew, hne, hpassed hne⟩, hparse,
    (phase_success_leaves_no_new_errors hwell {} (n := 0) rfl hparse).1 (by decide)⟩

/-- **A phase may be told successful although a unit has got an error in it.** -/
theorem references_succeed_with_new_error :
    let r := compile {} circleBehind {}
    .phaseSuccess "validate-references" ∈ events r.2.notices ∧
      .phaseFailure "validate-references" ∉ events r.2.notices ∧
      (stage {} circleBehind {} 1).2.errorsOf 1 = [] ∧
      ((stage {} circleBehind {} 2).2.errorsOf 1).map Marker.message =
        ["Circular equation: X <-> X"] := by
  decide +kernel

end WordAsm
