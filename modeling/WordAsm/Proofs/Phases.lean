/-
# The phases between the parse and the emission

Layout, folding and validation make one change to the program for the tree of a
unit (`Phase.Treewise`), and break down only on a unit without a tree. On a
program that is ready for them every unit without errors has a tree, and the
program is still ready afterwards, whatever the errors (`Program.Ready`).
-/
import WordAsm.Proofs.References

namespace WordAsm

open List

variable {cfg : Settings} {I : Program → Prop} {tree : FileTree} {f : SourceUnit → SourceUnit}

/-- A phase that makes the change `change` to the program for the tree of a unit. -/
structure Phase.Treewise (phase : Phase) (cfg : Settings)
    (change : SourceUnit → SyntaxTree → Program → Program) : Prop where
  accepts : ∀ u, phase.accepts u = !u.hasErrors
  treeless : ∀ u : SourceUnit, u.tree = none → ∃ e, ∀ b, phase.run cfg u b = (.error e, b)
  outcome : ∀ (u : SourceUnit) (b : Build) nodes, u.tree = some nodes →
    (phase.run cfg u b).1 = .ok ()
  tree : ∀ (u : SourceUnit) (b : Build), (phase.run cfg u b).2.tree = b.tree
  program : ∀ (u : SourceUnit) (b : Build) nodes, u.tree = some nodes →
    (phase.run cfg u b).2.program = change u nodes b.program
  grows : ∀ u nodes p, Program.Grows p (change u nodes p)

section Treewise

variable {u : SourceUnit} {phase : Phase} {cfg : Settings}
  {change : SourceUnit → SyntaxTree → Program → Program}

theorem Phase.Treewise.keeps (h : phase.Treewise cfg change) {b : Build} (hp : I b.program)
    (hchange : ∀ nodes, u.tree = some nodes → I (change u nodes b.program)) :
    I (phase.run cfg u b).2.program := by
  cases htree : u.tree with
  | none =>
    obtain ⟨e, he⟩ := h.treeless u htree
    rwa [he]
  | some nodes =>
    rw [h.program u b nodes htree]
    exact hchange nodes htree

theorem Phase.Treewise.quiet (h : phase.Treewise cfg change) : phase.Quiet cfg where
  accepts := h.accepts
  grows u b := h.keeps (I := b.program.Grows) (.refl _) fun nodes _ => h.grows u nodes b.program
  tree := h.tree
  outcome u b := by
    cases htree : u.tree with
    | none =>
      obtain ⟨e, he⟩ := h.treeless u htree
      rw [he, he]
    | some nodes => rw [h.outcome u b nodes htree, h.outcome u _ nodes htree]
  program u b := by
    cases htree : u.tree with
    | none =>
      obtain ⟨e, he⟩ := h.treeless u htree
      rw [he, he]
    | some nodes => rw [h.program u b nodes htree, h.program u _ nodes htree]

theorem Phase.Treewise.visit (h : phase.Treewise cfg change) {b c : Build}
    (hrun : phase.run cfg u b = (.ok (), c)) :
    ∃ nodes, u.tree = some nodes ∧ c.program = change u nodes b.program := by
  cases htree : u.tree with
  | none =>
    obtain ⟨e, he⟩ := h.treeless u htree
    rw [he] at hrun
    cases hrun
  | some nodes =>
    have hprogram := h.program u b nodes htree
    rw [hrun] at hprogram
    exact ⟨nodes, rfl, hprogram⟩

/-- The unit at position `k` is `u`, which has the tree `nodes`. -/
structure Program.At (p : Program) (k : ℕ) (u : SourceUnit) (nodes : SyntaxTree) : Prop where
  queued : p.order[k]? = some u.id
  unit : p.get? u.id = some u
  tree : u.tree = some nodes

/-- **A pass of a phase** has what its first program has and every change keeps. -/
theorem Phase.Treewise.induct (htw : phase.Treewise cfg change) {tree : FileTree} {k : ℕ}
    {p q : Program} {I : ℕ → Program → Prop} (h : Passes cfg tree phase k p q)
    (hw : p.WellFormed) (hp : I k p)
    (hI : ∀ k p u nodes, p.At k u nodes → (change u nodes p).hasErrors = false → I k p →
      I (k + 1) (change u nodes p)) :
    q.WellFormed ∧ ∃ n, q.order.length ≤ n ∧ I n q := by
  obtain ⟨n, hn, hwq, hq⟩ := h.induct htw.quiet.toSteady
    (I := fun k p => p.WellFormed ∧ I k p) ⟨hw, hp⟩ (by
      rintro k p id u c hk hu - hrun hc hg - ⟨hw, hp⟩
      obtain rfl : u.id = id := hw.numbered id u hu
      obtain ⟨nodes, htree, heq⟩ := htw.visit hrun
      refine ⟨hg.wellFormed hw, ?_⟩
      rw [heq] at hc ⊢
      exact hI k p u nodes ⟨hk, hu, htree⟩ hc hp)
  exact ⟨hwq, n, hn, hq⟩

end Treewise

/-! ### Layout -/

def layoutOf (cfg : Settings) (u : SourceUnit) (nodes : SyntaxTree) (p : Program) :
    SyntaxTree × Layout :=
  layNodes u.id (!cfg.switches.has .disableInlining) nodes
    { symbols := p.symbols
      start := previousEnd p.units u.id
      address := previousEnd p.units u.id }

def SourceUnit.withLayout (v : SourceUnit) (layout : SyntaxTree × Layout) : SourceUnit :=
  { v.markAll layout.2.markers with
    tree := some layout.1
    start := startAddress layout.2.start
    stop := some layout.2.address }

def Program.laid (cfg : Settings) (u : SourceUnit) (nodes : SyntaxTree) (p : Program) :
    Program :=
  { p with symbols := (layoutOf cfg u nodes p).2.symbols }.modifyUnit u.id
    (·.withLayout (layoutOf cfg u nodes p))

theorem SourceUnit.grows_withLayout (v : SourceUnit) (layout : SyntaxTree × Layout) :
    v.Grows (v.withLayout layout) := by
  have hv := SourceUnit.grows_markAll v layout.2.markers
  exact ⟨hv.id, hv.resource, hv.markers⟩

theorem layoutPhase_treewise (cfg : Settings) :
    layoutPhase.Treewise cfg (Program.laid cfg) where
  accepts _ := rfl
  treeless u hu := ⟨_, fun b => by simp only [layoutPhase, withTree, hu]; rfl⟩
  outcome u b nodes hu := by simp only [layoutPhase, withTree, hu]
  tree u b := by
    simp only [layoutPhase, withTree]
    split <;> rfl
  program u b nodes hu := by
    simp only [layoutPhase, withTree, hu]
    rfl
  grows u nodes p := by
    have hsymbols : p.Grows { p with symbols := (layoutOf cfg u nodes p).2.symbols } :=
      Program.grows_of_units_eq rfl
    exact hsymbols.trans (Program.grows_modifyUnit _ _ fun v => v.grows_withLayout _)

/-! ### Folding and validation -/

def Program.folded (u : SourceUnit) (nodes : SyntaxTree) (p : Program) : Program :=
  p.modifyUnit u.id fun v => { v with tree := some (nodes.map (foldNode p.symbols u.id)) }

theorem foldingPhase_treewise (cfg : Settings) :
    foldingPhase.Treewise cfg Program.folded where
  accepts _ := rfl
  treeless u hu := ⟨_, fun b => by simp only [foldingPhase, withTree, hu]; rfl⟩
  outcome u b nodes hu := by simp only [foldingPhase, withTree, hu]
  tree u b := by
    simp only [foldingPhase, withTree]
    split <;> rfl
  program u b nodes hu := by
    simp only [foldingPhase, withTree, hu]
    rfl
  grows u nodes p := Program.grows_modifyUnit _ _ (SourceUnit.grows_withTree _)

theorem keeps_of_folding {tree : FileTree} {p q : Program} {I : Program → Prop}
    (hI : ∀ (p : Program) (u : SourceUnit) nodes, p.get? u.id = some u → u.tree = some nodes →
      I p → I (p.folded u nodes))
    (h : Passes cfg tree foldingPhase 0 p q) (hw : p.WellFormed) (hp : I p) : I q := by
  obtain ⟨-, n, -, hend⟩ := (foldingPhase_treewise cfg).induct (I := fun _ p => I p) h hw hp
    fun _ p u nodes ht _ hp => hI p u nodes ht.unit ht.tree hp
  exact hend

def problemsOf (cfg : Settings) (u : SourceUnit) (nodes : SyntaxTree) (t : Table) :
    List Marker :=
  nodes.flatMap (validateNode cfg.switches t u.id)

def Program.validated (cfg : Settings) (u : SourceUnit) (nodes : SyntaxTree) (p : Program) :
    Program :=
  p.mark u.id (problemsOf cfg u nodes p.symbols)

theorem validationPhase_treewise (cfg : Settings) :
    validationPhase.Treewise cfg (Program.validated cfg) where
  accepts _ := rfl
  treeless u hu := ⟨_, fun b => by simp only [validationPhase, withTree, hu]; rfl⟩
  outcome u b nodes hu := by simp only [validationPhase, withTree, hu]
  tree u b := by
    simp only [validationPhase, withTree]
    split <;> rfl
  program u b nodes hu := by
    simp only [validationPhase, withTree, hu]
    rfl
  grows u nodes p := Program.grows_mark _ _ _

/-! ### Emission to memory -/

section Emission

variable {cfg : Settings} {u : SourceUnit} {b : Build} {nodes : SyntaxTree}

def SourceUnit.memoryCode (u : SourceUnit) (m : Emission) : ObjectCode :=
  ⟨.memory (u.identifier ++ ".bin") m.buffer.toBytes, m.buffer.first, m.buffer.last⟩

theorem emitUnit_ok {m : Emission} (hsink : cfg.sink = .memory)
    (hm : emitNodes cfg.switches b.symbols u nodes = .ok m) :
    (emitUnit cfg u nodes b).1 = .ok () ∧ (emitUnit cfg u nodes b).2.tree = b.tree ∧
      (emitUnit cfg u nodes b).2.program =
        b.program.modifyUnit u.id (·.withEmission m (u.memoryCode m)) := by
  unfold emitUnit
  simp only [hm, hsink, bind, Except.bind, ObjectSink.close, pure, Except.pure]
  exact ⟨trivial, rfl, rfl⟩

theorem emitUnit_error {e : Error}
    (hm : emitNodes cfg.switches b.symbols u nodes = .error e) :
    emitUnit cfg u nodes b = (.error e, b) := by
  unfold emitUnit
  simp only [hm, bind, Except.bind]

theorem emissionPhase_of_tree (hu : u.tree = some nodes) :
    emissionPhase.run cfg u b = emitUnit cfg u nodes b := by
  simp only [emissionPhase, withTree, hu]

theorem emissionPhase_treeless (cfg : Settings) (hu : u.tree = none) :
    ∃ e, ∀ b, emissionPhase.run cfg u b = (.error e, b) :=
  ⟨_, fun b => by simp only [emissionPhase, withTree, hu]; rfl⟩

theorem emission_of_ok {c : Build} (h : emissionPhase.run cfg u b = (.ok (), c)) :
    ∃ nodes m code, u.tree = some nodes ∧
      emitNodes cfg.switches b.symbols u nodes = .ok m ∧
      cfg.sink.close b.tree u.identifier u.id m.buffer = .ok (code, c.tree) ∧
      c.program = b.program.modifyUnit u.id (·.withEmission m code) := by
  cases htree : u.tree with
  | none =>
    obtain ⟨e, he⟩ := emissionPhase_treeless cfg htree
    rw [he] at h
    cases h
  | some nodes =>
    rw [emissionPhase_of_tree htree] at h
    cases hm : emitNodes cfg.switches b.symbols u nodes with
    | error e =>
      rw [emitUnit_error hm] at h
      cases h
    | ok m =>
      unfold emitUnit at h
      simp only [hm, bind, Except.bind, pure, Except.pure] at h
      cases hclose : cfg.sink.close b.tree u.identifier u.id m.buffer with
      | error e =>
        rw [hclose] at h
        cases h
      | ok r =>
        rw [hclose] at h
        cases h
        exact ⟨nodes, m, r.1, rfl, hm, hclose, rfl⟩

theorem SourceUnit.grows_withEmission (v : SourceUnit) (m : Emission) (code : ObjectCode) :
    v.Grows (v.withEmission m code) :=
  ⟨rfl, rfl, prefix_refl _⟩

theorem emissionPhase_keeps (h : I b.program)
    (hemit : ∀ m code, I (b.program.modifyUnit u.id (·.withEmission m code))) :
    I (emissionPhase.run cfg u b).2.program := by
  simp only [emissionPhase, withTree]
  split
  · unfold emitUnit
    simp only
    split
    · exact h
    · exact hemit _ _
  · exact h

theorem emissionPhase_grows (cfg : Settings) (u : SourceUnit) (b : Build) :
    b.program.Grows (emissionPhase.run cfg u b).2.program :=
  emissionPhase_keeps (I := b.program.Grows) (.refl _) fun _ _ =>
    Program.grows_modifyUnit _ _ fun v => v.grows_withEmission _ _

/-- A run of the phase emits, or leaves everything as it is; which of the two is
up to the program. -/
theorem emissionPhase_cases (hsink : cfg.sink = .memory) (u : SourceUnit) (p : Program) :
    (∃ e, ∀ b : Build, b.program = p → emissionPhase.run cfg u b = (.error e, b)) ∨
    ∃ m code, ∀ b : Build, b.program = p → (emissionPhase.run cfg u b).1 = .ok () ∧
      (emissionPhase.run cfg u b).2.tree = b.tree ∧
      (emissionPhase.run cfg u b).2.program = p.modifyUnit u.id (·.withEmission m code) := by
  cases hu : u.tree with
  | none =>
    obtain ⟨e, he⟩ := emissionPhase_treeless cfg hu
    exact .inl ⟨e, fun b _ => he b⟩
  | some nodes =>
    cases hm : emitNodes cfg.switches p.symbols u nodes with
    | error e =>
      refine .inl ⟨e, fun b hb => ?_⟩
      rw [emissionPhase_of_tree hu, emitUnit_error (hb ▸ hm)]
    | ok m =>
      refine .inr ⟨m, u.memoryCode m, fun b hb => ?_⟩
      subst hb
      rw [emissionPhase_of_tree hu]
      exact emitUnit_ok hsink hm

theorem emissionPhase_quiet (hsink : cfg.sink = .memory) : emissionPhase.Quiet cfg where
  accepts _ := rfl
  grows := emissionPhase_grows cfg
  tree u b := by
    rcases emissionPhase_cases hsink u b.program with ⟨e, he⟩ | ⟨m, code, hrun⟩
    · rw [he b rfl]
    · exact (hrun b rfl).2.1
  outcome u b := by
    rcases emissionPhase_cases hsink u b.program with ⟨e, he⟩ | ⟨m, code, hrun⟩
    · rw [he b rfl, he { program := b.program, tree := b.tree } rfl]
    · rw [(hrun b rfl).1, (hrun { program := b.program, tree := b.tree } rfl).1]
  program u b := by
    rcases emissionPhase_cases hsink u b.program with ⟨e, he⟩ | ⟨m, code, hrun⟩
    · rw [he b rfl, he { program := b.program, tree := b.tree } rfl]
    · rw [(hrun b rfl).2.2, (hrun { program := b.program, tree := b.tree } rfl).2.2]

end Emission

/-! ### Programs that are ready -/

theorem SourceUnit.Unbuilt.markAll {u : SourceUnit} (h : u.Unbuilt) {ms : List Marker}
    (hms : ∀ m ∈ ms, m.kind ≠ .genericError) : (u.markAll ms).Unbuilt := by
  obtain ⟨added, next, heq, hkind⟩ := u.markAll_eq ms
  rw [heq]
  refine h.withMarkers (fun m hm => ?_) next u.dependencies
  obtain ⟨m', hm', hk⟩ := hkind m hm
  rw [hk]
  exact hms m' hm'

/-- The markers of a layout report faults of the source, and its symbols belong
to the same units. -/
theorem layoutOf_spec (cfg : Settings) (u : SourceUnit) (nodes : SyntaxTree) (p : Program) :
    (∀ m ∈ (layoutOf cfg u nodes p).2.markers, m.kind ≠ .genericError) ∧
      ∀ Q : UnitId → Prop, p.symbols.All (fun s => Q s.unit) →
        (layoutOf cfg u nodes p).2.symbols.All fun s => Q s.unit := by
  constructor
  · refine layNodes_keeps (I := fun l => ∀ m ∈ l.markers, m.kind ≠ .genericError)
      (fun l node message hl m hm => ?_) (fun _ _ _ hl => hl) (fun _ _ _ _ _ hl => hl)
      (by simp) nodes
    rcases mem_append.mp hm with hm | hm
    · exact hl m hm
    · rw [mem_singleton.mp hm]
      exact fun hk => by cases hk
  · intro Q hQ
    refine layNodes_keeps (I := fun l => l.symbols.All fun s => Q s.unit)
      (fun _ _ _ hl => hl) (fun _ _ _ hl => hl) (fun l node place _ _ hl => ?_) hQ nodes
    unfold assignLabel
    split
    · exact hl.modify _ fun s hs => hs
    · exact hl

theorem SourceUnit.Unbuilt.withLayout {v : SourceUnit} (h : v.Unbuilt) (cfg : Settings)
    (u : SourceUnit) (nodes : SyntaxTree) (p : Program) :
    (v.withLayout (layoutOf cfg u nodes p)).Unbuilt := by
  have hmarked := h.markAll (layoutOf_spec cfg u nodes p).1
  exact ⟨hmarked.code, hmarked.relocation, hmarked.markers⟩

theorem exprProblems_kind {switches : Switches} {t : Table} {v : Viewpoint} {inlined : Bool}
    {e : Expr} {m : Marker} (h : m ∈ exprProblems switches t v inlined e) :
    m.kind ≠ .genericError := by
  rcases mem_append.mp h with h | h
  · rw [Option.mem_toList] at h
    unfold valueProblem? at h
    split at h
    · cases h
      exact fun hk => by cases hk
    · split at h
      · cases h
        split <;> exact fun hk => by cases hk
      · split at h
        · cases h
          exact fun hk => by cases hk
        · cases h
  · split at h
    · rw [mem_singleton.mp h]
      exact fun hk => by cases hk
    · cases h

theorem problemsOf_kind (cfg : Settings) (u : SourceUnit) (nodes : SyntaxTree)
    (t : Table) : ∀ m ∈ problemsOf cfg u nodes t, m.kind ≠ .genericError := by
  intro m hm
  obtain ⟨node, -, hm⟩ := mem_flatMap.mp hm
  obtain ⟨m', hm', rfl⟩ := mem_map.mp hm
  obtain ⟨e, -, hm'⟩ := mem_flatMap.mp hm'
  have hkind : m'.kind ≠ .genericError := exprProblems_kind hm'
  exact hkind

/-- A program as the phases between the parse and the emission find it, whatever
the errors: every queued unit without errors has a tree. -/
structure Program.Ready (p : Program) : Prop where
  wellFormed : p.WellFormed
  unbuilt : p.Each SourceUnit.Unbuilt
  owned : p.Owned
  trees : ∀ i ∈ p.order, ∀ u, p.get? i = some u → u.hasErrors = false → u.tree.isSome

namespace Program.Ready

variable {p : Program} {u : SourceUnit}

theorem modifyUnit (h : p.Ready) (hf : ∀ v : SourceUnit, v.Grows (f v))
    (hunbuilt : ∀ v : SourceUnit, v.Unbuilt → (f v).Unbuilt)
    (htree : ∀ v : SourceUnit, v.tree.isSome → (f v).tree.isSome) (i : UnitId) :
    (p.modifyUnit i f).Ready := by
  have hg := Program.grows_modifyUnit p i hf
  refine ⟨hg.wellFormed h.wellFormed, h.unbuilt.modifyUnit i fun v _ hv => hunbuilt v hv,
    h.owned.mono hg fun _ hQ => hQ, fun k hk w hw he => ?_⟩
  rcases Program.get?_modifyUnit_cases hw with ⟨rfl, v, hv, rfl⟩ | ⟨-, hw⟩
  · refine htree v (h.trees _ hk v hv ?_)
    rw [Bool.eq_false_iff] at he ⊢
    exact fun hve => he ((hf v).hasErrors hve)
  · exact h.trees k hk w hw he

theorem mark (h : p.Ready) (i : UnitId) {ms : List Marker}
    (hms : ∀ m ∈ ms, m.kind ≠ .genericError) :
    (p.mark i ms).Ready := by
  refine h.modifyUnit (fun v => v.grows_markAll ms) (fun v hv => hv.markAll hms) (fun v hv => ?_) i
  · obtain ⟨added, next, heq, -⟩ := v.markAll_eq ms
    rw [heq]
    exact hv

theorem withSymbols (h : p.Ready) {symbols : Table}
    (hs : ∀ Q : UnitId → Prop, p.symbols.All (fun s => Q s.unit) → symbols.All fun s => Q s.unit) :
    ({ p with symbols } : Program).Ready :=
  ⟨h.wellFormed, h.unbuilt, h.owned.mono (q := { p with symbols }) (grows_of_units_eq rfl) hs,
    h.trees⟩

theorem reference {cfg : Settings} {b : Build} (h : b.Ready) :
    (referencePhase.run cfg u b).2.Ready := by
  have hreports := CycleSearch.reports_checkUnit b.symbols b.poisoned u.id
  exact referencePhase_keeps (I := Ready)
    (fun m hm _ hq => hq.mark _ (forall_mem_singleton.mpr (hreports.errors m hm).2))
    (fun _ _ hq => hq.mark _ fun m hm => (mem_referenceProblems hm).2)
    (h.withSymbols fun Q hQ => (hreports.owners Q hQ).1)

theorem laid (h : p.Ready) (cfg : Settings) (nodes : SyntaxTree) :
    (p.laid cfg u nodes).Ready := by
  obtain ⟨-, hsymbols⟩ := layoutOf_spec cfg u nodes p
  exact (h.withSymbols hsymbols).modifyUnit (fun v => v.grows_withLayout _)
    (fun v hv => hv.withLayout cfg u nodes p) (fun _ _ => rfl) _

theorem folded (h : p.Ready) (nodes : SyntaxTree) : (p.folded u nodes).Ready :=
  h.modifyUnit (SourceUnit.grows_withTree _) (fun _ hv => ⟨hv.code, hv.relocation, hv.markers⟩)
    (fun _ _ => rfl) _

theorem validated (h : p.Ready) (cfg : Settings) (nodes : SyntaxTree) :
    (p.validated cfg u nodes).Ready :=
  h.mark _ (problemsOf_kind cfg u nodes p.symbols)

end Program.Ready

/-! ### Places and trees that are left alone -/

/-- The unit `v` has the source, the place and the tree of `u`. -/
structure SourceUnit.SameTree (u v : SourceUnit) : Prop where
  resource : v.resource = u.resource
  start : v.start = u.start
  stop : v.stop = u.stop
  tree : v.tree = u.tree

/-- The program `q` has the symbols of `p`, and its units in the same order with the same
places and trees. -/
structure Program.SameTrees (p q : Program) : Prop where
  symbols : q.symbols = p.symbols
  order : q.order = p.order
  size : q.all.length = p.all.length
  units : ∀ i, Option.Rel SourceUnit.SameTree (p.get? i) (q.get? i)

theorem Program.rel_modifyUnit {R : SourceUnit → SourceUnit → Prop} (hR : ∀ u, R u u) (p : Program)
    (i : UnitId) (hf : ∀ u, p.get? i = some u → R u (f u)) (k : UnitId) :
    Option.Rel R (p.get? k) ((p.modifyUnit i f).get? k) := by
  unfold Program.modifyUnit
  rw [Units.get?_modify]
  split
  · rename_i hk
    subst hk
    cases hu : p.get? i with
    | none => exact .none
    | some u => exact .some (hf u hu)
  · exact rel_refl hR _

namespace Program.SameTrees

variable {p q r : Program}

theorem refl (p : Program) : p.SameTrees p :=
  ⟨rfl, rfl, rfl, fun _ => rel_refl (fun _ => ⟨rfl, rfl, rfl, rfl⟩) _⟩

theorem trans (h : p.SameTrees q) (h' : q.SameTrees r) : p.SameTrees r := by
  refine ⟨h'.symbols.trans h.symbols, h'.order.trans h.order, h'.size.trans h.size, fun i =>
    rel_trans (h.units i) (h'.units i) fun _ _ _ hu hv => ?_⟩
  exact ⟨hv.resource.trans hu.resource, hv.start.trans hu.start, hv.stop.trans hu.stop,
    hv.tree.trans hu.tree⟩

theorem modifyUnit (p : Program) (i : UnitId) (hf : ∀ u : SourceUnit, u.SameTree (f u)) :
    p.SameTrees (p.modifyUnit i f) :=
  ⟨rfl, rfl, Units.length_all_modify ..,
    p.rel_modifyUnit (fun _ => ⟨rfl, rfl, rfl, rfl⟩) i fun u _ => hf u⟩

theorem mark (p : Program) (i : UnitId) (ms : List Marker) : p.SameTrees (p.mark i ms) := by
  refine modifyUnit p i fun u => ?_
  obtain ⟨added, next, heq, -⟩ := u.markAll_eq ms
  rw [heq]
  exact ⟨rfl, rfl, rfl, rfl⟩

theorem get? (h : p.SameTrees q) {i : UnitId} {u : SourceUnit} {nodes : SyntaxTree}
    (hu : q.get? i = some u) (hnodes : u.tree = some nodes) :
    ∃ v, p.get? i = some v ∧ v.tree = some nodes := by
  obtain ⟨v, hv, hsame⟩ := rel_some_right (h.units i) hu
  exact ⟨v, hv, hsame.tree.symm.trans hnodes⟩

end Program.SameTrees

def Phase.LeavesTrees (phase : Phase) (cfg : Settings) : Prop :=
  ∀ u (b : Build), b.program.SameTrees (phase.run cfg u b).2.program

theorem validationPhase_leavesTrees (cfg : Settings) :
    validationPhase.LeavesTrees cfg := fun _ b =>
  (validationPhase_treewise cfg).keeps (I := b.program.SameTrees) (.refl _) fun _ _ => .mark ..

theorem emissionPhase_leavesTrees (cfg : Settings) :
    emissionPhase.LeavesTrees cfg := fun _ b =>
  emissionPhase_keeps (I := b.program.SameTrees) (.refl _)
    fun _ _ => .modifyUnit _ _ fun _ => ⟨rfl, rfl, rfl, rfl⟩

theorem Phase.LeavesTrees.runUnit {phase : Phase} (h : phase.LeavesTrees cfg) (u : SourceUnit)
    (b : Build) : b.program.SameTrees (WordAsm.runUnit cfg phase u b).program :=
  runUnit_keeps (I := b.program.SameTrees) (fun _ _ _ hp => hp.trans (.mark ..)) (h u b)

end WordAsm
