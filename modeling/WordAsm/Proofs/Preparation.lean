/-
# Programs that are ready to be emitted

After the phases ahead of the emission, if none of them has left an error, every
queued unit has the nodes of its source in their places, with expressions of the
same meaning (`Assembled`), and every expression has a value (`Valid`).
-/
import WordAsm.Proofs.Emission
import WordAsm.Proofs.Placement
import WordAsm.Proofs.Stages

namespace WordAsm

open List

variable {p q : Program} {nodes : SyntaxTree} {t : Table} {u : SourceUnit}

/-- The node `n'` has the statement of `n`, with expressions of the same meaning. -/
def Node.Means (t : Table) (unit : UnitId) (n n' : Node) : Prop :=
  ∃ f, KeepsMeaning t (n'.viewpoint unit) f ∧ n'.statement = n.statement.mapCode f

/-- The unit is in its place, with nodes that mean what its source says. -/
structure Assembled (switches : Switches) (tree : FileTree) (t : Table) (u : SourceUnit)
    (nodes : SyntaxTree) (stop : ℕ) : Prop where
  placed : Placed t u nodes stop
  means : List.Forall₂ (Node.Means t u.id) (u.source switches tree) nodes

/-- The expressions of the unit have values, and move with it or not at all if
that matters. -/
structure Valid (switches : Switches) (t : Table) (u : SourceUnit) (nodes : SyntaxTree) :
    Prop where
  valued : ∀ n ∈ nodes, ∀ e ∈ n.statement.codeExprs, (t.eval (n.viewpoint u.id) e).isSome
  relocatable : switches.has .relocationInformation = true → ∀ n ∈ nodes,
    ∀ e ∈ n.statement.codeExprs, isRelocatable (t.weigh (n.viewpoint u.id) e) = true

/-- A program that is ready to be emitted. -/
structure Program.Prepared (cfg : Settings) (tree : FileTree) (p : Program) : Prop where
  wellFormed : p.WellFormed
  unbuilt : p.Each SourceUnit.Unbuilt
  units : ∀ id ∈ p.order, ∀ u, p.get? id = some u → ∃ nodes stop,
    Assembled cfg.switches tree p.symbols u nodes stop ∧
      Valid cfg.switches p.symbols u nodes

section Stages

variable {v : Viewpoint} {inlined : Bool} {e : Expr} {cfg : Settings} {tree : FileTree}
  {switches : Switches}

/-! ### Parse and layout -/

/-- A program before its first phase. -/
structure Program.Blank (p : Program) : Prop where
  wellFormed : p.WellFormed
  unbuilt : p.Each SourceUnit.Unbuilt
  unplaced : p.Each (·.stop = none)
  symbols : p.symbols.stores = []

theorem blank_reset (hw : p.WellFormed) : p.reset.Blank := by
  have hget : ∀ i u, p.reset.get? i = some u → ∃ v : SourceUnit, u = v.reset := by
    intro i u hu
    obtain ⟨v, -, hv⟩ := Option.map_eq_some_iff.mp (getElem?_map.symm.trans hu)
    exact ⟨v, hv.symm⟩
  refine ⟨reset_wellFormed hw, fun i u hu => ?_, fun i u hu => ?_, rfl⟩
  · obtain ⟨v, rfl⟩ := hget i u hu
    exact ⟨rfl, rfl, fun m hm => absurd hm (by simp [SourceUnit.reset])⟩
  · obtain ⟨v, rfl⟩ := hget i u hu
    rfl

theorem Program.Blank.declaredUpTo (h : p.Blank) : DeclaredUpTo cfg tree 0 p := by
  refine ⟨h.wellFormed, h.unbuilt, Table.sound_of_nil h.symbols, ?_, ?_, ?_, ?_, ?_⟩
  · simp [Table.All, h.symbols]
  · simp
  · simp [Units.labels]
  · simp [Units.labels]
  · simp

theorem unplaced_of_parse (h : Passes cfg tree parsePhase 0 p q) (hw : p.WellFormed)
    (hp : p.Each (·.stop = none)) : q.Each (·.stop = none) := by
  have hend : ∃ n, q.order.length ≤ n ∧ q.WellFormed ∧ q.Each (·.stop = none) := by
    refine h.induct (parsePhase_quiet cfg).toSteady
      (I := fun _ p => p.WellFormed ∧ p.Each (·.stop = none)) ⟨hw, hp⟩ ?_
    rintro k p id u c hk hu - hrun hc hg - ⟨hw, hp⟩
    obtain rfl : u.id = id := hw.numbered id u hu
    obtain ⟨markers, nodes, d, -, -, hext, heq⟩ := parse_visit hu hrun hc
    refine ⟨hg.wellFormed hw, heq ▸ Program.Each.modifyUnit ?_ _ fun v _ hv => hv⟩
    exact hp.extends hu hext (fun _ _ _ _ hstop _ => hstop) fun _ _ => rfl
  obtain ⟨n, -, -, hq⟩ := hend
  exact hq

theorem declared_of_parse (h : Passes cfg tree parsePhase 0 p q) (hp : p.Blank) :
    ∃ n, q.order.length ≤ n ∧ DeclaredUpTo cfg tree n q :=
  h.induct (parsePhase_quiet cfg).toSteady hp.declaredUpTo
    fun _ _ _ _ _ hk hu _ hrun hc _ _ hI => hI.visit hk hu hrun hc

theorem pending_of_parse (h : Passes cfg tree parsePhase 0 p q) (hp : p.Blank) :
    q.Pending 0 := by
  obtain ⟨n, hn, hq⟩ := declared_of_parse h hp
  constructor
  · rw [drop_zero, ← take_of_length_le hn]
    exact hq.nodup
  · intro i _ s hs symbol hsymbol
    exact hq.unassigned s hs symbol
      (mem_of_getElem? (Store.symbol?_eq_some.mp hsymbol).2)

theorem laidUpTo_of_parse (h : Passes cfg tree parsePhase 0 p q) (hp : p.Blank)
    (hshort : q.ShortLists cfg.switches tree) : LaidUpTo cfg tree 0 q := by
  obtain ⟨n, hn, hq⟩ := declared_of_parse h hp
  have htake : q.order.take n = q.order := take_of_length_le hn
  refine ⟨hq.wellFormed, hq.unbuilt, fun id hid u hu => ?_, fun id hid u hu => ?_,
    fun i u hu s hs => ?_, by simp, pending_of_parse h hp⟩
  · exact (hq.declared id (htake.symm ▸ hid) u hu).sourced
  · exact hshort u (Units.mem_ordered_iff.mpr ⟨id, hid, hu⟩)
  · rw [unplaced_of_parse h hp.wellFormed hp.unplaced i u hu] at hs
    cases hs

/-! ### Folding -/

theorem Spans.map {lo hi : ℕ} (h : Spans lo nodes hi) {f : Node → Node}
    (hcode : ∀ n, (f n).statement.isCode = n.statement.isCode)
    (haddress : ∀ n, (f n).address = n.address) (hsize : ∀ n, (f n).size = n.size) :
    Spans lo (nodes.map f) hi := by
  induction h with
  | nil h => exact .nil h
  | @code _ _ n _ _ hc ha hlo _ ih =>
    exact .code ((hcode n).trans hc) ((haddress n).trans ha) hlo (by rw [hsize n]; exact ih)
  | @other _ _ n _ hc _ ih => exact .other ((hcode n).trans hc) ih

theorem Assembled.folded {stop : ℕ} (h : Assembled switches tree t u nodes stop) :
    Assembled switches tree t { u with tree := some (nodes.map (foldNode t u.id)) }
      (nodes.map (foldNode t u.id)) stop := by
  refine ⟨⟨rfl, h.placed.ends, h.placed.within, ?_, fun n hn hc => ?_⟩, ?_⟩
  · exact h.placed.spans.map (fun n => Statement.isCode_mapCode _ _) (fun _ => rfl) fun _ => rfl
  · obtain ⟨m, hm, rfl⟩ := mem_map.mp hn
    have hcode : m.statement.isCode = true := (Statement.isCode_mapCode _ _).symm.trans hc
    exact (h.placed.measured m hm hcode).mapCode (keepsMeaning_fold t (m.viewpoint u.id))
  · rw [forall₂_map_right_iff]
    refine h.means.imp fun n n' hn => ?_
    obtain ⟨f, hf, hs⟩ := hn
    refine ⟨_, (keepsMeaning_fold t (n'.viewpoint u.id)).comp hf, ?_⟩
    show n'.statement.mapCode _ = _
    rw [hs, Statement.mapCode_mapCode]

/-- A program whose queued units are assembled. -/
structure Program.Assembled (cfg : Settings) (tree : FileTree) (p : Program) : Prop where
  wellFormed : p.WellFormed
  unbuilt : p.Each SourceUnit.Unbuilt
  units : ∀ id ∈ p.order, ∀ u, p.get? id = some u → ∃ nodes stop,
    WordAsm.Assembled cfg.switches tree p.symbols u nodes stop

theorem LaidUpTo.assembled {n : ℕ} (h : LaidUpTo cfg tree n p) (hn : p.order.length ≤ n) :
    p.Assembled cfg tree := by
  refine ⟨h.wellFormed, h.unbuilt, fun id hid u hu => ?_⟩
  have htake : p.order.take n = p.order := take_of_length_le hn
  obtain ⟨nodes, stop, hplaced⟩ := h.placed id (htake.symm ▸ hid) u hu
  obtain ⟨nodes', htree, hnodes⟩ := h.sourced id hid u hu
  rw [hplaced.tree] at htree
  cases htree
  refine ⟨nodes, stop, hplaced, hnodes.imp fun n n' hn => ?_⟩
  exact ⟨_, keepsMeaning_id _ _, by rw [Statement.mapCode_id, hn]⟩

theorem Program.Assembled.visit_folding (h : p.Assembled cfg tree)
    (hu : p.get? u.id = some u) (htree : u.tree = some nodes) :
    (p.folded u nodes).Assembled cfg tree := by
  have hg := (foldingPhase_treewise cfg).grows u nodes p
  refine ⟨hg.wellFormed h.wellFormed, h.unbuilt.modifyUnit _ fun v _ hv =>
    ⟨hv.code, hv.relocation, hv.markers⟩, fun i hi w hw => ?_⟩
  rcases Program.get?_modifyUnit_cases hw with ⟨rfl, v, hv, rfl⟩ | ⟨-, hw⟩
  · rw [hu] at hv
    cases hv
    obtain ⟨nodes', stop, hasm⟩ := h.units u.id hi u hu
    have hsame := hasm.placed.tree.symm.trans htree
    cases hsame
    exact ⟨_, stop, hasm.folded⟩
  · exact h.units i hi w hw

/-! ### Validation -/

theorem isSome_of_exprProblems (h : ∀ m ∈ exprProblems switches t v inlined e, m.isError = false) :
    (t.eval v e).isSome := by
  cases hv : t.eval v e with
  | some x => rfl
  | none =>
    have hmem : Marker.error s!"Expression `{e.text}` has no value" ∈
        exprProblems switches t v inlined e := by
      unfold exprProblems
      rw [hv]
      exact mem_append_left _ (mem_singleton_self _)
    cases h _ hmem

/-- With relocation information, an expression that moves in another way than its
module is an error. -/
theorem isRelocatable_of_exprProblems
    (h : ∀ m ∈ exprProblems switches t v inlined e, m.isError = false)
    (hreloc : switches.has .relocationInformation = true) : isRelocatable (t.weigh v e) = true := by
  by_contra hnot
  have hmem : Marker.error s!"Expression `{e.text}` cannot be relocated" ∈
      exprProblems switches t v inlined e := by
    unfold exprProblems
    rw [if_pos (by simp [hreloc, hnot])]
    exact mem_append_right _ (mem_singleton_self _)
  cases h _ hmem

theorem valid_of_problems (h : ∀ m ∈ problemsOf cfg u nodes t, m.isError = false) :
    Valid cfg.switches t u nodes := by
  have hexpr : ∀ n ∈ nodes, ∀ e ∈ n.statement.codeExprs,
      ∀ m ∈ exprProblems cfg.switches t (n.viewpoint u.id) n.inlined e, m.isError = false := by
    intro n hn e he m hm
    have hmem : (m.located n.location).on n.id ∈ problemsOf cfg u nodes t :=
      mem_flatMap.mpr ⟨n, hn, mem_map.mpr ⟨m, mem_flatMap.mpr ⟨e, he, hm⟩, rfl⟩⟩
    have hm' := h _ hmem
    exact hm'
  exact ⟨fun n hn e he => isSome_of_exprProblems (hexpr n hn e he),
    fun hreloc n hn e he => isRelocatable_of_exprProblems (hexpr n hn e he) hreloc⟩

/-- The units of a validation that has come to position `k` without errors. -/
structure ValidUpTo (cfg : Settings) (tree : FileTree) (k : ℕ) (p : Program) : Prop where
  assembled : p.Assembled cfg tree
  valid : ∀ id ∈ p.order.take k, ∀ u, p.get? id = some u → ∀ nodes,
    u.tree = some nodes → Valid cfg.switches p.symbols u nodes

theorem Program.Assembled.mark (h : p.Assembled cfg tree) (i : UnitId) {ms : List Marker}
    (hms : ∀ m ∈ ms, m.kind ≠ .genericError) :
    (p.mark i ms).Assembled cfg tree := by
  refine ⟨(Program.grows_mark p i ms).wellFormed h.wellFormed,
    h.unbuilt.modifyUnit i fun v _ hv => hv.markAll hms, fun k hk w hw => ?_⟩
  rcases Program.get?_modifyUnit_cases hw with ⟨rfl, v, hv, rfl⟩ | ⟨-, hw⟩
  · obtain ⟨nodes, stop, hasm⟩ := h.units _ hk v hv
    obtain ⟨added, next, heq, -⟩ := v.markAll_eq ms
    rw [heq]
    obtain ⟨htree, hends, hwithin, hspans, hmeasured⟩ := hasm.placed
    exact ⟨nodes, stop, ⟨htree, hends, hwithin, hspans, hmeasured⟩, hasm.means⟩
  · exact h.units k hk w hw

theorem ValidUpTo.visit {k : ℕ} (h : ValidUpTo cfg tree k p) (ht : p.At k u nodes)
    (he : (p.validated cfg u nodes).hasErrors = false) :
    ValidUpTo cfg tree (k + 1) (p.validated cfg u nodes) := by
  refine ⟨h.assembled.mark _ (problemsOf_kind cfg u nodes p.symbols), fun i hi w hw => ?_⟩
  rcases Program.get?_modifyUnit_cases hw with ⟨rfl, v, hv, rfl⟩ | ⟨hne, hw⟩
  · obtain rfl : u = v := Option.some.inj (ht.unit.symm.trans hv)
    obtain ⟨added, next, heq, -⟩ := u.markAll_eq (problemsOf cfg u nodes p.symbols)
    have hvalid : Valid cfg.switches p.symbols u nodes :=
      valid_of_problems (Program.noErrors_of_mark ht.unit he)
    rw [heq]
    intro nodes' htree'
    have hsame : nodes = nodes' := Option.some.inj (ht.tree.symm.trans htree')
    subst hsame
    exact ⟨hvalid.valued, hvalid.relocatable⟩
  · exact h.valid i (mem_take_of_mem_take_succ ht.queued hi hne) w hw

/-- **What the phases ahead of the emission leave** if there are no errors. -/
theorem prepared_of_prepares (h : Prepares cfg tree p q) (hp : p.Blank)
    (hshort : q.ShortLists cfg.switches tree) : q.Prepared cfg tree := by
  obtain ⟨hparse, hlayout, hfolding, hvalidation⟩ := h
  have hlaying := layoutPhase_treewise cfg
  have hchecking := validationPhase_treewise cfg
  have hg := (hlayout.grows hlaying.quiet.toSteady).trans
    ((hfolding.grows (foldingPhase_treewise cfg).quiet.toSteady).trans
      (hvalidation.grows hchecking.quiet.toSteady))
  have hparsed := laidUpTo_of_parse hparse hp (hshort.of_grows hg)
  obtain ⟨-, n, hn, hlaid⟩ := hlaying.induct (I := LaidUpTo cfg tree) hlayout
    hparsed.wellFormed hparsed fun _ _ _ _ ht hc hI => hI.visit ht hc
  have hassembled := hlaid.assembled hn
  have hfolded := keeps_of_folding (I := fun p => p.Assembled cfg tree)
    (fun _ _ _ hu htree hI => hI.visit_folding hu htree) hfolding hassembled.wellFormed hassembled
  obtain ⟨-, m, hm, hvalid⟩ := hchecking.induct (I := ValidUpTo cfg tree) hvalidation
    hfolded.wellFormed ⟨hfolded, by simp⟩
    fun _ _ _ _ ht hc hI => hI.visit ht hc
  have htake : q.order.take m = q.order := take_of_length_le hm
  refine ⟨hvalid.assembled.wellFormed, hvalid.assembled.unbuilt, fun id hid u hu => ?_⟩
  obtain ⟨nodes, stop, hasm⟩ := hvalid.assembled.units id hid u hu
  exact ⟨nodes, stop, hasm, hvalid.valid id (htake.symm ▸ hid) u hu nodes hasm.placed.tree⟩

end Stages

end WordAsm
