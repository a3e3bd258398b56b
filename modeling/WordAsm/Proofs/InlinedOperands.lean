/-
# Inlined operands

An operand goes into the instruction word if its value is known and small when the
instruction is laid out. Labels get their addresses later on, but a value that is known
does not change with them (`Table.later_assigned`), and a laid out node has its
address for good. So the value of an inlined operand is the same whenever it is asked for
again: through the rest of the layout, folding, validation and emission.
-/
import WordAsm.Proofs.InPlace
import WordAsm.Proofs.NodeMarkers

namespace WordAsm

open List

variable {e : Expr} {i : ℕ} {op : Opcode} {a : Register} {v : Int64} {b : Build} {m : Marker}
  {cfg : Settings} {nodes : SyntaxTree} {unit : UnitId} {u : SourceUnit}

/-! ### Values and addresses -/

def Table.assigned (t : Table) (addresses : SymbolId → Option Address) : Table :=
  t.mapKinds fun id kind => if kind = .label none then .label (addresses id) else kind

theorem Table.later_assigned (t : Table) (addresses : SymbolId → Option Address) :
    TableAlike id Later t (t.assigned addresses) := by
  refine .of_mapKinds t fun s _ i x _ => ?_
  by_cases hx : x.kind = .label none
  · refine ⟨rfl, rfl, rfl, ?_⟩
    simp only [Symbol.mapKind, hx]
    exact .label (.inl rfl)
  · simpa only [Symbol.mapKind, if_neg hx] using SymbolAlike.refl x

/-! ### One node -/

theorem measure_inlined {inlining : Bool} {eval : Expr → Option Int64} {s : Statement}
    (h : (measure inlining eval s).2 = true) :
    (measure inlining eval s).1 = 1 ∧ ∃ op a e v, s = .instruction op a (some (.expr e)) ∧
      eval e = some v ∧ fitsInline v = true := by
  cases s with
  | instruction op a b =>
    rcases b with _ | (r | e)
    · cases h
    · cases h
    · rw [measure] at h ⊢
      split at h
      · rename_i hfit
        rw [if_pos hfit]
        rw [Bool.and_eq_true, Option.any_eq_true] at hfit
        obtain ⟨-, v, hv, hfits⟩ := hfit
        exact ⟨rfl, op, a, e, v, rfl, hv, hfits⟩
      · cases h
  | words | label | equation | origin | includes | macroDef => cases h

section Nodes

variable {unit : UnitId} {inlining : Bool} {l l' : Layout} {n n' : Node}

/-- **An operand that gets inlined** has a value that fits, seen from where the node
will be seen from now on. -/
theorem LayStep.inlined (h : LayStep unit inlining l n n' l') (hin : n'.inlined = true)
    (he : e ∈ n'.statement.codeExprs) :
    n'.viewpoint unit = l.viewpoint unit n ∧
      ∃ v, l.symbols.eval (l.viewpoint unit n) e = some v ∧ fitsInline v = true := by
  cases h with
  | opens hs | jumps hs =>
    simp only [hs, Statement.codeExprs] at he
    cases he
  | passes hs hm hl =>
    have hmeasure := measure_inlined (congrArg Prod.snd hm |>.trans hin)
    rw [hm] at hmeasure
    exact absurd hmeasure.1 (by simp)
  | @places size inlined address hs hm hp ha hfit =>
    obtain ⟨hsize, op, a, e', v, hstm, hv, hfits⟩ :=
      measure_inlined (congrArg Prod.snd hm |>.trans hin)
    have hone : size = 1 := (congrArg Prod.fst hm).symm.trans hsize
    have hview : ({ n with size, inlined, address := some address } : Node).viewpoint unit =
        l.viewpoint unit n := by
      have hmem : l.address < memoryEnd := by
        have hsize' : size.toNat = 1 := by rw [hone]; rfl
        omega
      unfold Layout.viewpoint Node.viewpoint
      rw [toAddress?_eq_some.mpr ⟨hmem, ha⟩]
    simp only [hstm, Statement.codeExprs, mem_singleton] at he
    subst he
    exact ⟨hview, v, hv, hfits⟩

/-- **The layout of the node at `i`** starts where the layout of the nodes ahead of it
ends, and the symbols then are those at the end with fewer addresses. -/
theorem layNodes_at {more : List SymbolId} (hc : (layNodes unit inlining nodes l).2.Clean)
    (hi : nodes[i]? = some n) (hnodup : (labelIds nodes ++ more).Nodup)
    (hfree : ∀ j ∈ labelIds nodes ++ more, l.symbols.Unassigned j) :
    ∃ n' l₁, (layNodes unit inlining nodes l).1[i]? = some n' ∧
      LayStep unit inlining (layNodes unit inlining (nodes.take i) l).2 n n' l₁ ∧
      TableAlike id Later (layNodes unit inlining (nodes.take i) l).2.symbols
        (layNodes unit inlining nodes l).2.symbols := by
  induction nodes generalizing l i with
  | nil => cases hi
  | cons m nodes ih =>
    rw [labelIds_cons, append_assoc] at hnodup hfree
    rw [layNodes] at hc ⊢
    rcases hlay : layNode unit inlining l m with ⟨m', l₁, go⟩
    cases go with
    | false =>
      simp only [hlay] at hc
      exact absurd (layStep_of_layNode hlay hc).1 (by simp)
    | true =>
      simp only [hlay] at hc ⊢
      have hl₁ : l₁.Clean := fun x hx => hc x (markers_layNodes nodes l₁ hx)
      have hstep := (layStep_of_layNode hlay hl₁).2
      obtain ⟨halike, hrest⟩ := hstep.later hnodup hfree
      have hnodup' := (nodup_append.mp hnodup).2.1
      cases i with
      | zero =>
        cases hi
        exact ⟨m', l₁, rfl, hstep, halike.trans ((lays_of_layNodes hc).later hnodup' hrest).1⟩
      | succ i =>
        have hahead : (layNodes unit inlining ((m :: nodes).take (i + 1)) l).2 =
            (layNodes unit inlining (nodes.take i) l₁).2 := by
          rw [take_succ_cons, layNodes]
          simp only [hlay]
        rw [hahead]
        exact ih hc hi hnodup' hrest

end Nodes

/-! ### Nodes that have been laid out -/

def Node.Snug (t : Table) (unit : UnitId) (n : Node) : Prop :=
  n.inlined = true → ∀ e ∈ n.statement.codeExprs,
    ∃ v, t.eval (n.viewpoint unit) e = some v ∧ fitsInline v = true

section Snug

variable {t t' : Table} {unit : UnitId} {n : Node}

theorem snug_later (h : n.Snug t unit) (ht : TableAlike id Later t t') : n.Snug t' unit := by
  intro hin e he
  obtain ⟨v, hv, hfits⟩ := h hin e he
  exact ⟨v, Table.eval_later ht hv, hfits⟩

theorem snug_fold (h : n.Snug t unit) : (foldNode t unit n).Snug t unit := by
  intro hin e he
  unfold foldNode at he
  rw [Statement.codeExprs_mapCode] at he
  obtain ⟨e', he', rfl⟩ := mem_map.mp he
  obtain ⟨v, hv, hfits⟩ := h hin e' he'
  exact ⟨v, (t.eval_fold (n.viewpoint unit) e').trans hv, hfits⟩

end Snug

/-! ### One unit -/

def layoutAhead (cfg : Settings) (u : SourceUnit) (nodes : SyntaxTree) (i : ℕ) (p : Program) :
    Layout :=
  (layoutOf cfg u (nodes.take i) p).2

/-- Node `i` of the unit `id` is the instruction `op` on `a` with an inlined operand,
which is worth `v`. -/
def Program.Inlines (p : Program) (id : UnitId) (i : ℕ) (op : Opcode) (a : Register) (v : Int64) :
    Prop :=
  ∃ u nodes n e, p.get? id = some u ∧ u.tree = some nodes ∧ nodes[i]? = some n ∧
    n.statement = .instruction op a (some (.expr e)) ∧ n.inlined = true ∧
    p.symbols.eval (n.viewpoint id) e = some v

/-- The operands that the layout has inlined, up to position `k`, have values that fit. -/
def Program.SnugUpTo (k : ℕ) (p : Program) : Prop :=
  ∀ i ∈ p.order.take k, ∀ u nodes, p.get? i = some u → u.tree = some nodes →
    ∀ n ∈ nodes, n.Snug p.symbols i

section Layout

variable {cfg : Settings} {k : ℕ} {p : Program} {u : SourceUnit} {nodes : SyntaxTree}

theorem Program.Pending.layStep (h : p.Pending k) (ht : p.At k u nodes)
    (he : (p.laid cfg u nodes).hasErrors = false) {n : Node} (hi : nodes[i]? = some n) :
    ∃ n' l₁, (layoutOf cfg u nodes p).1[i]? = some n' ∧
      LayStep u.id (!cfg.switches.has .disableInlining) (layoutAhead cfg u nodes i p) n n'
        l₁ ∧
      TableAlike id Later (layoutAhead cfg u nodes i p).symbols
        (p.laid cfg u nodes).symbols := by
  have hlabels := labels_drop ht
  exact layNodes_at (clean_of_visit ht.unit he) hi (hlabels ▸ h.nodup) (hlabels ▸ h.unassigned)

/-- **What is inlined in a layout** has a value that fits, and keeps it. -/
theorem Program.Pending.inlines (h : p.Pending k) (ht : p.At k u nodes)
    (he : (p.laid cfg u nodes).hasErrors = false) {n n' : Node} (hi : nodes[i]? = some n)
    (hs : n.statement = .instruction op a (some (.expr e)))
    (hi' : (layoutOf cfg u nodes p).1[i]? = some n') (hin : n'.inlined = true) :
    ∃ v, (layoutAhead cfg u nodes i p).symbols.eval
        ((layoutAhead cfg u nodes i p).viewpoint u.id n) e = some v ∧
      fitsInline v = true ∧ (p.laid cfg u nodes).Inlines u.id i op a v := by
  obtain ⟨m, l₁, hm, hstep, hlater⟩ := h.layStep ht he hi
  obtain rfl : m = n' := Option.mem_unique hm hi'
  have hs' : m.statement = .instruction op a (some (.expr e)) := by
    obtain ⟨_, _, _, rfl⟩ := hstep.node_eq
    exact hs
  obtain ⟨hview, v, hv, hfits⟩ := hstep.inlined hin (e := e) (by simp [hs', Statement.codeExprs])
  refine ⟨v, hv, hfits, _, _, m, e, get?_laid_self ht.unit, rfl, hi', hs', hin, ?_⟩
  rw [hview]
  exact Table.eval_later hlater hv

theorem Program.Pending.snug (h : p.Pending k) (ht : p.At k u nodes)
    (he : (p.laid cfg u nodes).hasErrors = false) :
    ∀ n ∈ (layoutOf cfg u nodes p).1, n.Snug (p.laid cfg u nodes).symbols u.id := by
  intro n hn hin e hmem
  obtain ⟨i, hi⟩ := mem_iff_getElem?.mp hn
  have hrel := forall₂_getElem? (lays_of_visit ht.unit he).nodes_eq i
  rw [hi] at hrel
  obtain ⟨m, hm⟩ : ∃ m, nodes[i]? = some m := by
    cases hrel' : nodes[i]? with
    | some m => exact ⟨m, rfl⟩
    | none => rw [hrel'] at hrel; cases hrel
  obtain ⟨n', l₁, hn', hstep, hlater⟩ := h.layStep ht he hm
  obtain rfl : n' = n := Option.mem_unique hn' hi
  obtain ⟨hview, v, hv, hfits⟩ := hstep.inlined hin hmem
  refine ⟨v, ?_, hfits⟩
  rw [hview]
  exact Table.eval_later hlater hv

theorem Program.SnugUpTo.laid (h : p.SnugUpTo k) (hpending : p.Pending k) (ht : p.At k u nodes)
    (he : (p.laid cfg u nodes).hasErrors = false) :
    (p.laid cfg u nodes).SnugUpTo (k + 1) := by
  have hlater := (hpending.visit ht he).1
  intro i hi w nodes' hw hnodes' n hn
  rcases get?_laid_cases ht.unit hw with ⟨rfl, rfl⟩ | ⟨hne, hw⟩
  · cases hnodes'
    exact hpending.snug ht he n hn
  · have hi := mem_take_of_mem_take_succ ht.queued hi hne
    exact snug_later (h i hi w nodes' hw hnodes' n hn) hlater

theorem Program.Inlines.laid (h : p.Inlines unit i op a v) (hne : u.id ≠ unit)
    (hlater : TableAlike id Later p.symbols (p.laid cfg u nodes).symbols) :
    (p.laid cfg u nodes).Inlines unit i op a v := by
  obtain ⟨w, nodes', n, e, hw, hnodes', hn, hs, hin, hv⟩ := h
  refine ⟨w, nodes', n, e, ?_, hnodes', hn, hs, hin, Table.eval_later hlater hv⟩
  rw [get?_laid, if_neg hne]
  exact hw

end Layout

/-! ### The layout of a program -/

section Passes

variable {cfg : Settings} {tree : FileTree} {p q : Program}

theorem snug_of_layout (h : Passes cfg tree layoutPhase 0 p q) (hw : p.WellFormed)
    (hp : p.Pending 0) : ∃ n, q.order.length ≤ n ∧ q.SnugUpTo n := by
  obtain ⟨-, n, hn, -, hsnug⟩ := (layoutPhase_treewise cfg).induct
    (I := fun k p => p.Pending k ∧ p.SnugUpTo k) h hw ⟨hp, by simp [Program.SnugUpTo]⟩
    fun k p u nodes ht hc ⟨hpending, hsnug⟩ =>
      ⟨(hpending.visit ht hc).2, hsnug.laid hpending ht hc⟩
  exact ⟨n, hn, hsnug⟩

/-- **The rest of a layout**, after the last visit of a unit, leaves its inlined operands
as they are. -/
theorem Program.Inlines.layout {k : ℕ} (h : p.Inlines unit i op a v)
    (hpasses : Passes cfg tree layoutPhase k p q) (hw : p.WellFormed) (hp : p.Pending k)
    (hlast : ∀ j, k ≤ j → p.order[j]? ≠ some unit) : q.Inlines unit i op a v := by
  obtain ⟨-, n, -, -, -, hend⟩ := (layoutPhase_treewise cfg).induct
    (I := fun j p => p.Pending j ∧ (∀ i, j ≤ i → p.order[i]? ≠ some unit) ∧
      p.Inlines unit i op a v) hpasses hw ⟨hp, hlast, h⟩
    (by
      rintro j p u nodes ht hc ⟨hpending, hlast, h⟩
      obtain ⟨hlater, hpending'⟩ := hpending.visit ht hc
      have hne : u.id ≠ unit := fun hid => hlast j (Nat.le_refl j) (hid ▸ ht.queued)
      exact ⟨hpending', fun i hi => hlast i (Nat.le_of_succ_le hi), h.laid hne hlater⟩)
  exact hend

end Passes

/-! ### Folding, validation and emission -/

section Folding

variable {p : Program} {u : SourceUnit} {nodes : SyntaxTree}

theorem get?_folded_cases {i : UnitId} {w : SourceUnit} {nodes' : SyntaxTree}
    (hw : (p.folded u nodes).get? i = some w) (hnodes' : w.tree = some nodes') :
    (i = u.id ∧ nodes' = nodes.map (foldNode p.symbols u.id)) ∨ p.get? i = some w := by
  rcases Program.get?_modifyUnit_cases hw with ⟨hi, v, -, rfl⟩ | ⟨-, hw⟩
  · exact .inl ⟨hi, (Option.some.inj hnodes').symm⟩
  · exact .inr hw

theorem Program.SnugUpTo.folded {k : ℕ} (h : p.SnugUpTo k) (hu : p.get? u.id = some u)
    (htree : u.tree = some nodes) : (p.folded u nodes).SnugUpTo k := by
  intro i hi w nodes' hw hnodes' n hn
  rcases get?_folded_cases hw hnodes' with ⟨rfl, rfl⟩ | hw
  · obtain ⟨m, hm, rfl⟩ := mem_map.mp hn
    exact snug_fold (h _ hi u nodes hu htree m hm)
  · exact h i hi w nodes' hw hnodes' n hn

theorem Program.Inlines.folded (h : p.Inlines unit i op a v) (hu : p.get? u.id = some u)
    (htree : u.tree = some nodes) : (p.folded u nodes).Inlines unit i op a v := by
  obtain ⟨w, nodes', n, e, hw, hnodes', hn, hs, hin, hv⟩ := h
  by_cases hid : u.id = unit
  · subst hid
    obtain rfl : u = w := Option.mem_unique hu hw
    obtain rfl : nodes = nodes' := Option.mem_unique htree hnodes'
    refine ⟨_, _, foldNode p.symbols u.id n, p.symbols.fold (n.viewpoint u.id) e,
      (Units.get?_modify_self ..).trans (congrArg _ hu), rfl, ?_, ?_, hin, ?_⟩
    · rw [getElem?_map, hn]
      rfl
    · unfold foldNode
      simp only [hs, Statement.mapCode]
    · exact (p.symbols.eval_fold (n.viewpoint u.id) e).trans hv
  · exact ⟨w, nodes', n, e, (Units.get?_modify_of_ne _ _ hid).trans hw, hnodes', hn, hs, hin, hv⟩

end Folding

namespace Program.SameTrees

variable {p q : Program}

theorem snugUpTo (h : p.SameTrees q) {k : ℕ} (hp : p.SnugUpTo k) : q.SnugUpTo k := by
  intro i hi w nodes hw hnodes n hn
  obtain ⟨v, hv, hvnodes⟩ := h.get? hw hnodes
  rw [h.symbols]
  exact hp i (h.order ▸ hi) v nodes hv hvnodes n hn

theorem inlines (h : p.SameTrees q) (hp : p.Inlines unit i op a v) : q.Inlines unit i op a v := by
  obtain ⟨w, nodes, n, e, hw, hnodes, hrest⟩ := hp
  obtain ⟨w', hw', hsame⟩ := rel_some (h.units unit) hw
  rw [← h.symbols] at hrest
  exact ⟨w', nodes, n, e, hw', hsame.tree.trans hnodes, hrest⟩

end Program.SameTrees

theorem Program.Inlines.atPosition (slot : Slot) (h : b.Inlines unit i op a v)
    (hslot : slot.phase.LeavesTrees cfg) (k : ℕ) :
    (WordAsm.atPosition cfg slot b k).Inlines unit i op a v :=
  runUnits_keeps (I := fun p => p.Inlines unit i op a v)
    (fun _ u b _ _ h => (hslot.runUnit u b).inlines h) k 0 false
    (b := b.tell (.phaseStart slot.name)) h

/-! ### The error that is never reported -/

/-- The marker is the report of the validation that an inlined operand has changed. -/
def Marker.ReportsChange (m : Marker) : Prop :=
  ∃ (text : String) (value : Int) (location : Location) (node : ℕ),
    m = { ((Marker.error s!"Inlined operand `{text}` changed to {value}").located location).on
      node with id := m.id }

theorem not_reportsChange_of_untied (h : m.node = none) : ¬ m.ReportsChange := by
  rintro ⟨text, value, location, node, heq⟩
  rw [heq] at h
  cases h

theorem head?_append_text {s : String} {c : Char} (h : s.toList.head? = some c) (rest : String) :
    (s ++ rest).toList.head? = some c := by
  rw [String.toList_append, head?_append, h, Option.some_or]

theorem not_reportsChange_of_head {c : Char} (h : m.message.toList.head? = some c) (hc : c ≠ 'I') :
    ¬ m.ReportsChange := by
  rintro ⟨text, value, location, node, heq⟩
  have hmessage : m.message = s!"Inlined operand `{text}` changed to {value}" := by rw [heq]; rfl
  have hhead : (s!"Inlined operand `{text}` changed to {value}").toList.head? = some 'I' :=
    head?_append_text (head?_append_text (head?_append_text rfl _) _) _
  rw [hmessage, hhead] at h
  exact hc (Option.some.inj h).symm

theorem exprProblems_unchanged {switches : Switches} {t : Table} {v : Viewpoint}
    {inlined : Bool} (h : inlined = true → ∃ x, t.eval v e = some x ∧ fitsInline x = true)
    (hm : m ∈ exprProblems switches t v inlined e) :
    ∃ c, m.message.toList.head? = some c ∧ c ≠ 'I' := by
  rcases mem_append.mp hm with hm | hm
  · rw [Option.mem_toList] at hm
    unfold valueProblem? at hm
    split at hm
    · cases hm
      exact ⟨'E', head?_append_text (head?_append_text rfl _) _, by decide⟩
    · rename_i x hx
      split at hm
      · cases hm
        split
        · exact ⟨'V', head?_append_text (head?_append_text (head?_append_text rfl _) _) _,
            by decide⟩
        · exact ⟨'V', head?_append_text (head?_append_text rfl _) _, by decide⟩
      · split at hm
        · rename_i hchanged
          rw [Bool.and_eq_true, Bool.not_eq_true'] at hchanged
          obtain ⟨y, hy, hfits⟩ := h hchanged.1
          obtain rfl : y = x := Option.mem_unique hy hx
          rw [hfits] at hchanged
          cases hchanged.2
        · cases hm
  · split at hm
    · rw [mem_singleton.mp hm]
      exact ⟨'E', head?_append_text (head?_append_text rfl _) _, by decide⟩
    · cases hm

theorem problemsOf_unchanged {t : Table} (h : ∀ n ∈ nodes, n.Snug t u.id) :
    ∀ m ∈ problemsOf cfg u nodes t, ∀ id, ¬ ({ m with id } : Marker).ReportsChange := by
  intro m hm id
  obtain ⟨n, hn, hm⟩ := mem_flatMap.mp hm
  obtain ⟨m', hm', rfl⟩ := mem_map.mp hm
  obtain ⟨e, he, hm'⟩ := mem_flatMap.mp hm'
  obtain ⟨c, hc, hne⟩ := exprProblems_unchanged (fun hin => h n hn hin e he) hm'
  exact not_reportsChange_of_head hc hne

/-- A program whose inlined operands fit, and whose markers say so. -/
structure Program.Unchanged (n : ℕ) (p : Program) : Prop where
  wellFormed : p.WellFormed
  covered : p.order.length ≤ n
  snug : p.SnugUpTo n
  markers : p.Markers fun m => ¬ m.ReportsChange

theorem Program.Unchanged.validation {n : ℕ} (h : b.Unchanged n) {id : UnitId}
    (hid : id ∈ b.order) (hu : b.get? id = some u) :
    (runUnit cfg validationPhase u b).Unchanged n := by
  have hsteady := (validationPhase_treewise cfg).quiet.toSteady
  have hsame := (validationPhase_leavesTrees cfg).runUnit u b
  refine ⟨(hsteady.grows_runUnit u b).wellFormed h.wellFormed, hsame.order ▸ h.covered,
    hsame.snugUpTo h.snug, runUnit_markers (fun _ => not_reportsChange_of_untied) ?_⟩
  obtain rfl : u.id = id := h.wellFormed.numbered id u hu
  refine (validationPhase_treewise cfg).keeps h.markers fun nodes htree =>
    h.markers.mark _ (problemsOf_unchanged (h.snug u.id ?_ u nodes hu htree))
  rwa [take_of_length_le h.covered]

theorem Program.Unchanged.emission {n : ℕ} (h : b.Unchanged n) (u : SourceUnit) :
    (runUnit cfg emissionPhase u b).Unchanged n := by
  have hsame := (emissionPhase_leavesTrees cfg).runUnit u b
  have hgrows : b.program.Grows (runUnit cfg emissionPhase u b).program :=
    grows_runUnit (emissionPhase_grows cfg u b)
  exact ⟨hgrows.wellFormed h.wellFormed, hsame.order ▸ h.covered, hsame.snugUpTo h.snug,
    runUnit_markers (fun _ => not_reportsChange_of_untied) (emissionPhase_keeps h.markers
      fun _ _ => Program.Each.modifyUnit h.markers _ fun _ _ hv => hv)⟩

section Compilation

variable {cfg : Settings} {p : Program} {tree : FileTree}

theorem sameTrees_of_compile (h : (compile cfg p tree).1 = true) :
    (stage cfg p tree 4).2.program.SameTrees
      (compile cfg p tree).2.program := by
  rw [(stage_of_compile h).2]
  refine runPipeline_keeps (I := fun q => (stage cfg p tree 4).2.program.SameTrees q)
    (fun slot hslot id u b _ _ hsame => hsame.trans ?_) (.refl _)
  simp only [mem_cons, not_mem_nil, or_false] at hslot
  rcases hslot with rfl | rfl
  · exact (validationPhase_leavesTrees cfg).runUnit u b
  · exact (emissionPhase_leavesTrees cfg).runUnit u b

theorem stage_markers (cfg : Settings) (p : Program) (tree : FileTree) :
    (stage cfg p tree 4).2.Markers fun m => ¬ m.ReportsChange := by
  refine runPipeline_keeps (fun slot hslot id u b _ _ h => ?_) fun i u hu m hm => ?_
  · exact preparation_markers (fun _ => not_reportsChange_of_untied) hslot h
  · obtain ⟨v, -, rfl⟩ := Option.map_eq_some_iff.mp (getElem?_map.symm.trans hu)
    cases hm

theorem Arrival.unchanged (h : Arrival cfg p tree) (hw : p.WellFormed) :
    ∃ n, (stage cfg p tree 4).2.Unchanged n := by
  have hpending := pending_of_parse h.parse (blank_reset hw)
  rw [← h.kept] at hpending
  obtain ⟨n, hn, hsnug⟩ := snug_of_layout h.layout h.wellFormed hpending
  have hlaid := (h.layout.grows (layoutPhase_treewise cfg).quiet.toSteady).wellFormed
    h.wellFormed
  have hfolded := (h.folding.grows (foldingPhase_treewise cfg).quiet.toSteady).wellFormed hlaid
  obtain ⟨hn', hsnug'⟩ := keeps_of_folding
    (I := fun p => p.order.length ≤ n ∧ p.SnugUpTo n)
    (fun _ _ _ hu htree h => ⟨h.1, h.2.folded hu htree⟩) h.folding hlaid ⟨hn, hsnug⟩
  exact ⟨n, hfolded, hn', hsnug', stage_markers cfg p tree⟩

/-- **No compilation reports** that an inlined operand has changed. -/
theorem compile_markers (hw : p.WellFormed) :
    (compile cfg p tree).2.Markers fun m => ¬ m.ReportsChange := by
  have hprogram : (compile cfg p tree).2.program =
      (runPipeline cfg (Pipeline.standard.take 4 ++ [validationSlot, emissionSlot])
        (opening p tree)).2.program := rfl
  rw [hprogram, runPipeline_append fun slot h => standard_goes_on slot (mem_of_mem_take h)]
  split
  · exact stage_markers cfg p tree
  · rename_i hgo
    obtain ⟨n, hn⟩ := (arrival_of_stage hw (Bool.eq_false_iff.mpr hgo)).unchanged hw
    refine (runPipeline_keeps (I := fun p => p.Unchanged n) (fun slot hslot id u b hid hu h => ?_)
      hn).markers
    simp only [mem_cons, not_mem_nil, or_false] at hslot
    rcases hslot with rfl | rfl
    · exact h.validation hid hu
    · exact h.emission u

/-- In the program `p`, whose layout has come to position `k`, the unit `u` is next, and
not again later, and the layout inlines the operand `e` of its node `n` at `i`. -/
structure SizedInline (cfg : Settings) (p : Program) (k : ℕ) (u : SourceUnit)
    (nodes : SyntaxTree) (i : ℕ) (n : Node) (op : Opcode) (a : Register) (e : Expr) : Prop where
  next : p.order[k]? = some u.id
  last : ∀ j, k < j → p.order[j]? ≠ some u.id
  unit : p.get? u.id = some u
  tree : u.tree = some nodes
  node : nodes[i]? = some n
  statement : n.statement = .instruction op a (some (.expr e))
  inlined : ∃ n', (layoutOf cfg u nodes p).1[i]? = some n' ∧ n'.inlined = true

theorem SizedInline.inlines {k : ℕ} {u : SourceUnit} {nodes : SyntaxTree} {n : Node}
    (h : SizedInline cfg (atPosition cfg layoutSlot (stage cfg p tree 2).2 k).program
      k u nodes i n op a e)
    (hw : p.WellFormed) (hgo : (stage cfg p tree 4).1 = false) :
    ∃ v, (layoutAhead cfg u nodes i
        (atPosition cfg layoutSlot (stage cfg p tree 2).2 k).program).symbols.eval
          ((layoutAhead cfg u nodes i
            (atPosition cfg layoutSlot (stage cfg p tree 2).2 k).program).viewpoint
              u.id n) e = some v ∧
      fitsInline v = true ∧ (stage cfg p tree 4).2.Inlines u.id i op a v := by
  have harrival := arrival_of_stage hw hgo
  have hpending := pending_of_parse harrival.parse (blank_reset hw)
  rw [← harrival.kept] at hpending
  have hall : Passes cfg (stage cfg p tree 2).2.tree layoutPhase 0
      (stage cfg p tree 2).2.program
      (runPhase cfg layoutSlot (stage cfg p tree 2).2).2.program := by
    rw [harrival.files, ← harrival.lays]
    exact harrival.layout
  have hunitwise : layoutSlot.phase.Unitwise cfg _ := layoutPhase_unitwise cfg
  have hk : k < (stage cfg p tree 2).2.units.order.length := by
    have hnext := h.next
    rw [hunitwise.order_atPosition] at hnext
    exact (List.getElem?_eq_some_iff.mp hnext).1
  obtain ⟨hwk, hpk, hrest⟩ := hunitwise.passes_at harrival.wellFormed harrival.laid hall
    (I := fun k p => p.Pending k) hpending
    (fun k p u nodes _ ht he hp => (hp.visit ht he).2) k (Nat.le_of_lt hk)
  rw [← harrival.lays] at hrest
  generalize (atPosition cfg layoutSlot (stage cfg p tree 2).2 k).program = c at *
  -- the visit of the unit, and then those of other units
  cases hrest with
  | done hbehind _ =>
    rw [h.next] at hbehind
    cases hbehind
  | @visit _ _ _ id u' c' hid hu' hp hrun next =>
    obtain rfl : u.id = id := Option.some.inj (h.next.symm.trans hid)
    obtain rfl : u = u' := Option.some.inj (h.unit.symm.trans hu')
    obtain ⟨nodes', htree, heq⟩ := (layoutPhase_treewise cfg).visit hrun
    obtain rfl : nodes = nodes' := Option.some.inj (h.tree.symm.trans htree)
    rw [heq] at next
    have he := next.noErrors_first
    obtain ⟨n', hn', hin⟩ := h.inlined
    have ht : c.At k u nodes := ⟨h.next, h.unit, h.tree⟩
    obtain ⟨v, hv, hfits, hinlines⟩ := hpk.inlines ht he h.node h.statement hn' hin
    have hw' := ((layoutPhase_treewise cfg).grows u nodes c).wellFormed hwk
    have hlaid := hinlines.layout next hw' (hpk.visit ht he).2 fun j hj => h.last j hj
    have hlw := (harrival.layout.grows (layoutPhase_treewise cfg).quiet.toSteady).wellFormed
      harrival.wellFormed
    exact ⟨v, hv, hfits, keeps_of_folding (I := fun p => p.Inlines u.id i op a v)
      (fun _ _ _ hu htree h => h.folded hu htree) harrival.folding hlw hlaid⟩

/-- **An inlined operand never changes.** Values stay when labels that had no address get
one. So an operand that is inlined in the layout of a program has the same value, between 0
and 31, whenever the validation and the emission look at it, and no compilation reports that
it has another one. A unit that is queued more than once is laid out as often, and only what its
last layout inlines is emitted so. -/
theorem inlined_operands_stay (cfg : Settings) {p : Program} (tree : FileTree)
    (hw : p.WellFormed) :
    (∀ (t : Table) (addresses : SymbolId → Option Address) (v : Viewpoint) (e : Expr)
      (x : Int64), t.eval v e = some x → (t.assigned addresses).eval v e = some x) ∧
    ((stage cfg p tree 4).1 = false → ∀ k u nodes i n op a e,
      let laying := (atPosition cfg layoutSlot (stage cfg p tree 2).2 k).program
      SizedInline cfg laying k u nodes i n op a e →
      let l := layoutAhead cfg u nodes i laying
      ∃ v, l.symbols.eval (l.viewpoint u.id n) e = some v ∧ 0 ≤ v.toInt ∧ v.toInt ≤ 31 ∧
        ∀ j, (atPosition cfg validationSlot (stage cfg p tree 4).2 j).Inlines
            u.id i op a v ∧
          (atPosition cfg emissionSlot (stage cfg p tree 5).2 j).Inlines
            u.id i op a v) ∧
    ∀ i u, (compile cfg p tree).2.units.get? i = some u →
      ∀ m ∈ u.markers, ¬ m.ReportsChange := by
  refine ⟨fun t addresses v e x h => Table.eval_later (t.later_assigned addresses) h, ?_,
    compile_markers hw⟩
  intro hgo k u nodes i n op a e laying h l
  obtain ⟨v, hv, hfits, hinlines⟩ := h.inlines hw hgo
  have hrange : 0 ≤ v.toInt ∧ v.toInt ≤ 31 := by
    obtain ⟨hlo, hhi⟩ := Bool.and_eq_true_iff.mp hfits
    exact ⟨of_decide_eq_true hlo, of_decide_eq_true hhi⟩
  have hvalidated : (stage cfg p tree 5).2.Inlines u.id i op a v := by
    rw [stage_add_one validationSlot rfl, hgo, if_neg Bool.false_ne_true]
    refine runPipeline_keeps (I := fun p => p.Inlines u.id i op a v)
      (fun slot hslot _ w b _ _ h => ?_) hinlines
    rw [mem_singleton.mp hslot]
    exact ((validationPhase_leavesTrees cfg).runUnit w b).inlines h
  exact ⟨v, hv, hrange.1, hrange.2, fun j =>
    ⟨hinlines.atPosition validationSlot (validationPhase_leavesTrees cfg) j,
      hvalidated.atPosition emissionSlot (emissionPhase_leavesTrees cfg) j⟩⟩

end Compilation

/-! ### A small program -/

/-- Settings that know a source with one equation. -/
def sizeSettings : Settings where
  resolver := .memory [("size", ".equ size, 5 * 6\n")]

/-- A program with an operand that counts words from a label, by an equation of another
unit. -/
def countedWords : Program :=
  .ofResources [.text "main" (".include \"size\"\nnop\nhere: mov a0, $ - here + size\n" ++
    "mov a1, end\nend: ret\n")]

/-- The operand is worth 30, ahead of the validation and in the middle of the emission. -/
theorem inlined_operands_stay_counted :
    (atPosition sizeSettings validationSlot
        (stage sizeSettings countedWords {} 4).2 0).Inlines 0 3 .mov .a0 30 ∧
      (atPosition sizeSettings emissionSlot
        (stage sizeSettings countedWords {} 5).2 1).Inlines 0 3 .mov .a0 30 := by
  let c := (atPosition sizeSettings layoutSlot (stage sizeSettings countedWords {} 2).2 0).program
  let e : Expr := .binary .add (.binary .sub .current (.ident "here")) (.ident "size")
  have hgo : (stage sizeSettings countedWords {} 4).1 = false := by decide +kernel
  have horder : c.order = [0, 1] := by decide +kernel
  have hfound : (c.get? 0).any (fun u => u.id == 0 && u.tree.any fun nodes =>
      nodes[3]?.any fun n => n.statement == .instruction .mov .a0 (some (.expr e)) &&
        (layoutOf sizeSettings u nodes c).1[3]?.any Node.inlined &&
        (layoutAhead sizeSettings u nodes 3 c).symbols.eval
          ((layoutAhead sizeSettings u nodes 3 c).viewpoint u.id n) e == some 30) = true := by
    decide +kernel
  simp only [Option.any_eq_true, Bool.and_eq_true, beq_iff_eq] at hfound
  obtain ⟨u, hu, hid, nodes, hnodes, n, hn, ⟨hs, hin⟩, hv⟩ := hfound
  have hsized : SizedInline sizeSettings c 0 u nodes 3 n .mov .a0 e := by
    refine ⟨?_, fun j hj => ?_, hid.symm ▸ hu, hnodes, hn, hs, hin⟩
    · rw [horder, hid]
      rfl
    · rw [horder, hid]
      match j, hj with
      | 1, _ => decide
      | j + 2, _ => simp
  obtain ⟨v, hsizing, -, -, hstays⟩ :=
    (inlined_operands_stay sizeSettings {} (Program.wellFormed_ofResources _)).2.1 hgo 0 u nodes 3 n
      .mov .a0 e hsized
  obtain rfl : v = 30 := Option.mem_unique hsizing hv
  rw [hid] at hstays
  exact ⟨(hstays 0).1, (hstays 1).2⟩

end WordAsm
