/-
# The object code is the program

What the object code of a unit has to be is said here without the phases that
make it: statement by statement of the source, the words at the address of the
statement are the values of its expressions, or decode to its instruction, and
there is nothing else but zeros (`ExactCode`). After a compilation that
succeeds, that is what every queued unit has (`object_code_exact`).
-/
import WordAsm.Proofs.Product

namespace WordAsm

open List

variable {n : Node} {nodes : SyntaxTree}

/-! ### What words stand for -/

/-- The expression has a value, and the word is that value modulo `2 ^ 16`. -/
def Table.Worth (t : Table) (v : Viewpoint) (e : Expr) (w : Word) : Prop :=
  ∃ x, t.eval v e = some x ∧ (w.toNat : Int) = x.toInt % 65536

def Operand.literal? : Operand → Option Word
  | register _ => none
  | immediate w => some w
  | inline w => some w.toUInt16

def Operand.Written (t : Table) (v : Viewpoint) (b : Option Operand) : Option Argument → Prop
  | none => b = none
  | some (.register r) => b = some (.register r)
  | some (.expr e) => ∃ o w, b = some o ∧ o.literal? = some w ∧ t.Worth v e w

def Statement.CodedBy (t : Table) (v : Viewpoint) (size : ℕ) (ws : List Word) :
    Statement → Prop
  | words es => List.Forall₂ (t.Worth v) es (ws.take size)
  | instruction op a b => ∃ i, Instruction.decode ws = .ok (i, size) ∧ i.op = op ∧ i.a = a ∧
      Operand.Written t v i.b b
  | _ => False

section Cells

variable {size : ℕ} {t : Table} {v : Viewpoint}

theorem worth_exprCell {e : Expr} (h : (t.eval v e).isSome) : t.Worth v e (exprCell t v e).1 := by
  obtain ⟨x, hx⟩ := Option.isSome_iff_exists.mp h
  refine ⟨x, hx, ?_⟩
  rw [exprCell, hx, Option.getD_some]
  exact toNat_toWord x

theorem literal?_literal (w : Word) (inlining : Bool) :
    (Operand.literal w inlining).literal? = some w := by
  unfold Operand.literal
  split
  · rename_i h
    simp only [Bool.and_eq_true, decide_eq_true_eq] at h
    have hw : w.toNat ≤ 31 := h.2
    refine congrArg some (UInt16.toNat_inj.mp ?_)
    rw [UInt8.toNat_toUInt16, UInt8.toNat_ofNat']
    omega
  · rfl

theorem literal_inline {w : Word} {inlining : Bool} {x : UInt8}
    (h : Operand.literal w inlining = .inline x) : x.toNat ≤ Operand.inlineMax := by
  unfold Operand.literal at h
  split at h
  · rename_i hw
    simp only [Bool.and_eq_true, decide_eq_true_eq] at hw
    cases h
    exact Nat.le_trans (Nat.mod_le _ _) hw.2
  · cases h

theorem codedBy_instruction {op : Opcode} {a : Register} {b : Option Argument} (o : Option Operand)
    (moving : Bool) (hi : Instruction.Sound ⟨op, a, o⟩)
    (hsize : (Instruction.cells ⟨op, a, o⟩ moving).length = size) (hb : Operand.Written t v o b)
    (rest : List Word) :
    (Statement.instruction op a b).CodedBy t v size
      ((Instruction.cells ⟨op, a, o⟩ moving).map Prod.fst ++ rest) := by
  refine ⟨⟨op, a, o⟩, ?_, rfl, rfl, hb⟩
  rw [words_cells, Instruction.decode_encode hi, ← hsize, ← Instruction.length_encode,
    ← words_cells _ moving, length_map]

/-- **The cells of a statement code it.** -/
theorem codedBy_cells {s : Statement} {inlined : Bool} (hcode : s.isCode = true) (hs : s.Sound)
    (hval : ∀ e ∈ s.codeExprs, (t.eval v e).isSome)
    (hsize : (statementCells t v inlined s).length = size) (rest : List Word) :
    s.CodedBy t v size ((statementCells t v inlined s).map Prod.fst ++ rest) := by
  cases s with
  | words es =>
    have htake : ((es.map (exprCell t v)).map Prod.fst ++ rest).take size =
        es.map fun e => (exprCell t v e).1 := by
      rw [take_left' (by rw [length_map]; exact hsize), map_map]
      rfl
    show Forall₂ (t.Worth v) es _
    rw [statementCells, htake, forall₂_map_right_iff, forall₂_same]
    exact fun e he => worth_exprCell (hval e he)
  | instruction op a b =>
    rcases b with _ | (r | e)
    · have hb : Operand.Written t v none none := rfl
      exact codedBy_instruction none false ⟨hs.trans (by simp), fun _ h => by cases h⟩ hsize hb rest
    · have hb : Operand.Written t v (some (.register r)) (some (.register r)) := rfl
      exact codedBy_instruction (some (.register r)) false
        ⟨hs.trans (by simp), fun _ h => by cases h⟩ hsize hb rest
    · refine codedBy_instruction (some (.literal (exprCell t v e).1 inlined)) (exprCell t v e).2
        ⟨hs.trans (by simp), fun x h => ?_⟩ hsize ?_ rest
      · exact literal_inline (Option.some.inj h)
      · exact ⟨_, _, rfl, literal?_literal _ _, worth_exprCell (hval e (mem_singleton_self e))⟩
  | label | equation | origin | includes | macroDef => cases hcode

end Cells

/-! ### The code of a unit -/

/-- Where the code of a node begins. -/
def Node.place (n : Node) : ℕ := (n.address.getD 0).toNat

/-- Where the code of a node ends. -/
def Node.stop (n : Node) : ℕ := n.place + n.size.toNat

/-- The nodes that make words. -/
def codeNodes (nodes : SyntaxTree) : SyntaxTree := nodes.filter (·.statement.isCode)

/-- The words `ws`, from the start of the unit on, are the code of its source and
nothing else. The nodes are those of the source once they have their places. -/
structure ExactCode (t : Table) (u : SourceUnit) (source nodes : SyntaxTree) (stop : ℕ)
    (ws : List Word) : Prop where
  bounded : stop ≤ 0x10000
  addressed : ∀ n ∈ codeNodes nodes, n.address.isSome
  within : ∀ n ∈ codeNodes nodes, u.start.toNat ≤ n.place ∧ n.place < n.stop ∧ n.stop ≤ stop
  ascending : (codeNodes nodes).Pairwise fun n n' => n.stop ≤ n'.place
  coded : List.Forall₂ (fun m n : Node => n.statement.isCode = m.statement.isCode ∧
    (m.statement.isCode = true → m.statement.CodedBy t (n.viewpoint u.id) n.size.toNat
      (ws.drop (n.place - u.start.toNat)))) source nodes
  zero : ∀ k, k < ws.length →
    (∀ n ∈ codeNodes nodes, ¬ (n.place ≤ u.start.toNat + k ∧ u.start.toNat + k < n.stop)) →
    ws[k]? = some 0
  length : u.start.toNat + ws.length =
    ((codeNodes nodes).getLast?.map Node.stop).getD u.start.toNat

theorem codeNodes_cons_code (hc : n.statement.isCode = true) (ns : SyntaxTree) :
    codeNodes (n :: ns) = n :: codeNodes ns := by
  simp [codeNodes, hc]

theorem codeNodes_cons_other (hc : n.statement.isCode = false) (ns : SyntaxTree) :
    codeNodes (n :: ns) = codeNodes ns := by
  simp [codeNodes, hc]

theorem mem_codeNodes : n ∈ codeNodes nodes ↔ n ∈ nodes ∧ n.statement.isCode = true :=
  mem_filter

theorem Spans.bounds {lo hi : ℕ} (h : Spans lo nodes hi) :
    ∀ n ∈ codeNodes nodes, n.address.isSome ∧ lo ≤ n.place ∧ n.stop ≤ hi := by
  induction h with
  | nil _ => exact fun n hn => by cases hn
  | @code lo hi n ns a hc ha hlo rest ih =>
    have hplace : n.place = a.toNat := by rw [Node.place, ha, Option.getD_some]
    have hstop : n.stop = a.toNat + n.size.toNat := by rw [Node.stop, hplace]
    have hle := rest.le
    intro m hm
    rw [codeNodes_cons_code hc] at hm
    rcases mem_cons.mp hm with rfl | hm
    · exact ⟨by rw [ha]; rfl, by omega, by omega⟩
    · obtain ⟨hsome, hlo', hhi'⟩ := ih m hm
      exact ⟨hsome, by omega, hhi'⟩
  | @other lo hi n ns hc _ ih =>
    intro m hm
    rw [codeNodes_cons_other hc] at hm
    exact ih m hm

theorem Spans.pairwise {lo hi : ℕ} (h : Spans lo nodes hi) :
    (codeNodes nodes).Pairwise fun n n' => n.stop ≤ n'.place := by
  induction h with
  | nil _ => exact List.Pairwise.nil
  | @code lo hi n ns a hc ha hlo rest ih =>
    have hstop : n.stop = a.toNat + n.size.toNat := by rw
      [Node.stop, Node.place, ha, Option.getD_some]
    rw [codeNodes_cons_code hc]
    refine List.Pairwise.cons (fun m hm => ?_) ih
    rw [hstop]
    exact (rest.bounds m hm).2.1
  | @other lo hi n ns hc _ ih =>
    rw [codeNodes_cons_other hc]
    exact ih

section Unit

variable {cfg : Settings} {tree : FileTree} {t : Table} {u : SourceUnit}
  {nodes : SyntaxTree} {stop : ℕ}

theorem segment_bounds (hn : Emittable t u.id n) (hc : n.statement.isCode = true)
    (hlo : u.start.toNat ≤ n.place) :
    (n.segment t u.id u.start.toNat).offset = n.place - u.start.toNat ∧
      u.start.toNat + (n.segment t u.id u.start.toNat).stop = n.stop := by
  have hlen : (n.segment t u.id u.start.toNat).content.length = n.size.toNat := hn.length hc
  have hoffset : (n.segment t u.id u.start.toNat).offset = n.place - u.start.toNat := rfl
  refine ⟨hoffset, ?_⟩
  unfold Segment.stop Node.stop
  omega

variable (h : Product cfg tree t u nodes stop)

include h

theorem Product.ascend : Ascend 0 (codeSegments t u.id u.start.toNat nodes) :=
  (ascend_codeSegments h.assembled.placed.spans (h.assembled.emittable h.valid) (Nat.le_refl _)).1

theorem Product.length_le :
    u.start.toNat + (unitCells t u.id u.start.toNat nodes).length ≤ memoryEnd := by
  have hend : u.start.toNat + pourEnd 0 (codeSegments t u.id u.start.toNat nodes) ≤ stop :=
    (ascend_codeSegments h.assembled.placed.spans (h.assembled.emittable h.valid) (Nat.le_refl _)).2
  have hlen := length_pour blankCell h.ascend
  have hwithin := h.assembled.placed.within
  unfold unitCells
  omega

theorem Product.mem_relocation {a : Address} :
    a ∈ u.relocation.entries ↔ cfg.switches.has .relocationInformation = true ∧
      ∃ w, (unitCells t u.id u.start.toNat nodes)[a.toNat]? = some (w, true) := by
  rw [h.emitted.relocation, mem_segmentMarks h.assembled.placed.spans h.assembled.placed.within
    (h.assembled.emittable h.valid) (Nat.le_refl _)]

theorem Product.coded {m : Node} (hm : m.statement.Sound) (hmeans : Node.Means t u.id m n)
    (hn : n ∈ codeNodes nodes) :
    m.statement.CodedBy t (n.viewpoint u.id) n.size.toNat
      (((unitCells t u.id u.start.toNat nodes).map Prod.fst).drop (n.place - u.start.toNat)) := by
  obtain ⟨f, hf, hs⟩ := hmeans
  obtain ⟨hmem, hcode⟩ := mem_codeNodes.mp hn
  have hem := h.assembled.emittable h.valid
  obtain ⟨rest, hrest⟩ := drop_pour blankCell h.ascend (mem_map_of_mem hn)
  have hcells : statementCells t (n.viewpoint u.id) n.inlined n.statement =
      statementCells t (n.viewpoint u.id) n.inlined m.statement := by
    rw [hs, statementCells_mapCode hf]
  have hdrop : (unitCells t u.id u.start.toNat nodes).drop (n.place - u.start.toNat) =
      statementCells t (n.viewpoint u.id) n.inlined m.statement ++ rest := by
    rw [← hcells]
    exact hrest
  rw [← map_drop, hdrop, map_append]
  refine codedBy_cells ?_ hm (fun e he => ?_) ?_ _
  · rwa [hs, Statement.isCode_mapCode] at hcode
  · have hval := h.valid.valued n hmem (f e)
      (by rw [hs, Statement.codeExprs_mapCode]; exact mem_map_of_mem he)
    rwa [(hf e).1] at hval
  · rw [← hcells]
    exact (hem n hmem hcode).length hcode

/-- **What a compilation leaves of a unit is the code of its source.** -/
theorem Product.exactCode :
    ExactCode t u (u.source cfg.switches tree) nodes stop
      ((unitCells t u.id u.start.toNat nodes).map Prod.fst) := by
  have hem := h.assembled.emittable h.valid
  have hspans := h.assembled.placed.spans
  have hbounds := hspans.bounds
  have hsegment : ∀ n ∈ codeNodes nodes,
      (n.segment t u.id u.start.toNat).offset = n.place - u.start.toNat ∧
        u.start.toNat + (n.segment t u.id u.start.toNat).stop = n.stop := fun n hn =>
    segment_bounds (hem n (mem_codeNodes.mp hn).1 (mem_codeNodes.mp hn).2) (mem_codeNodes.mp hn).2
      (hbounds n hn).2.1
  refine ⟨h.assembled.placed.within, fun n hn => (hbounds n hn).1, fun n hn => ?_, hspans.pairwise,
    ?_, fun k hk hno => ?_, ?_⟩
  · obtain ⟨hmem, hcode⟩ := mem_codeNodes.mp hn
    have hpos := (hem n hmem hcode).measured.pos hcode (hem n hmem hcode).sound
    obtain ⟨-, hlo, hhi⟩ := hbounds n hn
    exact ⟨hlo, Nat.lt_add_of_pos_right hpos, hhi⟩
  · refine forall₂_imp_of_mem h.assembled.means fun m hm n hn hmeans => ?_
    have hcode : n.statement.isCode = m.statement.isCode := by
      obtain ⟨f, -, hs⟩ := hmeans
      rw [hs, Statement.isCode_mapCode]
    exact ⟨hcode, fun hc => h.coded (u.source_sound cfg.switches tree m hm) hmeans
      (mem_codeNodes.mpr ⟨hn, hcode.trans hc⟩)⟩
  · rw [length_map] at hk
    rw [getElem?_map, unitCells,
      getElem?_pour_uncovered blankCell h.ascend hk fun s hs hcov => ?_]
    · rfl
    · obtain ⟨n, hn, rfl⟩ := mem_map.mp hs
      obtain ⟨hoffset, hstop⟩ := hsegment n hn
      have hlo := (hbounds n hn).2.1
      unfold Segment.Covers at hcov
      exact hno n hn ⟨by omega, by omega⟩
  · rw [length_map, unitCells]
    have hlen := length_pour blankCell h.ascend
    rw [pourEnd_eq, Nat.zero_add] at hlen
    rw [hlen, show codeSegments t u.id u.start.toNat nodes =
      (codeNodes nodes).map (Node.segment t u.id u.start.toNat) from rfl, getLast?_map]
    cases hlast : (codeNodes nodes).getLast? with
    | none => rfl
    | some n => exact (hsegment n (mem_of_getLast? hlast)).2

end Unit

/-- **The object code is exactly the program.** After a compilation that succeeds,
every queued unit has object code, and its words are the code of the source. -/
theorem object_code_exact {cfg : Settings} {p : Program} {tree : FileTree}
    (hsink : cfg.sink = .memory) (hw : p.WellFormed)
    (h : (compile cfg p tree).1 = true)
    (hshort : (compile cfg p tree).2.ShortLists cfg.switches tree) :
    ∀ id ∈ (compile cfg p tree).2.units.order, ∃ u nodes stop ws,
      (compile cfg p tree).2.units.get? id = some u ∧
        u.tree = some nodes ∧ u.stop = some stop ∧ u.HasWords ws ∧
        ExactCode (compile cfg p tree).2.symbols u
          (u.source cfg.switches tree) nodes stop ws := by
  intro id hid
  obtain ⟨hw', hproduct⟩ := product_of_compile hsink hw h hshort
  obtain ⟨u, hu, -⟩ := hw'.exists_get? hid
  obtain ⟨nodes, stop, hprod⟩ := hproduct u (Units.mem_ordered_iff.mpr ⟨id, hid, hu⟩)
  exact ⟨u, nodes, stop, _, hu, hprod.assembled.placed.tree, hprod.assembled.placed.ends,
    hprod.emitted.words, hprod.exactCode⟩

/-- Two units with forward references, a gap and literals of both sizes. -/
def gapSources : List Resource :=
  [.text "a" "jz a0, g\n.org 9\n.word f - $, -1\n", .text "b" "g: mov a0, 3\nf: ret\n"]

/-- The two units, the second of them first. -/
def gapProgram : Program :=
  { units := { (Program.ofResources gapSources).units with order := [1, 0] } }

theorem wellFormed_gapProgram : gapProgram.WellFormed := by
  have hok : (Program.ofResources gapSources).setOrder [1, 0] = .ok gapProgram.units := rfl
  exact (Program.wellFormed_ofResources gapSources).setOrder hok

/-- The jump is one word at 2, and the list has the two words at 9; what is between them is
zero. -/
theorem object_code_exact_gap :
    ∃ u ws, (compile {} gapProgram {}).2.units.get? 0 = some u ∧
      u.start = 2 ∧ u.HasWords ws ∧ ws.length = 9 ∧ ∀ k, 1 ≤ k → k < 7 → ws[k]? = some 0 := by
  have hunit : ∀ u ∈ (compile {} gapProgram {}).2.units.get? 0, u.start = 2 ∧
      ∀ nodes ∈ u.tree, (codeNodes nodes).map (fun n => (n.place, n.stop)) =
        [(2, 3), (9, 11)] := by decide +kernel
  obtain ⟨u, nodes, stop, ws, hu, htree, -, hwords, hexact⟩ :=
    @object_code_exact {} gapProgram {} rfl wellFormed_gapProgram (by decide +kernel)
      (by decide +kernel) 0 (by decide +kernel)
  obtain ⟨hstart, hplaces⟩ := hunit u hu
  have htwo : u.start.toNat = 2 := congrArg UInt16.toNat hstart
  have hlast : (codeNodes nodes).getLast?.map Node.stop = some 11 := by
    have hlast := congrArg (fun places => places.getLast?.map Prod.snd) (hplaces nodes htree)
    simpa [getLast?_map, Function.comp_def] using hlast
  have hlength := hexact.length
  rw [htwo, hlast, Option.getD_some] at hlength
  refine ⟨u, ws, hu, hstart, hwords, by omega, fun k hlo hhi => ?_⟩
  refine hexact.zero k (by omega) fun n hn hcovers => ?_
  have hplace := mem_map_of_mem (f := fun n : Node => (n.place, n.stop)) hn
  simp only [hplaces nodes htree, mem_cons, Prod.mk.injEq, not_mem_nil, or_false] at hplace
  omega

end WordAsm
