/-
# Emitting a unit

A unit whose code ascends in memory and whose expressions have values can be
emitted, and what comes out is its cells poured from its start on
(`emitNodes_eq`): the words of the buffer are the words of the cells, with zeros
in the gaps, and the relocations are the places of the cells that move.
-/
import WordAsm.Proofs.Layout
import WordAsm.Proofs.Segments
import WordAsm.Proofs.WordMemory

namespace WordAsm

open List

variable {hi lo start : ℕ} {n : Node} {nodes : SyntaxTree}

/-! ### Writes behind everything written -/

namespace WordBuffer

/-- **A write behind all words written so far** fills up with zeros and appends. -/
theorem write_behind {b : WordBuffer} {address : Address} {ws : List Word} (hne : ws ≠ [])
    (hstart : b.start.toNat + b.words.size ≤ address.toNat)
    (hend : address.toNat + ws.length ≤ memoryEnd) :
    ∃ b', b.write address ws = (.ok (), b') ∧ b'.start = b.start ∧
      b'.words.toList = b.words.toList ++
        (List.replicate (address.toNat - b.start.toNat - b.words.size) 0 ++ ws) := by
  obtain ⟨stop, -, hwrite⟩ := write_of_within (b := b) (w := (address, ws)) hne
    ⟨UInt16.le_iff_toNat_le.mpr (Nat.le_trans (Nat.le_add_right _ _) hstart), hend⟩
  refine ⟨_, hwrite, rfl, ext_getElem? fun k => ?_⟩
  set offset := address.toNat - b.start.toNat with hoffset
  have hsize : b.words.size ≤ offset := by omega
  have hgrown : offset + ws.length ≤ (grow b.words (offset + ws.length)).size := by
    rw [grow, Array.size_append, Array.size_replicate]
    omega
  have hnew : (overwrite (grow b.words (offset + ws.length)) offset ws)[k]? = _ :=
    getElem?_overwrite _ _ _ hgrown k
  have hlength : b.words.toList.length = b.words.size := Array.length_toList
  rw [Array.getElem?_toList, hnew, getElem?_grow, getElem?_append, getElem?_append,
    hlength, length_replicate]
  by_cases hold : k < b.words.size
  · rw [if_neg (by omega), if_pos hold, if_pos hold, Array.getElem?_toList]
  rw [if_neg hold, if_neg hold]
  by_cases hgap : k < offset
  · -- zeros up to the new words
    rw [if_neg (by omega), if_pos (by omega), if_pos (by omega),
      getElem?_replicate_of_lt (by omega)]
  · have hindex : k - b.words.size - (offset - b.words.size) = k - offset := by omega
    rw [if_neg (by omega : ¬ k - b.words.size < offset - b.words.size), hindex]
    split
    · rfl
    · rw [if_neg (by omega), getElem?_eq_none (by omega)]

end WordBuffer

/-! ### The nodes of a unit -/

/-- Whether code can be made of a node: its statement is well formed, its
expressions have values and its size is right. -/
structure Emittable (t : Table) (unit : UnitId) (n : Node) : Prop where
  sound : n.statement.Sound
  valued : ∀ e ∈ n.statement.codeExprs, (t.eval (n.viewpoint unit) e).isSome
  measured : Measured t (n.viewpoint unit) n.size.toNat n.inlined n.statement

/-- The cells of a node, at its distance from the start of the unit. -/
def Node.segment (t : Table) (unit : UnitId) (start : ℕ) (n : Node) : Segment Cell :=
  ⟨(n.address.getD 0).toNat - start, statementCells t (n.viewpoint unit) n.inlined n.statement⟩

def codeSegments (t : Table) (unit : UnitId) (start : ℕ) (nodes : SyntaxTree) :
    List (Segment Cell) :=
  (nodes.filter (·.statement.isCode)).map (Node.segment t unit start)

/-- What fills the gaps of a unit. -/
def blankCell : Cell := (0, false)

def unitCells (t : Table) (unit : UnitId) (start : ℕ) (nodes : SyntaxTree) : List Cell :=
  pour blankCell 0 (codeSegments t unit start nodes)

def segmentMarks (ss : List (Segment Cell)) : List Address :=
  ss.flatMap fun s => (marks s.content).map fun i => UInt16.ofNat (s.offset + i)

section Nodes

variable {t : Table} {unit : UnitId} {switches : Switches}

theorem codeSegments_cons_code {ns : SyntaxTree} (hc : n.statement.isCode = true) :
    codeSegments t unit start (n :: ns) =
      n.segment t unit start :: codeSegments t unit start ns := by
  simp [codeSegments, hc]

theorem codeSegments_cons_other {ns : SyntaxTree} (hc : n.statement.isCode = false) :
    codeSegments t unit start (n :: ns) = codeSegments t unit start ns := by
  simp [codeSegments, hc]

theorem Emittable.length (h : Emittable t unit n) (hc : n.statement.isCode = true) :
    (statementCells t (n.viewpoint unit) n.inlined n.statement).length = n.size.toNat :=
  length_cells hc h.measured

theorem emitNode_code {m : Emission} {a : Address} (h : Emittable t unit n)
    (hc : n.statement.isCode = true) (ha : n.address = some a)
    (hlo : m.buffer.start.toNat + m.buffer.words.size ≤ a.toNat)
    (hhi : a.toNat + n.size.toNat ≤ memoryEnd) :
    ∃ m', emitNode switches t unit m n = .ok m' ∧ m'.buffer.start = m.buffer.start ∧
      m'.buffer.words.toList = m.buffer.words.toList ++
        (List.replicate ((n.segment t unit m.buffer.start.toNat).offset - m.buffer.words.size) 0 ++
          (n.segment t unit m.buffer.start.toNat).content.map Prod.fst) ∧
      m'.relocations = m.relocations ++ if switches.has .relocationInformation then
        segmentMarks [n.segment t unit m.buffer.start.toNat] else [] := by
  have hlen := h.length hc
  have hpos := h.measured.pos hc h.sound
  set cells := statementCells t (n.viewpoint unit) n.inlined n.statement with hcells
  have hne : cells.map Prod.fst ≠ [] := by
    intro hnil
    rw [map_eq_nil_iff] at hnil
    rw [hnil] at hlen
    simp only [length_nil] at hlen
    omega
  obtain ⟨buffer, hwrite, hstart, hwords⟩ := WordBuffer.write_behind (b := m.buffer) hne hlo
    (by rw [length_map, hlen]; exact hhi)
  have hseg : n.segment t unit m.buffer.start.toNat =
      ⟨a.toNat - m.buffer.start.toNat, cells⟩ := by
    unfold Node.segment
    rw [ha, Option.getD_some]
  have hmarks : (marks cells).map (fun offset => a - m.buffer.start + UInt16.ofNat offset) =
      segmentMarks [⟨a.toNat - m.buffer.start.toNat, cells⟩] := by
    unfold segmentMarks
    rw [flatMap_singleton]
    refine map_congr_left fun i _ => ?_
    have hsub : a - m.buffer.start = UInt16.ofNat (a.toNat - m.buffer.start.toNat) := by
      have hle : m.buffer.start ≤ a := by
        rw [UInt16.le_iff_toNat_le]
        omega
      rw [← UInt16.toNat_sub_of_le _ _ hle, UInt16.ofNat_toNat]
    rw [hsub, UInt16.ofNat_add]
  have hemit : emitNode switches t unit m n = .ok
      { buffer
        relocations := m.relocations ++ if switches.has .relocationInformation then
          (marks cells).map (fun offset => a - m.buffer.start + UInt16.ofNat offset) else []
        lines := m.lines ++
          if switches.has .debugInformation then [(a, n.location.line)] else [] } := by
    unfold emitNode
    simp only [ha, statementWords_eq hc h.sound h.valued, ← hcells, bind, Except.bind, hwrite]
    rfl
  rw [hseg]
  exact ⟨_, hemit, hstart, hwords, by rw [hmarks]⟩

theorem emitNode_other (m : Emission) (hc : n.statement.isCode = false) :
    emitNode switches t unit m n = .ok m := by
  unfold emitNode
  split
  · rfl
  · rw [statementWords_of_not_code hc]
    rfl

theorem Spans.le (h : Spans lo nodes hi) : lo ≤ hi := by
  induction h with
  | nil h => exact h
  | code _ _ hlo _ ih => omega
  | other _ _ ih => exact ih

theorem ascend_codeSegments {pos : ℕ} (h : Spans lo nodes hi)
    (hem : ∀ n ∈ nodes, n.statement.isCode = true → Emittable t unit n) (hlo : start + pos ≤ lo) :
    Ascend pos (codeSegments t unit start nodes) ∧
      start + pourEnd pos (codeSegments t unit start nodes) ≤ hi := by
  induction h generalizing pos with
  | nil h => exact ⟨trivial, Nat.le_trans hlo h⟩
  | @code lo hi n ns a hc ha hle _ ih =>
    have hlen := (hem n mem_cons_self hc).length hc
    have hoffset : (n.segment t unit start).offset = a.toNat - start := by
      unfold Node.segment
      rw [ha, Option.getD_some]
    have hstop : (n.segment t unit start).stop = a.toNat - start + n.size.toNat := by
      unfold Segment.stop
      rw [hoffset, ← hlen]
      rfl
    have hbehind : start + (n.segment t unit start).stop ≤ a.toNat + n.size.toNat := by omega
    obtain ⟨hasc, hend⟩ := ih (fun r hr => hem r (mem_cons_of_mem _ hr)) hbehind
    rw [codeSegments_cons_code hc]
    exact ⟨⟨by omega, hasc⟩, hend⟩
  | @other lo hi n ns hc _ ih =>
    rw [codeSegments_cons_other hc]
    exact ih (fun r hr => hem r (mem_cons_of_mem _ hr)) hlo

theorem foldlM_emitNode (h : Spans lo nodes hi) (hhi : hi ≤ memoryEnd)
    (hem : ∀ n ∈ nodes, n.statement.isCode = true → Emittable t unit n) (m : Emission)
    (hlo : m.buffer.start.toNat + m.buffer.words.size ≤ lo) :
    ∃ m', nodes.foldlM (emitNode switches t unit) m = .ok m' ∧
      m'.buffer.words.toList = m.buffer.words.toList ++
        (pour blankCell m.buffer.words.size
          (codeSegments t unit m.buffer.start.toNat nodes)).map Prod.fst ∧
      m'.relocations = m.relocations ++ if switches.has .relocationInformation then
        segmentMarks (codeSegments t unit m.buffer.start.toNat nodes) else [] := by
  induction h generalizing m with
  | nil h =>
    refine ⟨m, rfl, by simp [codeSegments, pour], ?_⟩
    simp [codeSegments, segmentMarks]
  | @code lo hi n ns a hc ha hle rest ih =>
    have hn := hem n mem_cons_self hc
    have hstop := rest.le
    obtain ⟨m₁, hemit, hstart, hwords, hrel⟩ := emitNode_code (m := m) hn hc ha
      (by omega) (by omega)
    set seg := n.segment t unit m.buffer.start.toNat with hseg
    have hoffset : seg.offset = a.toNat - m.buffer.start.toNat := by
      rw [hseg, Node.segment, ha, Option.getD_some]
    have hlen : seg.content.length = n.size.toNat := hn.length hc
    have hsize : m₁.buffer.words.size = seg.stop := by
      rw [← Array.length_toList, hwords]
      simp only [length_append, Array.length_toList, length_replicate, length_map]
      unfold Segment.stop
      omega
    have hstop' : seg.stop = seg.offset + seg.content.length := rfl
    obtain ⟨m₂, hfold, hwords₂, hrel₂⟩ := ih hhi (fun r hr => hem r (mem_cons_of_mem _ hr))
      m₁ (by rw [hstart, hsize]; omega)
    have hcons : codeSegments t unit m.buffer.start.toNat (n :: ns) =
        seg :: codeSegments t unit m.buffer.start.toNat ns := codeSegments_cons_code hc
    refine ⟨m₂, ?_, ?_, ?_⟩
    · rw [foldlM_cons, hemit]
      exact hfold
    · rw [hwords₂, hwords, hstart, hsize, hcons, pour]
      simp [blankCell]
    · rw [hrel₂, hrel, hstart, hcons]
      by_cases hr : switches.has .relocationInformation = true
      · simp [hr, segmentMarks]
      · simp [hr]
  | @other lo hi n ns hc _ ih =>
    obtain ⟨m', hfold, hrest⟩ := ih hhi (fun r hr => hem r (mem_cons_of_mem _ hr)) m hlo
    refine ⟨m', ?_, by rwa [codeSegments_cons_other hc]⟩
    rw [foldlM_cons, emitNode_other m hc]
    exact hfold

/-- **What is emitted of a unit** is its cells: their words, and the places of
those that move. -/
theorem emitNodes_eq (switches : Switches) {u : SourceUnit} {stop : ℕ}
    (h : Spans u.start.toNat nodes stop) (hstop : stop ≤ memoryEnd)
    (hem : ∀ n ∈ nodes, n.statement.isCode = true → Emittable t u.id n) :
    ∃ m, emitNodes switches t u nodes = .ok m ∧
      m.buffer.words.toList = (unitCells t u.id u.start.toNat nodes).map Prod.fst ∧
      m.relocations = if switches.has .relocationInformation then
        segmentMarks (codeSegments t u.id u.start.toNat nodes) else [] := by
  obtain ⟨m, hfold, hwords, hrel⟩ := foldlM_emitNode h hstop hem
    { buffer := { start := u.start } } (by simp)
  exact ⟨m, hfold, by simpa [unitCells] using hwords, by simpa using hrel⟩

theorem mem_segmentMarks (h : Spans lo nodes hi) (hhi : hi ≤ memoryEnd)
    (hem : ∀ n ∈ nodes, n.statement.isCode = true → Emittable t unit n) (hlo : start ≤ lo)
    (a : Address) :
    a ∈ segmentMarks (codeSegments t unit start nodes) ↔
      ∃ w, (unitCells t unit start nodes)[a.toNat]? = some (w, true) := by
  have hzero : start + 0 ≤ lo := hlo
  obtain ⟨hasc, hend⟩ := ascend_codeSegments h hem hzero
  unfold memoryEnd at hhi
  unfold unitCells segmentMarks
  simp only [mem_flatMap, mem_map, mem_marks]
  constructor
  · rintro ⟨s, hs, i, ⟨w, hw⟩, rfl⟩
    have hi := (List.getElem?_eq_some_iff.mp hw).1
    have hle := (le_pourEnd hasc).2 s hs
    have hstop : s.stop = s.offset + s.content.length := rfl
    refine ⟨w, (getElem?_pour_eq_some_iff hasc (by simp [blankCell])).mpr ⟨s, hs, i, hw, ?_⟩⟩
    rw [UInt16.toNat_ofNat']
    omega
  · rintro ⟨w, hw⟩
    obtain ⟨s, hs, i, hi, hk⟩ :=
      (getElem?_pour_eq_some_iff hasc (by simp [blankCell])).mp hw
    refine ⟨s, hs, i, ⟨w, hi⟩, ?_⟩
    rw [← hk, Nat.zero_add, UInt16.ofNat_toNat]

end Nodes

end WordAsm
