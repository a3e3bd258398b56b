/-
# The words of a statement

The words of a statement come with the positions of those that move. Both are
kept together here, as cells: a word and whether it moves. `statementCells` is
defined by the values and weights of the expressions alone, and equals what is
emitted (`statementWords_eq`). So the cells do not change when expressions are
replaced by others of the same meaning (`statementCells_mapCode`), and when all
addresses go up by `d`, exactly the cells that move go up by `d`
(`statementCells_shift`).
-/
import WordAsm.Build.Emission
import WordAsm.Proofs.Attempts
import WordAsm.Proofs.InstructionStreams
import WordAsm.Proofs.Values

namespace WordAsm

open List

variable {inlined : Bool} {s : Statement} {f : Expr → Expr} {t : Table} {v : Viewpoint}

/-! ### Cells -/

/-- A word, and whether it moves with its module. -/
abbrev Cell := Word × Bool

/-- The cell of an expression that has a value. -/
def exprCell (t : Table) (v : Viewpoint) (e : Expr) : Cell :=
  (toWord ((t.eval v e).getD 0), moves t v e)

/-- The cells of an instruction whose operand word moves if `moving` says so. -/
def Instruction.cells (i : Instruction) (moving : Bool) : List Cell :=
  match i.b with
  | some (.immediate w) => [(i.head, false), (w, moving)]
  | _ => [(i.head, false)]

/-- The cells of a statement whose expressions have values. -/
def statementCells (t : Table) (v : Viewpoint) (inlined : Bool) : Statement → List Cell
  | .words es => es.map (exprCell t v)
  | .instruction op a none => Instruction.cells ⟨op, a, none⟩ false
  | .instruction op a (some (.register r)) => Instruction.cells ⟨op, a, some (.register r)⟩ false
  | .instruction op a (some (.expr e)) =>
    let cell := exprCell t v e
    Instruction.cells ⟨op, a, some (.literal cell.1 inlined)⟩ cell.2
  | _ => []

/-- The positions of the cells that move. -/
def marks (cells : List Cell) : List ℕ := (cells.zipIdx.filter fun (c, _) => c.2).map (·.2)

def Statement.isCode : Statement → Bool
  | words _ => true
  | instruction _ _ _ => true
  | _ => false

/-- What is true of every statement that is read: an instruction has an operand
exactly if its opcode takes one, and a list of words is not empty. -/
def Statement.Sound : Statement → Prop
  | words es => es ≠ []
  | instruction op _ b => op.shape = .bare ↔ b = none
  | _ => True

theorem mem_marks {cells : List Cell} {i : ℕ} : i ∈ marks cells ↔ ∃ w, cells[i]? = some
    (w, true) := by
  unfold marks
  simp only [mem_map, mem_filter, mem_zipIdx_iff_getElem?, Prod.exists]
  constructor
  · rintro ⟨w, b, j, ⟨hj, rfl⟩, rfl⟩
    exact ⟨w, hj⟩
  · rintro ⟨w, hw⟩
    exact ⟨w, true, i, ⟨hw, rfl⟩, rfl⟩

section Words

variable {t : Table} {v : Viewpoint}

theorem exprWord_of_value {e : Expr} (h : (t.eval v e).isSome) :
    exprWord t v e = .ok (exprCell t v e).1 := by
  unfold exprWord exprCell
  obtain ⟨x, hx⟩ := Option.isSome_iff_exists.mp h
  rw [hx, Option.getD_some]

theorem mapM_exprWord {es : List Expr} (h : ∀ e ∈ es, (t.eval v e).isSome) :
    es.mapM (exprWord t v) = .ok ((es.map (exprCell t v)).map Prod.fst) := by
  rw [map_map]
  exact mapM_eq_ok fun e he => exprWord_of_value (h e he)

theorem marks_map (es : List Expr) :
    marks (es.map (exprCell t v)) = (es.zipIdx.filter fun (e, _) => moves t v e).map (·.2) := by
  unfold marks
  rw [zipIdx_map, filter_map, map_map]
  rfl

theorem marks_cells (i : Instruction) (moving : Bool) :
    marks (i.cells moving) =
      match i.immediateOffset with
      | some offset => if moving then [offset] else []
      | none => [] := by
  obtain ⟨op, a, b⟩ := i
  rcases b with _ | (_ | _ | _)
  · rfl
  · rfl
  · cases moving <;> rfl
  · rfl

theorem words_cells (i : Instruction) (moving : Bool) :
    (i.cells moving).map Prod.fst = i.encode := by
  obtain ⟨op, a, b⟩ := i
  rcases b with _ | (_ | _ | _) <;> rfl

/-- **The cells are what is emitted**: their words, and the positions of those
that move. -/
theorem statementWords_eq (hcode : s.isCode = true) (hs : s.Sound)
    (hval : ∀ e ∈ s.codeExprs, (t.eval v e).isSome) :
    statementWords t v inlined s = .ok (some
      ((statementCells t v inlined s).map Prod.fst, marks (statementCells t v inlined s))) := by
  cases s with
  | words es =>
    have hwords : es.mapM (exprWord t v) = _ := mapM_exprWord hval
    simp only [statementWords, statementCells, hwords, marks_map]
    rfl
  | instruction op a b =>
    have hmake : ∀ o : Option Operand, (o = none ↔ b = none) →
        Instruction.make op a o = .ok ⟨op, a, o⟩ := by
      intro o ho
      exact Instruction.make_eq_ok.mpr ⟨rfl, Iff.trans hs ho.symm⟩
    unfold statementWords instructionWords statementCells
    cases b with
    | none =>
      have hm := hmake none (by simp)
      simp only [pure_bind, hm, marks_cells, words_cells]
      rfl
    | some b =>
      cases b with
      | register r =>
        have hm := hmake (some (.register r)) (by simp)
        simp only [pure_bind, hm, marks_cells, words_cells]
        rfl
      | expr e =>
        have hm := hmake (some (.literal (exprCell t v e).1 inlined)) (by simp)
        have hw := exprWord_of_value (hval e (mem_singleton_self e))
        simp only [hw, marks_cells, words_cells]
        simp only [bind, Except.bind, pure, Except.pure, hm, Except.map]
        cases Instruction.immediateOffset ⟨op, a, some (.literal (exprCell t v e).1 inlined)⟩ <;>
          rfl
  | label | equation | origin | includes | macroDef => cases hcode

theorem statementWords_of_not_code (hcode : s.isCode = false) :
    statementWords t v inlined s = .ok none := by
  cases s with
  | words | instruction => cases hcode
  | _ => rfl

end Words

/-! ### Sizes -/

theorem toWord_add (x y : Int64) : toWord (x + y) = toWord x + toWord y := by
  unfold toWord
  rw [Int64.toUInt64_add, UInt64.toUInt16_add]

theorem toWord_ofNat (n : ℕ) : toWord (Int64.ofNat n) = UInt16.ofNat n := by
  unfold toWord
  rw [Int64.toUInt64_ofNat', UInt64.toUInt16_ofNat']

theorem toNat_toWord (x : Int64) : ((toWord x).toNat : Int) = x.toInt % 65536 := by
  have hint : x.toInt = x.toUInt64.toBitVec.toInt := rfl
  have hnat : x.toUInt64.toNat = x.toUInt64.toBitVec.toNat := rfl
  have hlt := x.toUInt64.toBitVec.isLt
  unfold toWord
  rw [UInt64.toNat_toUInt16, hint, BitVec.toInt_eq_toNat_cond, hnat]
  split <;> omega

theorem toWord_le_of_fitsInline {x : Int64} (h : fitsInline x = true) :
    (toWord x).toNat ≤ Operand.inlineMax := by
  unfold fitsInline Operand.inlineMax at h
  simp only [Bool.and_eq_true, decide_eq_true_eq] at h
  have hx := toNat_toWord x
  rw [Operand.inlineMax]
  omega

/-- What the size of a statement and its inlining promise: an operand in the
instruction word has a value that fits there. -/
def Measured (t : Table) (v : Viewpoint) (size : ℕ) (inlined : Bool) : Statement → Prop
  | .words es => size = es.length ∧ inlined = false
  | .instruction _ _ (some (.expr e)) =>
    (inlined = true ∧ size = 1 ∧ ∃ x, t.eval v e = some x ∧ fitsInline x = true) ∨
      (inlined = false ∧ size = 2)
  | .instruction _ _ _ => inlined = false ∧ size = 1
  | _ => True

section Sizes

variable {t : Table} {v : Viewpoint}

theorem length_cells {size : ℕ} (hcode : s.isCode = true) (h : Measured t v size inlined s) :
    (statementCells t v inlined s).length = size := by
  cases s with
  | words es =>
    unfold statementCells
    rw [length_map, h.1]
  | instruction op a b =>
    rcases b with _ | (r | e)
    · exact h.2.symm
    · exact h.2.symm
    · unfold statementCells Operand.literal
      rcases h with ⟨rfl, rfl, x, hx, hfits⟩ | ⟨rfl, rfl⟩
      · have hle : (exprCell t v e).1.toNat ≤ Operand.inlineMax := by
          unfold exprCell
          rw [hx]
          exact toWord_le_of_fitsInline hfits
        simp [hle, Instruction.cells]
      · simp [Instruction.cells]
  | label | equation | origin | includes | macroDef => cases hcode

theorem Measured.later {t' : Table} (ht : TableAlike id Later t t') {size : ℕ}
    (h : Measured t v size inlined s) :
    Measured t' v size inlined s := by
  cases s with
  | instruction op a b =>
    rcases b with _ | (r | e)
    · exact h
    · exact h
    · rcases h with ⟨hi, hs, x, hx, hfits⟩ | h
      · exact .inl ⟨hi, hs, x, Table.eval_later ht hx, hfits⟩
      · exact .inr h
  | _ => exact h

end Sizes

/-! ### Other expressions of the same meaning -/

/-- Whether `f` keeps the values and weights of expressions. -/
def KeepsMeaning (t : Table) (v : Viewpoint) (f : Expr → Expr) : Prop :=
  ∀ e, t.eval v (f e) = t.eval v e ∧ t.weigh v (f e) = t.weigh v e

theorem keepsMeaning_id (t : Table) (v : Viewpoint) : KeepsMeaning t v id :=
  fun _ => ⟨rfl, rfl⟩

theorem keepsMeaning_fold (t : Table) (v : Viewpoint) : KeepsMeaning t v (t.fold v) :=
  fun e => ⟨t.eval_fold v e, t.weigh_fold v e⟩

theorem KeepsMeaning.comp {g : Expr → Expr} (hg : KeepsMeaning t v g) (hf : KeepsMeaning t v f) :
    KeepsMeaning t v (g ∘ f) :=
  fun e => ⟨(hg (f e)).1.trans (hf e).1, (hg (f e)).2.trans (hf e).2⟩

theorem exprCell_of_keeps (hf : KeepsMeaning t v f) (e : Expr) :
    exprCell t v (f e) = exprCell t v e := by
  unfold exprCell moves
  rw [(hf e).1, (hf e).2]

namespace Statement

theorem mapCode_id (s : Statement) : s.mapCode id = s := by
  cases s with
  | words es => simp [mapCode]
  | instruction op a b => rcases b with _ | (_ | _) <;> rfl
  | _ => rfl

theorem mapCode_mapCode (f g : Expr → Expr) (s : Statement) :
    (s.mapCode f).mapCode g = s.mapCode (g ∘ f) := by
  cases s with
  | words es => simp [mapCode]
  | instruction op a b => rcases b with _ | (_ | _) <;> rfl
  | _ => rfl

theorem codeExprs_mapCode (f : Expr → Expr) (s : Statement) :
    (s.mapCode f).codeExprs = s.codeExprs.map f := by
  cases s with
  | words es => rfl
  | instruction op a b => rcases b with _ | (_ | _) <;> rfl
  | _ => rfl

theorem isCode_mapCode (f : Expr → Expr) (s : Statement) : (s.mapCode f).isCode = s.isCode := by
  cases s with
  | words es => rfl
  | instruction op a b => rcases b with _ | (_ | _) <;> rfl
  | _ => rfl

theorem Sound.mapCode (h : s.Sound) (f : Expr → Expr) : (s.mapCode f).Sound := by
  cases s with
  | words es =>
    intro hmap
    exact h (map_eq_nil_iff.mp hmap)
  | instruction op a b =>
    rcases b with _ | (_ | _)
    · exact h
    · exact h
    · exact h.trans (by simp)
  | _ => trivial

end Statement

theorem statementCells_mapCode (hf : KeepsMeaning t v f) (inlined : Bool) (s : Statement) :
    statementCells t v inlined (s.mapCode f) = statementCells t v inlined s := by
  cases s with
  | words es =>
    simp only [Statement.mapCode, statementCells, map_map]
    exact map_congr_left fun e _ => exprCell_of_keeps hf e
  | instruction op a b =>
    rcases b with _ | (_ | e)
    · rfl
    · rfl
    · simp only [Statement.mapCode, statementCells, exprCell_of_keeps hf e]
  | _ => rfl

theorem Measured.mapCode {size : ℕ} (h : Measured t v size inlined s) (hf : KeepsMeaning t v f) :
    Measured t v size inlined (s.mapCode f) := by
  cases s with
  | words es => exact ⟨by simpa [Statement.mapCode] using h.1, h.2⟩
  | instruction op a b =>
    rcases b with _ | (_ | e)
    · exact h
    · exact h
    · rcases h with ⟨hi, hs, x, hx, hfits⟩ | h
      · exact .inl ⟨hi, hs, x, (hf e).1.trans hx, hfits⟩
      · exact .inr h
  | _ => trivial

/-! ### The same statement further up -/

/-- A cell after its module moved up by `d` words. -/
def movedBy (d : ℕ) (c : Cell) : Cell := (if c.2 then c.1 + UInt16.ofNat d else c.1, c.2)

section Moved

variable {g : UnitId → UnitId} {d : ℕ} {t t' : Table} {v v' : Viewpoint}
  (hg : Function.Injective g) (h : TableAlike g (Shifted d) t t') (hunit : v'.unit = g v.unit)
  (hscope : v'.scope = v.scope) (hcurrent : Shifted d v.current v'.current)
  (hlabels : v.labels = true) (hlabels' : v'.labels = true)

include hg h hunit hscope hcurrent hlabels hlabels'

theorem exprCell_shift {e : Expr} (hval : (t.eval v e).isSome)
    (hweight : isRelocatable (t.weigh v e) = true) (hexact : t.WeighsExactly v e) :
    exprCell t' v' e = movedBy d (exprCell t v e) := by
  obtain ⟨x, hx⟩ := Option.isSome_iff_exists.mp hval
  have hsame : t'.weigh v' e = t.weigh v e := Table.weigh_alike hg h hunit hscope e
  have hshift := fun k hk => Table.eval_shift (k := k) hg h hunit hscope hcurrent hlabels
    hlabels' (e := e) hk
  unfold isRelocatable at hweight
  rw [Bool.or_eq_true, beq_iff_eq, beq_iff_eq] at hweight
  unfold exprCell moves movedBy
  rw [hsame, hx]
  unfold Table.WeighsExactly at hexact
  rcases hweight with hw | hw <;> rw [hw] at hexact
  · simp [hshift 0 hexact, hw, hx]
  · have hvalue : t'.eval v' e = some (x + Int64.ofNat d) := by simp [hshift 1 hexact, hx]
    simp only [hvalue, hw, Option.getD_some, toWord_add, toWord_ofNat, beq_self_eq_true, if_true]

/-- **Exactly the cells that move go up**, when everything moves up and no operand
is inlined. -/
theorem statementCells_shift (hval : ∀ e ∈ s.codeExprs, (t.eval v e).isSome)
    (hweight : ∀ e ∈ s.codeExprs, isRelocatable (t.weigh v e) = true)
    (hexact : ∀ e ∈ s.codeExprs, t.WeighsExactly v e) :
    statementCells t' v' false s = (statementCells t v false s).map (movedBy d) := by
  have hcell := fun e he => exprCell_shift hg h hunit hscope hcurrent hlabels hlabels'
    (hval e he) (hweight e he) (hexact e he)
  cases s with
  | words es =>
    simp only [statementCells, map_map]
    exact map_congr_left hcell
  | instruction op a b =>
    rcases b with _ | (_ | e)
    · rfl
    · rfl
    · simp only [statementCells, hcell e (mem_singleton_self e)]
      rfl
  | _ => rfl

end Moved

end WordAsm
