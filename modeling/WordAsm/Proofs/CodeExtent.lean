/-
# How far object code reaches

The layout takes the size of a statement as a word, so a list of words counts modulo 2^16. A
list of 65536 words has size 0: it is not placed, and puts no words into the object code. A
list of 65537 words has size 1, fits where a single word fits, and all its words are written.

All other code is as long as the layout takes it to be. So the object code of a unit ends
within memory just if every list of more than 65535 words has size 0 (`code_extends_as_sized`).
-/
import WordAsm.Proofs.AddressShift
import WordAsm.Proofs.ObjectCode
import WordAsm.Proofs.SettledNames

namespace WordAsm

open List

/-! ### Words that are written one after the other -/

namespace WordBuffer

/-- Stores words at several addresses, one after the other. -/
def writeAll (b : WordBuffer) (writes : List (Address × List Word)) : Except Error WordBuffer :=
  writes.foldlM (fun b w => do
    (b.write w.1 w.2).1
    return (b.write w.1 w.2).2) b

/-- **A buffer ends within bounds** if all words that are written do. -/
theorem size_writeAll_le {b b' : WordBuffer} {writes : List (Address × List Word)}
    (h : b.writeAll writes = .ok b') (stop : ℕ) :
    b.start.toNat + b'.words.size ≤ stop ↔ b.start.toNat + b.words.size ≤ stop ∧
      ∀ w ∈ writes, w.2 ≠ [] → w.1.toNat + w.2.length ≤ stop := by
  induction writes generalizing b with
  | nil =>
    cases h
    simp
  | cons w writes ih =>
    obtain ⟨c, hc, hrest⟩ := bind_eq_ok h
    obtain ⟨⟨⟩, hok, hc⟩ := bind_eq_ok hc
    replace hc : b.write w.1 w.2 = (.ok (), c) := Prod.ext hok (Except.ok.inj hc)
    by_cases hempty : w.2 = []
    · rw [hempty] at hc
      cases hc
      rw [ih hrest]
      simp [hempty]
    · obtain ⟨hstart, hle, hsize⟩ := size_write hempty hc
      have hthen := ih hrest
      rw [hstart, hsize] at hthen
      rw [hthen, forall_mem_cons, ← and_assoc]
      refine and_congr_left fun _ => ?_
      constructor
      · exact fun hbound => ⟨by omega, fun _ => by omega⟩
      · rintro ⟨hold, hnew⟩
        have := hnew hempty
        omega

end WordBuffer

/-! ### What a node puts into the object code -/

/-- The words that a node puts into the object code, and their address. -/
def Node.portion (t : Table) (unit : UnitId) (n : Node) : Address × List Word :=
  match n.address, statementWords t (n.viewpoint unit) n.inlined n.statement with
  | some address, .ok (some (words, _)) => (address, words)
  | _, _ => (0, [])

section Emission

variable {switches : Switches} {t : Table} {unit : UnitId} {n : Node} {m m' : Emission}

theorem emitNode_portion (h : emitNode switches t unit m n = .ok m') :
    m.buffer.write (n.portion t unit).1 (n.portion t unit).2 = (.ok (), m'.buffer) ∧ (n.address.isSome →
        ∃ r, statementWords t (n.viewpoint unit) n.inlined n.statement = .ok r) := by
  unfold emitNode at h
  unfold Node.portion
  cases ha : n.address with
  | none =>
    rw [ha] at h
    cases h
    exact ⟨rfl, fun hsome => by cases hsome⟩
  | some address =>
    rw [ha] at h
    obtain ⟨r, hr, h⟩ := bind_eq_ok h
    refine ⟨?_, fun _ => ⟨r, hr⟩⟩
    rw [hr]
    cases r with
    | none =>
      cases h
      rfl
    | some words =>
      obtain ⟨⟨⟩, hok, h⟩ := bind_eq_ok h
      cases h
      exact Prod.ext hok rfl

/-- **The object code is what the nodes put into it**, one after the other. -/
theorem emitNodes_portions {nodes : SyntaxTree}
    (h : nodes.foldlM (emitNode switches t unit) m = .ok m') :
    m.buffer.writeAll (nodes.map (Node.portion t unit)) = .ok m'.buffer ∧
      ∀ n ∈ nodes, n.address.isSome →
        ∃ r, statementWords t (n.viewpoint unit) n.inlined n.statement = .ok r := by
  induction nodes generalizing m with
  | nil =>
    cases h
    exact ⟨rfl, fun _ hn => absurd hn not_mem_nil⟩
  | cons n nodes ih =>
    obtain ⟨m₁, hm₁, hrest⟩ := bind_eq_ok h
    obtain ⟨hwrite, hwords⟩ := emitNode_portion hm₁
    obtain ⟨hwrites, hall⟩ := ih hrest
    refine ⟨?_, forall_mem_cons.mpr ⟨hwords, hall⟩⟩
    rw [map_cons, WordBuffer.writeAll, foldlM_cons, hwrite]
    exact hwrites

end Emission

/-! ### The number of words of a statement -/

def Statement.span (inlined : Bool) : Statement → ℕ
  | words es => es.length
  | instruction _ _ (some (.expr _)) => if inlined then 1 else 2
  | instruction _ _ _ => 1
  | _ => 0

theorem measure_span (inlining : Bool) (eval : Expr → Option Int64) (s : Statement) :
    (measure inlining eval s).1 = UInt16.ofNat (s.span (measure inlining eval s).2) := by
  cases s with
  | instruction op a b =>
    rcases b with _ | (r | e)
    · rfl
    · rfl
    · rw [measure]
      split <;> rfl
  | _ => rfl

theorem span_mapCode (f : Expr → Expr) (inlined : Bool) (s : Statement) :
    (s.mapCode f).span inlined = s.span inlined := by
  cases s with
  | words es => exact length_map ..
  | instruction op a b => rcases b with _ | (r | e) <;> rfl
  | _ => rfl

theorem Instruction.length_of_make {op : Opcode} {a : Register} {b : Option Operand}
    {i : Instruction} (h : Instruction.make op a b = .ok i) :
    i.encode.length = 1 + (b.map Operand.size).getD 0 := by
  obtain ⟨rfl, -⟩ := Instruction.make_eq_ok.mp h
  exact Instruction.length_encode _

section Lengths

variable {op : Opcode} {a : Register} {b : Option Argument} {r : Option (List Word × List ℕ)}
  {s : Statement} {t : Table} {v : Viewpoint} {inlined : Bool} {ws : List Word}
  {moving : List ℕ}

theorem size_literal {w : Word} (h : inlined = true → w.toNat ≤ Operand.inlineMax) :
    1 + (Operand.literal w inlined).size = if inlined then 1 else 2 := by
  unfold Operand.literal
  cases inlined with
  | false => rfl
  | true => simp [h rfl, Operand.size]

theorem length_instructionWords (h : instructionWords t v inlined op a b = .ok (ws, moving))
    (hsnug : inlined = true → ∀ e, b = some (.expr e) →
      ∃ x, t.eval v e = some x ∧ fitsInline x = true) :
    ws.length = (Statement.instruction op a b).span inlined := by
  unfold instructionWords at h
  rcases b with _ | (r | e)
  · simp only [pure_bind] at h
    split at h
    · cases h
    · cases h
      exact Instruction.length_of_make ‹_›
  · simp only [pure_bind] at h
    split at h
    · cases h
    · cases h
      exact Instruction.length_of_make ‹_›
  · obtain ⟨w, hw, h⟩ := bind_eq_ok h
    simp only [pure_bind] at h
    split at h
    · cases h
    · rename_i i hmake
      cases h
      refine (Instruction.length_of_make hmake).trans (size_literal fun hin => ?_)
      obtain ⟨x, hx, hfits⟩ := hsnug hin e rfl
      simp only [exprWord, hx] at hw
      cases hw
      exact toWord_le_of_fitsInline hfits

theorem instructionWords_of_statementWords
    (h : statementWords t v inlined (.instruction op a b) = .ok r) :
    ∃ w, instructionWords t v inlined op a b = .ok w ∧ r = some w := by
  rw [statementWords] at h
  cases hi : instructionWords t v inlined op a b with
  | error e =>
    rw [hi] at h
    cases h
  | ok w =>
    rw [hi] at h
    cases h
    exact ⟨w, rfl, rfl⟩

theorem exists_of_statementWords (hcode : s.isCode = true)
    (h : statementWords t v inlined s = .ok r) : ∃ ws moving, r = some (ws, moving) := by
  cases s with
  | words es =>
    obtain ⟨words, -, h⟩ := bind_eq_ok h
    cases h
    exact ⟨_, _, rfl⟩
  | instruction op a b =>
    obtain ⟨w, -, rfl⟩ := instructionWords_of_statementWords h
    exact ⟨_, _, rfl⟩
  | _ => cases hcode

/-- **A statement makes as many words as it stands for.** -/
theorem length_statementWords (h : statementWords t v inlined s = .ok (some (ws, moving)))
    (hsnug : inlined = true → ∀ e ∈ s.codeExprs, ∃ x, t.eval v e = some x ∧ fitsInline x = true) :
    ws.length = s.span inlined := by
  cases s with
  | words es =>
    obtain ⟨words, hwords, h⟩ := bind_eq_ok h
    cases h
    exact (forall₂_of_mapM hwords).length_eq.symm
  | instruction op a b =>
    obtain ⟨w, hw, heq⟩ := instructionWords_of_statementWords h
    obtain rfl := Option.some.inj heq
    refine length_instructionWords hw fun hin e hb => hsnug hin e ?_
    rw [hb]
    exact mem_singleton_self e
  | _ => cases h

end Lengths

theorem placeless_of_dvd {s : Statement} {inlined : Bool} (hcode : s.isCode = true)
    (h : 65536 ∣ s.span inlined) : s.Placeless := by
  cases s with
  | words es => exact h
  | instruction op a b =>
    have hspan : Statement.span inlined (.instruction op a b) = 1 ∨
        Statement.span inlined (.instruction op a b) = 2 := by
      rcases b with _ | (r | e)
      · exact .inl rfl
      · exact .inl rfl
      · cases inlined
        · exact .inr rfl
        · exact .inl rfl
    rcases hspan with hspan | hspan <;> rw [hspan] at h <;> omega
  | _ => cases hcode

/-! ### Sizes on record -/

/-- If the node is code, its size is that of its statement modulo 2^16, and it has its place in
memory if it takes room. -/
def Node.Rated (n : Node) : Prop :=
  n.statement.isCode = true → n.size = UInt16.ofNat (n.statement.span n.inlined) ∧
    (n.size ≠ 0 → ∃ a, n.address = some a ∧ a.toNat + n.size.toNat ≤ memoryEnd)

theorem LayStep.rated {unit : UnitId} {inlining : Bool} {l l' : Layout} {n n' : Node}
    (h : LayStep unit inlining l n n' l') : n'.Rated := by
  intro hcode
  have hspan := measure_span inlining (l.symbols.eval (l.viewpoint unit n)) n.statement
  cases h with
  | opens hs | jumps hs =>
    simp only [hs] at hcode
    cases hcode
  | passes hs hm _ =>
    rw [hm] at hspan
    exact ⟨hspan, fun hne => absurd rfl hne⟩
  | places hs hm hp ha hfit =>
    rw [hm] at hspan
    exact ⟨hspan, fun _ => ⟨_, rfl, ha ▸ hfit⟩⟩

theorem Node.Rated.folded {n : Node} (h : n.Rated) (t : Table) (unit : UnitId) :
    (foldNode t unit n).Rated := by
  intro hcode
  unfold foldNode at hcode ⊢
  rw [Statement.isCode_mapCode] at hcode
  simp only [span_mapCode]
  exact h hcode

section Portions

variable {t : Table} {unit : UnitId} {n : Node}

theorem Node.portion_of_not_code (hcode : n.statement.isCode = false) :
    (n.portion t unit).2 = [] := by
  unfold Node.portion
  rw [statementWords_of_not_code hcode]
  cases n.address <;> rfl

/-- How many words a node of the code puts into the object code, and where: those of its
statement, unless their number is 0 as a word. -/
structure Node.Portioned (t : Table) (unit : UnitId) (n : Node) : Prop where
  size : n.size.toNat = n.statement.span n.inlined % 65536
  length : (n.portion t unit).2.length =
    if 65536 ∣ n.statement.span n.inlined then 0 else n.statement.span n.inlined
  fits : ¬ 65536 ∣ n.statement.span n.inlined →
    (n.portion t unit).1.toNat + n.size.toNat ≤ memoryEnd

/-- **Code that has its size on record** makes that many words, modulo 2^16. -/
theorem Node.Rated.portioned (h : n.Rated) (hcode : n.statement.isCode = true)
    (hsnug : n.Snug t unit) (hwaits : n.Waits)
    (hwords : n.address.isSome →
      ∃ r, statementWords t (n.viewpoint unit) n.inlined n.statement = .ok r) :
    n.Portioned t unit := by
  obtain ⟨hsize, hfits⟩ := h hcode
  have hmod : n.size.toNat = n.statement.span n.inlined % 65536 := by
    rw [hsize, UInt16.toNat_ofNat']
  -- code of size 0 has no place, and so it is not written
  by_cases hdvd : 65536 ∣ n.statement.span n.inlined
  · refine ⟨hmod, ?_, fun hnot => absurd hdvd hnot⟩
    rw [if_pos hdvd, Node.portion, hwaits (placeless_of_dvd hcode hdvd)]
    rfl
  · obtain ⟨a, ha, hfit⟩ := hfits fun h0 => by
      rw [h0] at hmod
      exact hdvd (Nat.dvd_of_mod_eq_zero hmod.symm)
    obtain ⟨r, hr⟩ := hwords (ha ▸ rfl)
    obtain ⟨ws, moving, rfl⟩ := exists_of_statementWords hcode hr
    have hportion : n.portion t unit = (a, ws) := by rw [Node.portion, ha, hr]
    refine ⟨hmod, ?_, fun _ => ?_⟩
    · rw [if_neg hdvd, hportion, length_statementWords hr hsnug]
    · rw [hportion]
      exact hfit

/-- **How far the words of a unit reach.** -/
theorem reach_of_portions {u : SourceUnit} {nodes : SyntaxTree} {buffer : WordBuffer}
    (hwrite : WordBuffer.writeAll { start := u.start } (nodes.map (Node.portion t u.id)) =
      .ok buffer)
    (hnodes : ∀ n ∈ codeNodes nodes, n.Portioned t u.id) :
    u.start.toNat + buffer.words.size ≤ 0x10000 ↔
      ∀ n ∈ codeNodes nodes, n.statement.span n.inlined < 65536 ∨
        65536 ∣ n.statement.span n.inlined := by
  rw [WordBuffer.size_writeAll_le hwrite]
  refine (and_iff_right (Nat.le_of_lt u.start.toNat_lt)).trans ?_
  rw [forall_mem_map]
  constructor
  · intro hreach n hn
    by_contra hlong
    rw [not_or, Nat.not_lt] at hlong
    have hlen := (hnodes n hn).length
    rw [if_neg hlong.2] at hlen
    have hle := hreach n (mem_codeNodes.mp hn).1 (length_pos_iff.mp (by omega))
    omega
  · intro hshort n hn hne
    -- what is not code has no words
    have hn' : n ∈ codeNodes nodes := mem_codeNodes.mpr ⟨hn, by
      by_contra hother
      exact hne (Node.portion_of_not_code (Bool.not_eq_true _ ▸ hother))⟩
    obtain ⟨hsize, hlen, hfits⟩ := hnodes n hn'
    split at hlen
    · exact absurd (length_eq_zero_iff.mp hlen) hne
    · rename_i hdvd
      rw [Nat.mod_eq_of_lt ((hshort n hn').resolve_right hdvd)] at hsize
      rw [hlen, ← hsize]
      exact hfits hdvd

end Portions

/-! ### The object code of a program -/

def Program.QueuedNodes (P : Node → Prop) (p : Program) : Prop :=
  ∀ i ∈ p.order, ∀ u nodes, p.get? i = some u → u.tree = some nodes → ∀ n ∈ nodes, P n

section Program

variable {nodes : SyntaxTree} {u : SourceUnit} {cfg : Settings} {tree : FileTree}
  {p q : Program}

theorem Lays.rated {unit : UnitId} {inlining : Bool} {l l' : Layout} {nodes' : SyntaxTree}
    (h : Lays unit inlining l nodes nodes' l') : ∀ n ∈ nodes', n.Rated := by
  induction h with
  | nil => exact fun n hn => absurd hn not_mem_nil
  | cons step _ ih => exact forall_mem_cons.mpr ⟨step.rated, ih⟩

/-- **What each visit finds out about its unit**, and later visits leave alone, holds of all
queued units in the end. -/
theorem Passes.each_queued {phase : Phase} {P : Program → SourceUnit → Prop}
    (h : Passes cfg tree phase 0 p q) (hs : phase.Steady cfg) (hw : p.WellFormed)
    (hvisit : ∀ p u c, p.get? u.id = some u →
      phase.run cfg u { program := p, tree } = (.ok (), c) → c.hasErrors = false →
      c.order = p.order ∧ ∀ i w, c.get? i = some w →
        i = u.id ∧ P c.program w ∨
          i ≠ u.id ∧ p.get? i = some w ∧ (P p w → P c.program w)) :
    q.WellFormed ∧ ∀ i ∈ q.order, ∀ u, q.get? i = some u → P q u := by
  obtain ⟨n, hn, hw', hall⟩ := h.induct hs
    (I := fun k p => p.WellFormed ∧ ∀ i ∈ p.order.take k, ∀ u,
      p.get? i = some u → P p u)
    ⟨hw, by simp⟩
    (by
      rintro k p id u c hk hu - hrun hc hg - ⟨hw, hahead⟩
      obtain rfl : u.id = id := hw.numbered id u hu
      obtain ⟨horder, hunits⟩ := hvisit p u c hu hrun hc
      refine ⟨hg.wellFormed hw, fun i hi w hget => ?_⟩
      rcases hunits i w hget with ⟨-, hP⟩ | ⟨hne, hold, hkeep⟩
      · exact hP
      · rw [horder] at hi
        exact hkeep (hahead i (mem_take_of_mem_take_succ hk hi hne) w hold))
  rw [take_of_length_le hn] at hall
  exact ⟨hw', hall⟩

/-- **A layout** puts the sizes of all code on record. -/
theorem rated_of_layout (h : Passes cfg tree layoutPhase 0 p q) (hw : p.WellFormed) :
    q.QueuedNodes Node.Rated := by
  have htw := layoutPhase_treewise cfg
  have hrated := (h.each_queued htw.quiet.toSteady hw
    (P := fun _ u => ∀ nodes, u.tree = some nodes → ∀ n ∈ nodes, n.Rated) fun p u c hu hrun hc => by
      obtain ⟨nodes, -, heq⟩ := htw.visit hrun
      rw [heq] at hc ⊢
      refine ⟨rfl, fun i w hget => ?_⟩
      rcases get?_laid_cases hu hget with ⟨hi, rfl⟩ | ⟨hne, hget⟩
      · refine .inl ⟨hi, fun nodes' hnodes' => ?_⟩
        cases hnodes'
        exact (lays_of_visit hu hc).rated
      · exact .inr ⟨hne, hget, id⟩).2
  exact fun i hi u nodes hu htree => hrated i hi u hu nodes htree

theorem Program.QueuedNodes.folded (h : p.QueuedNodes Node.Rated) (hu : p.get? u.id = some u)
    (htree : u.tree = some nodes) : (p.folded u nodes).QueuedNodes Node.Rated := by
  intro i hi w nodes' hw hnodes' n hn
  rcases get?_folded_cases hw hnodes' with ⟨rfl, rfl⟩ | hw
  · obtain ⟨m, hm, rfl⟩ := mem_map.mp hn
    exact (h _ hi u nodes hu htree m hm).folded _ _
  · exact h i hi w nodes' hw hnodes' n hn

theorem Arrival.rated (h : Arrival cfg p tree) :
    (stage cfg p tree 4).2.program.QueuedNodes Node.Rated := by
  have hlaid := (h.layout.grows (layoutPhase_treewise cfg).quiet.toSteady).wellFormed
    h.wellFormed
  exact keeps_of_folding (fun _ _ _ hu htree h => h.folded hu htree) h.folding hlaid
    (rated_of_layout h.layout h.wellFormed)

theorem Prepares.grows (h : Prepares cfg tree p q) : p.Grows q := by
  obtain ⟨hparse, hlayout, hfolding, hvalidation⟩ := h
  exact (hparse.grows (parsePhase_quiet cfg).toSteady).trans
    ((hlayout.grows (layoutPhase_treewise cfg).quiet.toSteady).trans
      ((hfolding.grows (foldingPhase_treewise cfg).quiet.toSteady).trans
        (hvalidation.grows (validationPhase_treewise cfg).quiet.toSteady)))

def SourceUnit.HoldsCode (switches : Switches) (t : Table) (u : SourceUnit) : Prop :=
  ∀ nodes, u.tree = some nodes →
    ∃ m, emitNodes switches t u nodes = .ok m ∧ u.HasWords m.buffer.words.toList

/-- **The emission of one unit.** -/
theorem holdsCode_of_emission (hsink : cfg.sink = .memory) {c : Build}
    (hu : p.get? u.id = some u)
    (hrun : emissionPhase.run cfg u { program := p, tree } = (.ok (), c)) :
    ∀ i w, c.get? i = some w →
      i = u.id ∧ w.HoldsCode cfg.switches p.symbols ∨
        i ≠ u.id ∧ p.get? i = some w := by
  obtain ⟨nodes, m, code, htree, hm, hclose, hprogram⟩ := emission_of_ok hrun
  rw [hsink] at hclose
  cases hclose
  intro i w hw
  rw [hprogram] at hw
  rcases Program.get?_modifyUnit_cases hw with ⟨hi, v, hv, rfl⟩ | hother
  · obtain rfl : u = v := Option.mem_unique hu hv
    refine .inl ⟨hi, fun nodes' hnodes' => ?_⟩
    obtain rfl : nodes = nodes' := Option.mem_unique htree hnodes'
    exact ⟨m, hm, _, rfl, fun _ => rfl⟩
  · exact .inr hother

/-- **A compilation that succeeds** has emitted every queued unit. -/
theorem emissions_of_compile (hsink : cfg.sink = .memory) (hw : p.WellFormed)
    (h : (compile cfg p tree).1 = true) :
    (compile cfg p tree).2.units.WellFormed ∧
      ∀ id ∈ (compile cfg p tree).2.units.order, ∀ u,
        (compile cfg p tree).2.units.get? id = some u →
        u.HoldsCode cfg.switches (compile cfg p tree).2.symbols := by
  obtain ⟨valid, hprepares, hemission⟩ := passes_of_compile hsink hw h
  refine hemission.each_queued (emissionPhase_quiet hsink).toSteady
    (P := fun p u => u.HoldsCode cfg.switches p.symbols)
    (hprepares.grows.wellFormed (reset_wellFormed hw)) fun p u c hu hrun _ => ?_
  have hsame := emissionPhase_leavesTrees cfg u { program := p, tree }
  rw [hrun] at hsame
  refine ⟨hsame.order, fun i w hget => ?_⟩
  rw [hsame.symbols]
  rcases holdsCode_of_emission hsink hu hrun i w hget with hcode | ⟨hne, hget⟩
  · exact .inl hcode
  · exact .inr ⟨hne, hget, id⟩

theorem portioned_of_compile (hsink : cfg.sink = .memory) (hw : p.WellFormed)
    (h : (compile cfg p tree).1 = true) :
    ∀ id ∈ (compile cfg p tree).2.units.order, ∃ u nodes buffer,
      (compile cfg p tree).2.units.get? id = some u ∧
      u.tree = some nodes ∧ u.HasWords buffer.words.toList ∧
      WordBuffer.writeAll { start := u.start } (nodes.map
        (Node.portion (compile cfg p tree).2.symbols u.id)) = .ok buffer ∧
      ∀ n ∈ codeNodes nodes,
        n.Portioned (compile cfg p tree).2.symbols u.id := by
  have harrival := arrival_of_stage hw (stage_of_compile h).1
  have hsame := sameTrees_of_compile h
  obtain ⟨hw', hcode⟩ := emissions_of_compile hsink hw h
  obtain ⟨k, hunchanged⟩ := harrival.unchanged hw
  have hevaluable := (harrival.evaluable hw).2
  intro id hid
  obtain ⟨u, hu, -⟩ := hw'.exists_get? hid
  -- at the validation, the unit had its present tree
  have hid₄ : id ∈ (stage cfg p tree 4).2.units.order := hsame.order ▸ hid
  obtain ⟨v, hv, -⟩ := hunchanged.wellFormed.exists_get? hid₄
  obtain ⟨nodes, hnodes⟩ := Option.isSome_iff_exists.mp ((hevaluable.trees id v hv).mpr hid₄)
  obtain ⟨u', hu', hvu⟩ := rel_some (hsame.units id) hv
  obtain rfl : u = u' := Option.mem_unique hu hu'
  have htree : u.tree = some nodes := hvu.tree.trans hnodes
  obtain rfl : u.id = id := hw'.numbered id u hu
  obtain ⟨m, hm, hwords⟩ := hcode u.id hid u hu nodes htree
  obtain ⟨hwrite, hvalued⟩ := emitNodes_portions hm
  refine ⟨u, nodes, m.buffer, hu, htree, hwords, hwrite, fun n hn => ?_⟩
  obtain ⟨hmem, hcode⟩ := mem_codeNodes.mp hn
  refine (harrival.rated u.id hid₄ v nodes hv hnodes n hmem).portioned hcode ?_
    (hevaluable.nodes u.id v nodes hv hnodes n hmem).2.2 (hvalued n hmem)
  rw [hsame.symbols]
  refine hunchanged.snug u.id ?_ v nodes hv hnodes n hmem
  rwa [take_of_length_le hunchanged.covered]

end Program

/-- **Code takes the room it was given, up to lists of 65535 words.** After a compilation that
succeeds, the object code of a queued unit is what its nodes put into it. A node of up to 65535
words has that number as its size, and puts as many words into the object code. A longer list of
words has its length modulo 2^16 as its size, and all its words are written, unless it has size
0: then none are. The object code ends within memory just if no list of that kind was written. -/
theorem code_extends_as_sized {cfg : Settings} {p : Program} {tree : FileTree}
    (hsink : cfg.sink = .memory) (hw : p.WellFormed)
    (h : (compile cfg p tree).1 = true) :
    ∀ id ∈ (compile cfg p tree).2.units.order, ∃ u nodes buffer,
      (compile cfg p tree).2.units.get? id = some u ∧
      u.tree = some nodes ∧ u.HasWords buffer.words.toList ∧
      WordBuffer.writeAll { start := u.start } (nodes.map
        (Node.portion (compile cfg p tree).2.symbols u.id)) = .ok buffer ∧
      (∀ n ∈ codeNodes nodes,
        (n.statement.span n.inlined < 65536 →
          n.size.toNat = n.statement.span n.inlined ∧
          (n.portion (compile cfg p tree).2.symbols u.id).2.length =
            n.statement.span n.inlined) ∧
        (65536 ≤ n.statement.span n.inlined →
          n.size.toNat = n.statement.span n.inlined % 65536 ∧
          (n.portion (compile cfg p tree).2.symbols u.id).2.length =
            if 65536 ∣ n.statement.span n.inlined then 0 else n.statement.span n.inlined)) ∧
      (u.start.toNat + buffer.words.size ≤ 0x10000 ↔ ∀ n ∈ codeNodes nodes,
        n.statement.span n.inlined < 65536 ∨ 65536 ∣ n.statement.span n.inlined) := by
  intro id hid
  obtain ⟨u, nodes, buffer, hu, htree, hwords, hwrite, hnodes⟩ :=
    portioned_of_compile hsink hw h id hid
  refine ⟨u, nodes, buffer, hu, htree, hwords, hwrite, fun n hn => ⟨fun hlt => ?_, fun _ => ?_⟩,
    reach_of_portions hwrite hnodes⟩
  · have hsize := (hnodes n hn).size
    rw [Nat.mod_eq_of_lt hlt] at hsize
    refine ⟨hsize, (hnodes n hn).length.trans ?_⟩
    split
    · omega
    · rfl
  · exact ⟨(hnodes n hn).size, (hnodes n hn).length⟩

/-- All nodes are as long as their sizes, and the code stays within memory. -/
theorem code_extends_as_sized_gap :
    let q := (compile {} gapProgram {}).2.program
    ∃ u nodes, ∃ buffer : WordBuffer, q.get? 0 = some u ∧ u.tree = some nodes ∧
      u.HasWords buffer.words.toList ∧ u.start.toNat + buffer.words.size ≤ 0x10000 ∧
      ∀ n ∈ codeNodes nodes, (n.portion q.symbols u.id).2.length = n.size.toNat := by
  intro q
  have hshort : ∀ u ∈ q.get? 0, ∀ nodes ∈ u.tree, ∀ n ∈ codeNodes nodes,
      n.statement.span n.inlined < 65536 := by decide +kernel
  obtain ⟨u, nodes, buffer, hu, htree, hwords, -, hnodes, hreach⟩ :=
    @code_extends_as_sized {} gapProgram {} rfl wellFormed_gapProgram (by decide +kernel) 0
      (by decide +kernel)
  have hshort := hshort u hu nodes htree
  refine ⟨u, nodes, buffer, hu, htree, hwords, hreach.mpr fun n hn => .inl (hshort n hn),
    fun n hn => ?_⟩
  obtain ⟨hsize, hlength⟩ := (hnodes n hn).1 (hshort n hn)
  rw [hlength, hsize]

end WordAsm
