/-
# Laying out a unit

`LayStep` says what laying out one node can do when no error comes of it: open
the unit at an origin, leave a gap at an origin, pass over a node that has no
place, or place a node. All that is proved about layouts goes through these four
cases.

Placed code ascends within the unit (`Spans`, `Lays.spans`), the sizes on record
are those of the code to come (`Lays.measured`), and labels that had no address
get one without any other label changing (`Lays.later`), so that values known
before stay.
-/
import WordAsm.Proofs.Encoding

namespace WordAsm

open List

variable {l l' : Layout} {node node' : Node} {nodes nodes' : SyntaxTree}

/-! ### One node -/

theorem toAddress?_eq_some {n : ℕ} {a : Address} :
    toAddress? n = some a ↔ n < memoryEnd ∧ a.toNat = n := by
  unfold toAddress? memoryEnd
  constructor
  · intro h
    split at h
    · rename_i hn
      cases h
      exact ⟨hn, by rw [UInt16.toNat_ofNat']; omega⟩
    · cases h
  · rintro ⟨hn, rfl⟩
    rw [if_pos hn, UInt16.ofNat_toNat]

theorem toNat_startAddress (start : ℕ) : (startAddress start).toNat = min start 0xFFFF := by
  unfold startAddress toAddress? memoryEnd
  split
  · rw [Option.getD_some, UInt16.toNat_ofNat']
    omega
  · have h16 : (0xFFFF : Address).toNat = 0xFFFF := rfl
    rw [Option.getD_none]
    omega

/-- The viewpoint of a node that is being laid out. -/
def Layout.viewpoint (l : Layout) (unit : UnitId) (node : Node) : Viewpoint :=
  { unit, scope := node.scope, current := toAddress? l.address }

/-- What laying out a node can do when no error comes of it. -/
inductive LayStep (unit : UnitId) (inlining : Bool) (l : Layout) (node : Node) :
    Node → Layout → Prop
  /-- An origin ahead of all code. -/
  | opens {e : Expr} {v : Int64} (hs : node.statement = .origin e)
    (hv : l.symbols.eval (l.viewpoint unit node) e = some v) (hlo : 0 ≤ v.toInt)
    (hhi : v.toInt < memoryEnd) (he : l.emitted = false) :
    LayStep unit inlining l node { node with address := toAddress? v.toInt.toNat }
      { l with start := v.toInt.toNat, address := v.toInt.toNat }
  /-- An origin behind code. -/
  | jumps {e : Expr} {v : Int64} (hs : node.statement = .origin e)
    (hv : l.symbols.eval (l.viewpoint unit node) e = some v)
    (hhi : v.toInt < memoryEnd) (he : l.emitted = true) (hle : l.address ≤ v.toInt.toNat) :
    LayStep unit inlining l node { node with address := toAddress? v.toInt.toNat }
      { l with address := v.toInt.toNat }
  /-- A node without a place in memory. -/
  | passes {inlined : Bool} (hs : ∀ e, node.statement ≠ .origin e)
    (hm : measure inlining (l.symbols.eval (l.viewpoint unit node)) node.statement = (0, inlined))
    (hl : node.statement.isLabel = false) :
    LayStep unit inlining l node { node with size := 0, inlined } l
  /-- Code or a label. -/
  | places {size : Word} {inlined : Bool} {address : Address}
    (hs : ∀ e, node.statement ≠ .origin e)
    (hm : measure inlining (l.symbols.eval (l.viewpoint unit node)) node.statement =
      (size, inlined))
    (hp : size ≠ 0 ∨ node.statement.isLabel = true) (ha : address.toNat = l.address)
    (hfit : l.address + size.toNat ≤ memoryEnd) :
    LayStep unit inlining l node { node with size, inlined, address := some address } { l with
        symbols := assignLabel l.symbols node address
        emitted := l.emitted || size != 0
        address := l.address + size.toNat }

def Layout.Clean (l : Layout) : Prop := ∀ m ∈ l.markers, m.isError = false

theorem Layout.not_clean_error (l : Layout) (node : Node) (message : String) :
    ¬ (l.error node message).Clean := by
  intro h
  have hm := h ((Marker.error message).located node.location) (by simp [Layout.error])
  cases hm

section Nodes

variable {unit : UnitId} {inlining : Bool}

theorem layNode_origin {e : Expr} (he : node.statement = .origin e) : layNode unit inlining l node =
      ({ node with address :=
          toAddress? (l.moveTo node e (l.symbols.eval (l.viewpoint unit node) e)).address },
        l.moveTo node e (l.symbols.eval (l.viewpoint unit node) e), true) := by
  unfold layNode
  split
  · rename_i e' he'
    cases he.symm.trans he'
    rfl
  · rename_i hne
    exact absurd he (hne e)

theorem layNode_other (hs : ∀ e, node.statement ≠ .origin e) {size : Word} {inlined : Bool}
    (hm : measure inlining (l.symbols.eval (l.viewpoint unit node)) node.statement =
      (size, inlined)) :
    layNode unit inlining l node =
      if size = 0 ∧ node.statement.isLabel = false then ({ node with size, inlined }, l, true)
      else
        match toAddress? l.address with
        | some address =>
          if l.address + size.toNat ≤ memoryEnd then
            ({ node with size, inlined, address := some address }, { l with
                symbols := assignLabel l.symbols node address
                emitted := l.emitted || size != 0
                address := l.address + size.toNat }, true)
          else ({ node with size, inlined }, l.error node "Code runs past the end of memory", false)
        | none =>
          ({ node with size, inlined }, l.error node "Code runs past the end of memory",
            false) := by
  have hplaced : (!({ node with size, inlined } : Node).isPlaced) = true ↔
      size = 0 ∧ node.statement.isLabel = false := by
    simp [Node.isPlaced]
  unfold layNode
  split
  · exact absurd ‹_› (hs _)
  · unfold Layout.viewpoint at hm
    simp only [hm, hplaced]
    rfl

theorem layStep_of_layNode {go : Bool} (h : layNode unit inlining l node = (node', l', go))
    (hc : l'.Clean) :
    go = true ∧ LayStep unit inlining l node node' l' := by
  by_cases ho : ∃ e, node.statement = .origin e
  · obtain ⟨e, he⟩ := ho
    rw [layNode_origin he] at h
    obtain ⟨rfl, rfl, rfl⟩ := by simpa only [Prod.mk.injEq] using h
    refine ⟨rfl, ?_⟩
    unfold Layout.moveTo at hc ⊢
    cases hv : l.symbols.eval (l.viewpoint unit node) e with
    | none =>
      simp only [hv] at hc
      exact absurd hc (l.not_clean_error node _)
    | some v =>
      simp only [hv] at hc ⊢
      split
      · rename_i hr
        rw [if_pos hr] at hc
        exact absurd hc (l.not_clean_error node _)
      · rename_i hr
        rw [if_neg hr] at hc
        split
        · rename_i hemit
          exact .opens he hv (by omega) (by omega) (by simpa using hemit)
        · rename_i hemit
          rw [if_neg hemit] at hc
          split
          · rename_i hlt
            rw [if_pos hlt] at hc
            exact absurd hc (l.not_clean_error node _)
          · exact .jumps he hv (by omega) (by simpa using hemit) (by omega)
  · have hs : ∀ e, node.statement ≠ .origin e := fun e he => ho ⟨e, he⟩
    rcases hm : measure inlining (l.symbols.eval (l.viewpoint unit node)) node.statement with
      ⟨size, inlined⟩
    rw [layNode_other hs hm] at h
    split at h
    · rename_i hp
      obtain ⟨rfl, rfl, rfl⟩ := by simpa only [Prod.mk.injEq] using h
      obtain ⟨rfl, hl⟩ := hp
      exact ⟨rfl, .passes hs hm hl⟩
    · rename_i hp
      have hp' : size ≠ 0 ∨ node.statement.isLabel = true := by
        by_cases h0 : size = 0
        · exact .inr (by simpa [h0] using hp)
        · exact .inl h0
      split at h
      · rename_i address ha
        split at h
        · rename_i hfit
          obtain ⟨rfl, rfl, rfl⟩ := by simpa only [Prod.mk.injEq] using h
          exact ⟨rfl, .places hs hm hp' (toAddress?_eq_some.mp ha).2 hfit⟩
        · obtain ⟨rfl, rfl, rfl⟩ := by simpa only [Prod.mk.injEq] using h
          exact absurd hc (l.not_clean_error _ _)
      · obtain ⟨rfl, rfl, rfl⟩ := by simpa only [Prod.mk.injEq] using h
        exact absurd hc (l.not_clean_error _ _)

section Keeps

variable {I : Layout → Prop} (herror : ∀ l node message, I l → I (l.error node message))
  (hmove : ∀ l start address, I l → I { l with start, address })
  (hplace : ∀ l node place emitted address, I l →
    I { l with symbols := assignLabel l.symbols node place, emitted, address })

include herror hmove hplace

theorem layNode_keeps (h : I l) (node : Node) : I (layNode unit inlining l node).2.1 := by
  by_cases ho : ∃ e, node.statement = .origin e
  · obtain ⟨e, he⟩ := ho
    rw [layNode_origin he]
    unfold Layout.moveTo
    simp only
    split
    · exact herror l node _ h
    · split
      · exact herror l node _ h
      · split
        · exact hmove l _ _ h
        · split
          · exact herror l node _ h
          · exact hmove l l.start _ h
  · rcases hm : measure inlining (l.symbols.eval (l.viewpoint unit node)) node.statement with
      ⟨size, inlined⟩
    rw [layNode_other (fun e he => ho ⟨e, he⟩) hm]
    split
    · exact h
    · split
      · split
        · exact hplace l node _ _ _ h
        · exact herror l node _ h
      · exact herror l node _ h

theorem layNodes_keeps (h : I l) (nodes : SyntaxTree) : I (layNodes unit inlining nodes l).2 := by
  induction nodes generalizing l with
  | nil => exact h
  | cons node nodes ih =>
    have hstep : I (layNode unit inlining l node).2.1 :=
      layNode_keeps herror hmove hplace h node
    rw [layNodes]
    split
    · rename_i node' l' heq
      rw [heq] at hstep
      exact ih hstep
    · rename_i node' l' heq
      rw [heq] at hstep
      exact hstep

end Keeps

theorem markers_layNodes (nodes : SyntaxTree) (l : Layout) :
    l.markers ⊆ (layNodes unit inlining nodes l).2.markers :=
  layNodes_keeps (I := fun l' => l.markers ⊆ l'.markers)
    (fun _ _ _ h => List.Subset.trans h (subset_append_left _ _)) (fun _ _ _ h => h)
    (fun _ _ _ _ _ h => h) (List.Subset.refl _) nodes

/-! ### All nodes -/

/-- The steps of a layout without errors. -/
inductive Lays (unit : UnitId) (inlining : Bool) : Layout → SyntaxTree → SyntaxTree → Layout → Prop
  | nil {l : Layout} : Lays unit inlining l [] [] l
  | cons {l l₁ l₂ : Layout} {node node' : Node} {nodes nodes' : SyntaxTree}
    (step : LayStep unit inlining l node node' l₁) (rest : Lays unit inlining l₁ nodes nodes' l₂) :
    Lays unit inlining l (node :: nodes) (node' :: nodes') l₂

theorem lays_of_layNodes (hc : (layNodes unit inlining nodes l).2.Clean) :
    Lays unit inlining l nodes (layNodes unit inlining nodes l).1
      (layNodes unit inlining nodes l).2 := by
  induction nodes generalizing l with
  | nil => exact .nil
  | cons node nodes ih =>
    rw [layNodes] at hc ⊢
    split at hc
    · rename_i node' l' heq
      have hl' : l'.Clean := fun m hm => hc m (markers_layNodes nodes l' hm)
      exact .cons (layStep_of_layNode heq hl').2 (ih hc)
    · rename_i node' l' heq
      exact absurd (layStep_of_layNode heq hc).1 (by simp)

theorem LayStep.node_eq (h : LayStep unit inlining l node node' l') :
    ∃ address size inlined, node' = { node with address, size, inlined } := by
  cases h with
  | opens | jumps | passes | places => exact ⟨_, _, _, rfl⟩

theorem Lays.nodes_eq (h : Lays unit inlining l nodes nodes' l') :
    Forall₂ (fun n n' : Node => ∃ address size inlined,
      n' = { n with address, size, inlined }) nodes nodes' := by
  induction h with
  | nil => exact .nil
  | cons step _ ih => exact .cons step.node_eq ih

end Nodes

/-! ### Places -/

/-- The code of some nodes lies between `lo` and `hi`, each node behind the one
before. -/
inductive Spans : ℕ → SyntaxTree → ℕ → Prop
  | nil {lo hi : ℕ} (h : lo ≤ hi) : Spans lo [] hi
  | code {lo hi : ℕ} {n : Node} {ns : SyntaxTree} {a : Address} (hc : n.statement.isCode = true)
    (ha : n.address = some a) (hlo : lo ≤ a.toNat) (rest : Spans (a.toNat + n.size.toNat) ns hi) :
    Spans lo (n :: ns) hi
  | other {lo hi : ℕ} {n : Node} {ns : SyntaxTree} (hc : n.statement.isCode = false)
    (rest : Spans lo ns hi) : Spans lo (n :: ns) hi

theorem Spans.of_le {lo lo' hi : ℕ} (h : Spans lo nodes hi) (hle : lo' ≤ lo) :
    Spans lo' nodes hi := by
  induction h generalizing lo' with
  | nil h => exact .nil (Nat.le_trans hle h)
  | code hc ha hlo rest _ => exact .code hc ha (Nat.le_trans hle hlo) rest
  | other hc _ ih => exact .other hc (ih hle)

/-- Whether a list of words is short enough for its length to be a word. -/
def Statement.Short : Statement → Prop
  | words es => es.length < 65536
  | _ => True

instance : DecidablePred Statement.Short
  | .words es => inferInstanceAs (Decidable (es.length < 65536))
  | .label _ | .equation .. | .origin _ | .includes _ | .instruction .. | .macroDef .. =>
    isTrue trivial

theorem measured_measure (t : Table) (v : Viewpoint) (inlining : Bool) {s : Statement}
    (hs : s.Short) :
    Measured t v (measure inlining (t.eval v) s).1.toNat (measure inlining (t.eval v) s).2 s := by
  cases s with
  | words es =>
    refine ⟨?_, rfl⟩
    have hlen : es.length < 65536 := hs
    rw [measure, UInt16.toNat_ofNat', Nat.mod_eq_of_lt hlen]
  | instruction op a b =>
    rcases b with _ | (r | e)
    · exact ⟨rfl, rfl⟩
    · exact ⟨rfl, rfl⟩
    · rw [measure]
      by_cases hfit : (inlining && (t.eval v e).any fitsInline) = true
      · rw [if_pos hfit]
        rw [Bool.and_eq_true, Option.any_eq_true] at hfit
        obtain ⟨-, x, hx, hfits⟩ := hfit
        exact .inl ⟨rfl, rfl, x, hx, hfits⟩
      · rw [if_neg hfit]
        exact .inr ⟨rfl, rfl⟩
  | _ => trivial

theorem Measured.pos {t : Table} {v : Viewpoint} {size : ℕ} {inlined : Bool} {s : Statement}
    (h : Measured t v size inlined s) (hcode : s.isCode = true) (hs : s.Sound) : 0 < size := by
  cases s with
  | words es =>
    rw [h.1]
    exact length_pos_iff.mpr hs
  | instruction op a b =>
    rcases b with _ | (r | e)
    · rw [h.2]; exact Nat.one_pos
    · rw [h.2]; exact Nat.one_pos
    · rcases h with ⟨-, rfl, -⟩ | ⟨-, rfl⟩ <;> decide
  | label | equation | origin | includes | macroDef => cases hcode

section Places

variable {unit : UnitId} {inlining : Bool}

/-- What a step does to the places of code: code is put where the layout stands
and takes room there; nothing else takes room. Only ahead of all code can the
layout go back, and it then starts afresh. -/
theorem LayStep.place (h : LayStep unit inlining l node node' l') (hs : node.statement.Sound)
    (hshort : node.statement.Short) (hle : l.start ≤ l.address) (hend : l.address ≤ memoryEnd) :
    l'.start ≤ l'.address ∧ l'.address ≤ memoryEnd ∧
    (l.emitted = true → l'.emitted = true ∧ l'.start = l.start ∧ l.address ≤ l'.address) ∧
    (node'.statement.isCode = true → l'.emitted = true ∧ l'.start = l.start ∧
      ∃ a, node'.address = some a ∧ a.toNat = l.address ∧
        l'.address = l.address + node'.size.toNat ∧
        Measured l.symbols (node'.viewpoint unit) node'.size.toNat node'.inlined
          node'.statement) := by
  cases h with
  | opens hstm hv hlo hhi he =>
    refine ⟨Nat.le_refl _, by simp only; omega, fun h => absurd (he.symm.trans h) (by simp),
      fun hc => ?_⟩
    simp only [hstm] at hc
    cases hc
  | jumps hstm hv hhi he hle' =>
    refine ⟨Nat.le_trans hle hle', by simp only; omega, fun h => ⟨h, rfl, hle'⟩, fun hc => ?_⟩
    simp only [hstm] at hc
    cases hc
  | @passes inlined hstm hm hl =>
    refine ⟨hle, hend, fun h => ⟨h, rfl, Nat.le_refl _⟩, fun hc => ?_⟩
    have hmeas := measured_measure l.symbols (l.viewpoint unit node) inlining hshort
    rw [hm] at hmeas
    exact absurd (hmeas.pos hc hs) (Nat.lt_irrefl 0)
  | @places size inlined address hstm hm hp ha hfit =>
    refine ⟨Nat.le_trans hle (Nat.le_add_right _ _), hfit,
      fun h => ⟨by simp [h], rfl, Nat.le_add_right _ _⟩, fun hc => ?_⟩
    have hmeas := measured_measure l.symbols (l.viewpoint unit node) inlining hshort
    rw [hm] at hmeas
    have hpos := hmeas.pos hc hs
    have hne : size ≠ 0 := fun h0 => by rw [h0] at hpos; cases hpos
    have hview : l.viewpoint unit node =
        ({ node with size, inlined, address := some address } : Node).viewpoint unit := by
      have hmem : l.address < memoryEnd := by
        have hsize : 0 < size.toNat := hpos
        omega
      unfold Layout.viewpoint Node.viewpoint
      rw [toAddress?_eq_some.mpr ⟨hmem, ha⟩]
    refine ⟨by simp [hne], rfl, address, rfl, ha, rfl, ?_⟩
    rw [← hview]
    exact hmeas

/-- **Code ascends within its unit.** -/
theorem Lays.spans (h : Lays unit inlining l nodes nodes' l')
    (hs : ∀ n ∈ nodes, n.statement.Sound ∧ n.statement.Short) (hle : l.start ≤ l.address)
    (hend : l.address ≤ memoryEnd) :
    l'.start ≤ l'.address ∧ l'.address ≤ memoryEnd ∧
    (l.emitted = true → l'.start = l.start ∧ Spans l.address nodes' l'.address) ∧
    (l.emitted = false → Spans l'.start nodes' l'.address) := by
  induction h with
  | nil => exact ⟨hle, hend, fun _ => ⟨rfl, .nil (Nat.le_refl _)⟩, fun _ => .nil hle⟩
  | @cons l l₁ l₂ node node' nodes nodes' step _ ih =>
    obtain ⟨hsound, hshort⟩ := hs node mem_cons_self
    obtain ⟨hle₁, hend₁, hkeep, hcode⟩ := step.place hsound hshort hle hend
    obtain ⟨hle₂, hend₂, hemitted, hfresh⟩ :=
      ih (fun n hn => hs n (mem_cons_of_mem _ hn)) hle₁ hend₁
    refine ⟨hle₂, hend₂, fun he => ?_, fun he => ?_⟩
    · -- behind code, the layout only goes up
      obtain ⟨he₁, hstart₁, hup⟩ := hkeep he
      obtain ⟨hstart₂, hrest⟩ := hemitted he₁
      refine ⟨hstart₂.trans hstart₁, ?_⟩
      by_cases hc : node'.statement.isCode = true
      · obtain ⟨-, -, a, ha, hat, haddr, -⟩ := hcode hc
        refine .code hc ha (Nat.le_of_eq hat.symm) ?_
        rwa [hat, ← haddr]
      · exact .other (Bool.not_eq_true _ ▸ hc) (hrest.of_le hup)
    · by_cases hc : node'.statement.isCode = true
      · obtain ⟨he₁, hstart₁, a, ha, hat, haddr, -⟩ := hcode hc
        obtain ⟨hstart₂, hrest⟩ := hemitted he₁
        refine .code hc ha ?_ ?_
        · rw [hat, hstart₂, hstart₁]
          exact hle
        · rwa [hat, ← haddr]
      · cases he₁ : l₁.emitted with
        | false => exact .other (Bool.not_eq_true _ ▸ hc) (hfresh he₁)
        | true =>
          obtain ⟨hstart₂, hrest⟩ := hemitted he₁
          exact .other (Bool.not_eq_true _ ▸ hc) (hrest.of_le (hstart₂ ▸ hle₁))

end Places

/-! ### Addresses of labels -/

def Node.labelId? (n : Node) : Option SymbolId := if n.statement.isLabel then n.symbol else none

def labelIds (nodes : SyntaxTree) : List SymbolId := nodes.filterMap Node.labelId?

theorem labelIds_cons (node : Node) (nodes : SyntaxTree) :
    labelIds (node :: nodes) = labelIds [node] ++ labelIds nodes :=
  filterMap_append (l := [node])

section Labels

variable {unit : UnitId} {inlining : Bool} {more : List SymbolId}

theorem LayStep.symbols_eq (h : LayStep unit inlining l node node' l') :
    l'.symbols = l.symbols ∨ ∃ label address, node.labelId? = some label ∧
      l'.symbols = l.symbols.modify label (·.withAddress (some address)) := by
  cases h with
  | opens | jumps | passes => exact .inl rfl
  | @places _ _ address _ _ _ _ _ =>
    unfold assignLabel Node.labelId?
    split
    · rename_i label hl hsym
      exact .inr ⟨label, address, by rw [hl, hsym, if_pos rfl], rfl⟩
    · exact .inl rfl

theorem LayStep.later (h : LayStep unit inlining l node node' l')
    (hnodup : (labelIds [node] ++ more).Nodup)
    (hu : ∀ i ∈ labelIds [node] ++ more, l.symbols.Unassigned i) :
    TableAlike id Later l.symbols l'.symbols ∧ ∀ i ∈ more, l'.symbols.Unassigned i := by
  rcases h.symbols_eq with heq | ⟨label, address, hlabel, heq⟩
  · rw [heq]
    exact ⟨TableAlike.refl _, fun i hi => hu i (mem_append_right _ hi)⟩
  · have hids : labelIds [node] = [label] := by simp [labelIds, hlabel]
    rw [hids] at hnodup hu
    rw [heq]
    refine ⟨TableAlike.assign (hu label (by simp)) (some address), fun i hi => ?_⟩
    refine (hu i (mem_append_right _ hi)).modify (fun hne => ?_) _
    rw [hne] at hnodup
    exact (nodup_cons.mp hnodup).1 hi

/-- **Labels that had no address get one, and no other label changes.** The labels
`more`, of other units, stay without one. -/
theorem Lays.later (h : Lays unit inlining l nodes nodes' l')
    (hnodup : (labelIds nodes ++ more).Nodup)
    (hu : ∀ i ∈ labelIds nodes ++ more, l.symbols.Unassigned i) :
    TableAlike id Later l.symbols l'.symbols ∧ ∀ i ∈ more, l'.symbols.Unassigned i := by
  induction h with
  | nil => exact ⟨TableAlike.refl _, hu⟩
  | @cons _ _ _ node _ nodes _ step _ ih =>
    rw [labelIds_cons, append_assoc] at hnodup hu
    obtain ⟨halike, hrest⟩ := step.later hnodup hu
    obtain ⟨halike', hmore⟩ := ih (nodup_append.mp hnodup).2.1 hrest
    exact ⟨halike.trans halike', hmore⟩

/-- **Sizes are right in the end**: those of code whose operand was inlined, too,
since its value stays. -/
theorem Lays.measured (h : Lays unit inlining l nodes nodes' l')
    (hs : ∀ n ∈ nodes, n.statement.Sound ∧ n.statement.Short) (hle : l.start ≤ l.address)
    (hend : l.address ≤ memoryEnd) (hnodup : (labelIds nodes ++ more).Nodup)
    (hu : ∀ i ∈ labelIds nodes ++ more, l.symbols.Unassigned i) :
    ∀ n ∈ nodes', n.statement.isCode = true →
      Measured l'.symbols (n.viewpoint unit) n.size.toNat n.inlined n.statement := by
  induction h with
  | nil => exact fun _ hn => absurd hn (by simp)
  | @cons _ _ _ node node' nodes _ step rest ih =>
    rw [labelIds_cons, append_assoc] at hnodup hu
    obtain ⟨hsound, hshort⟩ := hs node mem_cons_self
    obtain ⟨hle₁, hend₁, -, hcode⟩ := step.place hsound hshort hle hend
    obtain ⟨halike, hrest⟩ := step.later hnodup hu
    have hnodup' := (nodup_append.mp hnodup).2.1
    obtain ⟨halike', -⟩ := rest.later hnodup' hrest
    intro n hn hc
    rcases mem_cons.mp hn with rfl | hn
    · obtain ⟨-, -, -, -, -, -, hmeas⟩ := hcode hc
      exact hmeas.later (halike.trans halike')
    · exact ih (fun n hn => hs n (mem_cons_of_mem _ hn)) hle₁ hend₁ hnodup' hrest n hn hc

end Labels

end WordAsm
