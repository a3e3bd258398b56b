/-
# The layout of a program

Units are laid out one after the other. A unit that has been laid out has its
code in ascending order between its start and its stop, with the sizes that the
code will need (`Placed`), and stays so: laying out other units only
gives addresses to labels that had none. That labels of units still to come have
none is part of the invariant of the pass (`LaidUpTo`).
-/
import WordAsm.Proofs.Phases

namespace WordAsm

variable {tree : FileTree} {u : SourceUnit} {switches : Switches} {nodes : SyntaxTree}

def SourceUnit.Sourced (switches : Switches) (tree : FileTree) (u : SourceUnit) : Prop :=
  ∃ nodes, u.tree = some nodes ∧
    List.Forall₂ (fun n n' : Node => n'.statement = n.statement) (u.source switches tree) nodes

/-- No list of words in a queued source is so long that its length is not a word. -/
def Program.ShortLists (switches : Switches) (tree : FileTree) (p : Program) : Prop :=
  ∀ u ∈ p.ordered, ∀ n ∈ u.source switches tree, n.statement.Short

instance (switches : Switches) (tree : FileTree) : DecidablePred
    (Program.ShortLists switches tree) :=
  fun p => inferInstanceAs (Decidable
    (∀ u ∈ p.ordered, ∀ n ∈ u.source switches tree, n.statement.Short))

theorem Program.ShortLists.of_grows {p q : Program} (h : q.ShortLists switches tree)
    (hg : p.Grows q) : p.ShortLists switches tree := by
  intro u hu n hn
  obtain ⟨v, hv, huv⟩ := hg.ordered hu
  refine h v hv n ?_
  rwa [SourceUnit.source_congr huv.resource]

theorem SourceUnit.Declared.sourced (h : u.Declared switches tree) : u.Sourced switches tree := by
  obtain ⟨nodes, htree, hnodes⟩ := h
  refine ⟨nodes, htree, hnodes.imp fun n n' hn => ?_⟩
  obtain ⟨_, _, _, rfl⟩ := hn
  rfl

/-- The unit has its place: its code ascends between its start and its stop, with
the sizes that the code needs. -/
structure Placed (t : Table) (u : SourceUnit) (nodes : SyntaxTree) (stop : ℕ) : Prop where
  tree : u.tree = some nodes
  ends : u.stop = some stop
  within : stop ≤ memoryEnd
  spans : Spans u.start.toNat nodes stop
  measured : ∀ n ∈ nodes, n.statement.isCode = true →
    Measured t (n.viewpoint u.id) n.size.toNat n.inlined n.statement

theorem Placed.later {t t' : Table} {stop : ℕ} (h : Placed t u nodes stop)
    (ht : TableAlike id Later t t') : Placed t' u nodes stop :=
  ⟨h.tree, h.ends, h.within, h.spans, fun n hn hc => (h.measured n hn hc).later ht⟩

section Units

variable {unit : UnitId} {inlining : Bool} {cfg : Settings} {p : Program} {u : SourceUnit}
  {nodes : SyntaxTree}

theorem get?_laid (cfg : Settings) (u : SourceUnit) (nodes : SyntaxTree) (p : Program)
    (i : UnitId) :
    (p.laid cfg u nodes).get? i = if u.id = i then
      (p.get? i).map (·.withLayout (layoutOf cfg u nodes p)) else p.get? i :=
  Units.get?_modify _ _ _ _

theorem previousEnd_le (hstops : p.Each fun v => ∀ s, v.stop = some s → s ≤ memoryEnd)
    (i : UnitId) :
    previousEnd p.units i ≤ memoryEnd := by
  unfold previousEnd
  simp only
  generalize (p.order.takeWhile (· ≠ i)).reverse = ids
  cases h : ids.findSome? fun id => (p.get? id).bind SourceUnit.stop with
  | none => exact Nat.zero_le _
  | some s =>
    obtain ⟨id, -, hs⟩ := List.exists_of_findSome?_eq_some h
    obtain ⟨v, hv, hstop⟩ := Option.bind_eq_some_iff.mp hs
    exact hstops id v hv s hstop

theorem labelIds_lays {l l' : Layout} {nodes' : SyntaxTree}
    (h : Lays unit inlining l nodes nodes' l') : labelIds nodes' = labelIds nodes := by
  have hnodes := h.nodes_eq
  clear h
  induction hnodes with
  | nil => rfl
  | @cons n n' ns ns' hn _ ih =>
    calc labelIds (n' :: ns') = labelIds [n'] ++ labelIds ns' := labelIds_cons n' ns'
      _ = labelIds [n] ++ labelIds ns := by
        obtain ⟨_, _, _, rfl⟩ := hn
        rw [ih]
        rfl
      _ = labelIds (n :: ns) := (labelIds_cons n ns).symm

theorem placed_of_lays (hlays : Lays u.id (!cfg.switches.has .disableInlining)
      { symbols := p.symbols
        start := previousEnd p.units u.id
        address := previousEnd p.units u.id }
      nodes (layoutOf cfg u nodes p).1 (layoutOf cfg u nodes p).2)
    (hprev : previousEnd p.units u.id ≤ memoryEnd)
    (hs : ∀ n ∈ nodes, n.statement.Sound ∧ n.statement.Short) {more : List SymbolId}
    (hnodup : (labelIds nodes ++ more).Nodup)
    (hfree : ∀ i ∈ labelIds nodes ++ more, p.symbols.Unassigned i) :
    Placed (layoutOf cfg u nodes p).2.symbols (u.withLayout (layoutOf cfg u nodes p))
      (layoutOf cfg u nodes p).1 (layoutOf cfg u nodes p).2.address := by
  obtain ⟨-, hend, -, hspans⟩ := hlays.spans hs (Nat.le_refl _) hprev
  have hstart : (startAddress (layoutOf cfg u nodes p).2.start).toNat ≤
      (layoutOf cfg u nodes p).2.start := by
    rw [toNat_startAddress]
    exact Nat.min_le_left _ _
  refine ⟨rfl, rfl, hend, (hspans rfl).of_le hstart, fun n hn hc => ?_⟩
  have hid : (u.withLayout (layoutOf cfg u nodes p)).id = u.id := (u.grows_withLayout _).id
  rw [hid]
  exact hlays.measured hs (Nat.le_refl _) hprev hnodup hfree n hn hc

variable (hu : p.get? u.id = some u)

include hu

theorem get?_laid_self :
    (p.laid cfg u nodes).get? u.id =
      some (u.withLayout (layoutOf cfg u nodes p)) := by
  rw [get?_laid, if_pos rfl, hu]
  rfl

theorem get?_laid_cases {i : UnitId} {w : SourceUnit}
    (hw : (p.laid cfg u nodes).get? i = some w) :
    (i = u.id ∧ w = u.withLayout (layoutOf cfg u nodes p)) ∨
      (i ≠ u.id ∧ p.get? i = some w) := by
  rcases Program.get?_modifyUnit_cases hw with ⟨hi, v, hv, heq⟩ | hother
  · rw [show v = u from Option.mem_unique hv hu] at heq
    exact .inl ⟨hi, heq⟩
  · exact .inr hother

theorem clean_of_visit (he : (p.laid cfg u nodes).hasErrors = false) :
    (layoutOf cfg u nodes p).2.Clean := by
  intro m hm
  have hmarked := Program.noErrors_get? he (get?_laid_self hu)
  exact SourceUnit.noErrors_of_markAll (u := u) hmarked m hm

theorem lays_of_visit (he : (p.laid cfg u nodes).hasErrors = false) :
    Lays u.id (!cfg.switches.has .disableInlining)
      { symbols := p.symbols
        start := previousEnd p.units u.id
        address := previousEnd p.units u.id }
      nodes (layoutOf cfg u nodes p).1 (layoutOf cfg u nodes p).2 :=
  lays_of_layNodes (clean_of_visit hu he)

theorem labels_laid (htree : u.tree = some nodes) {l l' : Layout}
    (hlays : Lays unit inlining l nodes (layoutOf cfg u nodes p).1 l') (ids : List UnitId) :
    (p.laid cfg u nodes).units.labels ids = p.units.labels ids := by
  refine Units.labels_congr fun i _ => ?_
  rw [get?_laid]
  split
  · rename_i hid
    rw [← hid, hu]
    simp only [Option.map_some, SourceUnit.labels, SourceUnit.withLayout, htree, Option.getD_some]
    rw [labelIds_lays hlays]
  · rfl

end Units

/-! ### Labels of units to come -/

/-- The labels of the units from position `k` on have handles of their own, and no
addresses. -/
structure Program.Pending (k : ℕ) (p : Program) : Prop where
  nodup : (p.units.labels (p.order.drop k)).Nodup
  unassigned : ∀ i ∈ p.units.labels (p.order.drop k), p.symbols.Unassigned i

section Pass

variable {cfg : Settings} {k : ℕ} {p : Program} {u : SourceUnit} {nodes : SyntaxTree}

theorem labels_drop (ht : p.At k u nodes) :
    p.units.labels (p.order.drop k) =
      labelIds nodes ++ p.units.labels (p.order.drop (k + 1)) := by
  obtain ⟨hlt, hget⟩ := List.getElem?_eq_some_iff.mp ht.queued
  rw [List.drop_eq_getElem_cons hlt, hget]
  unfold Units.labels
  rw [List.flatMap_cons, ht.unit, Option.map_some, Option.getD_some, SourceUnit.labels, ht.tree,
    Option.getD_some]

/-- **The layout of one more unit** gives its labels addresses, and changes nothing else
about the symbols. -/
theorem Program.Pending.visit (h : p.Pending k) (ht : p.At k u nodes)
    (he : (p.laid cfg u nodes).hasErrors = false) :
    TableAlike id Later p.symbols (p.laid cfg u nodes).symbols ∧
      (p.laid cfg u nodes).Pending (k + 1) := by
  have hlays := lays_of_visit ht.unit he
  have hlabels := labels_drop ht
  have hnodup := hlabels ▸ h.nodup
  have hfree : ∀ i ∈ labelIds nodes ++ p.units.labels (p.order.drop (k + 1)),
      p.symbols.Unassigned i := hlabels ▸ h.unassigned
  obtain ⟨hlater, hrest⟩ := hlays.later hnodup hfree
  have hsame := labels_laid ht.unit ht.tree hlays
  refine ⟨hlater, ?_, ?_⟩
  · rw [hsame]
    exact (List.nodup_append.mp hnodup).2.1
  · rw [hsame]
    exact hrest

end Pass

/-! ### The pass -/

/-- The units of a layout that has come to position `k` without errors. -/
structure LaidUpTo (cfg : Settings) (tree : FileTree) (k : ℕ) (p : Program) : Prop where
  wellFormed : p.WellFormed
  unbuilt : p.Each SourceUnit.Unbuilt
  sourced : ∀ id ∈ p.order, ∀ u, p.get? id = some u → u.Sourced cfg.switches tree
  short : ∀ id ∈ p.order, ∀ u, p.get? id = some u →
    ∀ n ∈ u.source cfg.switches tree, n.statement.Short
  stops : p.Each fun u => ∀ s, u.stop = some s → s ≤ memoryEnd
  placed : ∀ id ∈ p.order.take k, ∀ u, p.get? id = some u →
    ∃ nodes stop, Placed p.symbols u nodes stop
  pending : p.Pending k

theorem SourceUnit.Sourced.statements {cfg : Settings} (h : u.Sourced cfg.switches tree)
    (htree : u.tree = some nodes)
    (hshort : ∀ n ∈ u.source cfg.switches tree, n.statement.Short) :
    ∀ n ∈ nodes, n.statement.Sound ∧ n.statement.Short := by
  obtain ⟨nodes', htree', hnodes⟩ := h
  rw [htree] at htree'
  cases htree'
  intro n hn
  obtain ⟨m, hm, heq⟩ := forall₂_mem_right hnodes hn
  rw [heq]
  exact ⟨u.source_sound cfg.switches tree m hm, hshort m hm⟩

theorem SourceUnit.Sourced.withLayout (h : u.Sourced switches tree) (htree : u.tree = some nodes)
    {unit : UnitId} {inlining : Bool} {l : Layout} {layout : SyntaxTree × Layout}
    (hlays : Lays unit inlining l nodes layout.1 layout.2) :
    (u.withLayout layout).Sourced switches tree := by
  obtain ⟨nodes', htree', hnodes⟩ := h
  rw [htree] at htree'
  cases htree'
  refine ⟨_, rfl, ?_⟩
  rw [SourceUnit.source_congr (u.grows_withLayout layout).resource]
  refine forall₂_trans hnodes (hlays.nodes_eq.imp fun n n' hn => ?_)
    fun _ _ _ hab hbc => hbc.trans hab
  obtain ⟨_, _, _, rfl⟩ := hn
  rfl

/-- **The layout of one more unit.** -/
theorem LaidUpTo.visit {cfg : Settings} {k : ℕ} {p : Program} (h : LaidUpTo cfg tree k p)
    (ht : p.At k u nodes) (he : (p.laid cfg u nodes).hasErrors = false) :
    LaidUpTo cfg tree (k + 1) (p.laid cfg u nodes) := by
  obtain ⟨hk, hu, htree⟩ := id ht
  have hmem : u.id ∈ p.order := List.mem_of_getElem? hk
  have hlays := lays_of_visit hu he
  have hs := (h.sourced u.id hmem u hu).statements htree (h.short u.id hmem u hu)
  have hprev := previousEnd_le h.stops u.id
  have hlabels := labels_drop ht
  obtain ⟨hlater, hpending⟩ := h.pending.visit ht he
  have hplaced := placed_of_lays hlays hprev hs (hlabels ▸ h.pending.nodup)
    (hlabels ▸ h.pending.unassigned)
  have hg := (layoutPhase_treewise cfg).grows u nodes p
  have hres : (u.withLayout (layoutOf cfg u nodes p)).resource = u.resource :=
    (u.grows_withLayout _).resource
  refine ⟨hg.wellFormed h.wellFormed, ?_, ?_, ?_, ?_, ?_, hpending⟩
  · intro i w hw
    rcases get?_laid_cases hu hw with ⟨rfl, rfl⟩ | ⟨-, hw⟩
    · exact (h.unbuilt _ u hu).withLayout cfg u nodes p
    · exact h.unbuilt i w hw
  · intro i hi w hw
    rcases get?_laid_cases hu hw with ⟨rfl, rfl⟩ | ⟨-, hw⟩
    · exact (h.sourced u.id hi u hu).withLayout htree hlays
    · exact h.sourced i hi w hw
  · intro i hi w hw
    rcases get?_laid_cases hu hw with ⟨rfl, rfl⟩ | ⟨-, hw⟩
    · rw [SourceUnit.source_congr hres]
      exact h.short u.id hi u hu
    · exact h.short i hi w hw
  · intro i w hw s hs
    rcases get?_laid_cases hu hw with ⟨rfl, rfl⟩ | ⟨-, hw⟩
    · have hstop := hplaced.ends.symm.trans hs
      cases hstop
      exact hplaced.within
    · exact h.stops i w hw s hs
  · intro i hi w hw
    rcases get?_laid_cases hu hw with ⟨rfl, rfl⟩ | ⟨hne, hw⟩
    · exact ⟨_, _, hplaced⟩
    · obtain ⟨nodes', stop, hpl⟩ := h.placed i (mem_take_of_mem_take_succ hk hi hne) w hw
      exact ⟨nodes', stop, hpl.later hlater⟩

end WordAsm
