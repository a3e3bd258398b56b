/-
# Names that evaluate

A compilation that comes as far as the validation has checked every name and given
every label an address. So every name in an expression finds a label with an address
or an equation with its expression, in the scope that the expression is evaluated in,
and an expression has no value only through an operator, or through a `$` without an
address (`Faulty`).

A `$` has no address in the expression of an equation, and in one more place: a list of
65536 words, or of a multiple of that, has a length of 0 as a word. It is not placed, and
it is not found to run past the end of memory.
-/
import WordAsm.Proofs.CheckedReferences
import WordAsm.Proofs.Faults
import WordAsm.Proofs.InlinedOperands

namespace WordAsm

open List

/-! ### Labels -/

def Table.Assigned (t : Table) (id : SymbolId) : Prop :=
  ∀ x, t.symbol? id = some x → x.isLabel = true → ∃ address, x.kind = .label (some address)

theorem Table.Assigned.later {t t' : Table} {i : SymbolId} (h : t.Assigned i)
    (ht : TableAlike id Later t t') : t'.Assigned i := by
  intro y hy hlabel
  obtain ⟨x, hx, hxy⟩ := rel_some_right (ht.symbol? i) hy
  obtain ⟨address, hkind⟩ := h x hx (hxy.sort.2.1 ▸ hlabel)
  have halike := hxy.kind
  rw [hkind] at halike
  generalize y.kind = k at halike
  cases halike with
  | label hlater => exact ⟨address, congrArg SymbolKind.label (hlater.eq_some rfl)⟩

theorem Table.assigned_modify (t : Table) (id : SymbolId) (address : Address) :
    (t.modify id (·.withAddress (some address))).Assigned id := by
  intro x hx hlabel
  rw [modify, symbol?_mapKinds, Option.map_eq_some_iff] at hx
  obtain ⟨⟨name, unit, location, scope, kind⟩, -, rfl⟩ := hx
  simp only [if_true] at hlabel ⊢
  cases kind with
  | label _ => exact ⟨address, rfl⟩
  | equation | macroDef => cases hlabel

section Nodes

variable {n n' : Node} {s : Statement} {eval : Expr → Option Int64} {unit : UnitId}
  {inlining : Bool} {l l' : Layout} {nodes nodes' : SyntaxTree}

theorem LayStep.assigned (h : LayStep unit inlining l n n' l') {i : SymbolId}
    (hi : n.labelId? = some i) : l'.symbols.Assigned i := by
  obtain ⟨hlabel, hsymbol⟩ : n.statement.isLabel = true ∧ n.symbol = some i := by
    unfold Node.labelId? at hi
    split at hi
    · exact ⟨‹_›, hi⟩
    · cases hi
  cases h with
  | opens hs | jumps hs => rw [hs] at hlabel; cases hlabel
  | passes _ _ hl => exact absurd (hlabel.symm.trans hl) (by simp)
  | @places size inlined address =>
    simp only [assignLabel, hlabel, hsymbol]
    exact l.symbols.assigned_modify i address

/-- **The labels of nodes that are laid out** have addresses. -/
theorem Lays.assigned (h : Lays unit inlining l nodes nodes' l') {more : List SymbolId}
    (hnodup : (labelIds nodes ++ more).Nodup)
    (hfree : ∀ i ∈ labelIds nodes ++ more, l.symbols.Unassigned i) :
    ∀ i ∈ labelIds nodes, l'.symbols.Assigned i := by
  induction h with
  | nil => intro i hi; cases hi
  | @cons _ _ _ node _ nodes _ step rest ih =>
    rw [labelIds_cons, append_assoc] at hnodup hfree
    have hrest := (step.later hnodup hfree).2
    have hnodup' := (nodup_append.mp hnodup).2.1
    intro i hi
    rw [labelIds_cons] at hi
    rcases mem_append.mp hi with hi | hi
    · obtain ⟨m, hm, hlabel⟩ := mem_filterMap.mp hi
      rw [mem_singleton.mp hm] at hlabel
      exact (step.assigned hlabel).later (rest.later hnodup' hrest).1
    · exact ih hnodup' hrest i hi

/-! ### Places -/

/-- The statement has expressions but no place in memory. Besides equations, these are the
lists of words whose length is 0 as a word. -/
def Statement.Placeless : Statement → Prop
  | .equation _ _ => True
  | .words es => 65536 ∣ es.length
  | _ => False

theorem placeless_iff {e : Expr} (he : e ∈ s.exprs) : s.Placeless ↔
    (∃ name, s = .equation name e) ∨ ∃ es, s = .words es ∧ 65536 ∣ es.length := by
  cases s with
  | equation name e' => simp [Statement.Placeless, mem_singleton.mp he]
  | words es => simp [Statement.Placeless]
  | _ => simp [Statement.Placeless]

/-- If the node has expressions and no address, its statement is placeless. -/
def Node.Seated (n : Node) : Prop :=
  n.statement.exprs ≠ [] → n.address = none → n.statement.Placeless

def Node.Waits (n : Node) : Prop := n.statement.Placeless → n.address = none

theorem toAddress?_ne_none {n : ℕ} (h : n < memoryEnd) : toAddress? n ≠ none := by
  rw [toAddress?, if_pos h]
  exact Option.some_ne_none _

theorem placeless_of_measure (hs : ∀ e, s ≠ .origin e) (hexprs : s.exprs ≠ [])
    (h : (measure inlining eval s).1 = 0) : s.Placeless := by
  cases s with
  | origin e => exact absurd rfl (hs e)
  | equation _ _ => trivial
  | words es =>
    rw [measure, ← UInt16.toNat_inj, UInt16.toNat_ofNat'] at h
    exact Nat.dvd_of_mod_eq_zero h
  | instruction op a b =>
    rcases b with _ | (r | e)
    · cases h
    · cases h
    · rw [measure] at h
      split at h <;> cases h
  | label | includes | macroDef => exact absurd rfl hexprs

theorem measure_of_placeless (h : s.Placeless) :
    (measure inlining eval s).1 = 0 ∧ s.isLabel = false := by
  cases s with
  | equation _ _ => exact ⟨rfl, rfl⟩
  | words es =>
    refine ⟨?_, rfl⟩
    rw [measure, ← UInt16.toNat_inj, UInt16.toNat_ofNat']
    exact Nat.mod_eq_zero_of_dvd h
  | _ => cases h

theorem LayStep.seated (h : LayStep unit inlining l n n' l') : n'.Seated := by
  intro hexprs haddress
  cases h with
  | opens _ _ hlo hhi => exact absurd haddress (toAddress?_ne_none ((Int.toNat_lt hlo).mpr hhi))
  | @jumps _ v _ _ hhi =>
    have hlt : v.toInt.toNat < memoryEnd := by
      unfold memoryEnd at hhi ⊢
      omega
    exact absurd haddress (toAddress?_ne_none hlt)
  | places => cases haddress
  | passes hs hm _ => exact placeless_of_measure hs hexprs (congrArg Prod.fst hm)

theorem LayStep.waits (h : LayStep unit inlining l n n' l') (hn : n.Waits) : n'.Waits := by
  intro hplaceless
  cases h with
  | opens hs | jumps hs =>
    simp only [hs] at hplaceless
    cases hplaceless
  | passes => exact hn hplaceless
  | places hs hm hp =>
    obtain ⟨hsize, hlabel⟩ := measure_of_placeless hplaceless
    rw [hm] at hsize
    rcases hp with hp | hp
    · exact absurd hsize hp
    · exact absurd (hp.symm.trans hlabel) (by simp)

/-- **Nodes that are laid out** have addresses just where they have places. -/
theorem Lays.seated (h : Lays unit inlining l nodes nodes' l') (hwaits : ∀ n ∈ nodes, n.Waits) :
    ∀ n ∈ nodes', n.Seated ∧ n.Waits := by
  induction h with
  | nil => intro n hn; cases hn
  | @cons _ _ _ node _ _ _ step _ ih =>
    intro n hn
    rcases mem_cons.mp hn with rfl | hn
    · exact ⟨step.seated, step.waits (hwaits node mem_cons_self)⟩
    · exact ih (fun m hm => hwaits m (mem_cons_of_mem _ hm)) n hn

end Nodes

/-! ### The layout -/

def Program.Nodes (P : UnitId → Node → Prop) (p : Program) : Prop :=
  ∀ i u nodes, p.get? i = some u → u.tree = some nodes → ∀ n ∈ nodes, P i n

/-- The names in the expressions of a node are known to the table `t`. -/
def Node.Knows (t : Table) (unit : UnitId) (n : Node) : Prop :=
  ∀ e ∈ n.statement.exprs, ∀ name ∈ e.identifiers, t.Knows unit n.scope name

/-- The layout of the program `p`, whose names are known, has come to position `k` and
left `q`: the symbols of `p` have more addresses, and the labels and nodes ahead of `k`
have theirs. -/
structure LaidNames (p : Program) (k : ℕ) (q : Program) : Prop where
  wellFormed : q.WellFormed
  order : q.order = p.order
  pending : q.Pending k
  later : TableAlike id Later p.symbols q.symbols
  labels : ∀ ids, q.units.labels ids = p.units.labels ids
  trees : ∀ i u, q.get? i = some u → (u.tree.isSome ↔ i ∈ q.order)
  nodes : q.Nodes fun i n => n.Knows p.symbols i ∧ n.Waits
  assigned : ∀ i ∈ q.units.labels (q.order.take k), q.symbols.Assigned i
  seated : ∀ i ∈ q.order.take k, ∀ u nodes, q.get? i = some u →
    u.tree = some nodes → ∀ n ∈ nodes, n.Seated

section Layout

variable {cfg : Settings} {p q : Program} {k : ℕ} {u : SourceUnit} {nodes : SyntaxTree}

/-- **The layout of one more unit.** -/
theorem LaidNames.visit (h : LaidNames p k q) (ht : q.At k u nodes)
    (he : (q.laid cfg u nodes).hasErrors = false) :
    LaidNames p (k + 1) (q.laid cfg u nodes) := by
  obtain ⟨hlater, hpending⟩ := h.pending.visit ht he
  obtain ⟨hk, hu, htree⟩ := id ht
  have hlays := lays_of_visit hu he
  have hsame := labels_laid hu htree hlays
  have hg := (layoutPhase_treewise cfg).grows u nodes q
  have hmem := mem_of_getElem? hk
  have hseated := hlays.seated fun n hn => (h.nodes u.id u nodes hu htree n hn).2
  refine ⟨hg.wellFormed h.wellFormed, h.order, hpending, h.later.trans hlater,
    fun ids => (hsame ids).trans (h.labels ids), fun i w hw => ?_, fun i w nodes' hw hnodes' => ?_,
    ?_, fun i hi w nodes' hw hnodes' => ?_⟩
  · rcases get?_laid_cases hu hw with ⟨rfl, rfl⟩ | ⟨-, hw⟩
    · exact ⟨fun _ => hmem, fun _ => rfl⟩
    · exact h.trees i w hw
  · rcases get?_laid_cases hu hw with ⟨rfl, rfl⟩ | ⟨-, hw⟩
    · obtain rfl : (layoutOf cfg u nodes q).1 = nodes' := Option.some.inj hnodes'
      intro n' hn'
      refine ⟨?_, (hseated n' hn').2⟩
      obtain ⟨n, hn, address, size, inlined, rfl⟩ := forall₂_mem_right hlays.nodes_eq hn'
      exact (h.nodes u.id u nodes hu htree n hn).1
    · exact h.nodes i w nodes' hw hnodes'
  · have hlabels := labels_drop ht
    have hassigned := hlays.assigned (hlabels ▸ h.pending.nodup) (hlabels ▸ h.pending.unassigned)
    have htake : (q.laid cfg u nodes).order.take (k + 1) =
        q.order.take k ++ [u.id] := (take_succ_of_grown hg.order hk).2
    rw [hsame, htake, Units.labels, flatMap_append, flatMap_singleton, hu]
    intro i hi
    rcases mem_append.mp hi with hi | hi
    · exact (h.assigned i hi).later hlater
    · simp only [Option.map_some, Option.getD_some, SourceUnit.labels, htree] at hi
      exact hassigned i hi
  · rcases get?_laid_cases hu hw with ⟨rfl, rfl⟩ | ⟨hne, hw⟩
    · obtain rfl : (layoutOf cfg u nodes q).1 = nodes' := Option.some.inj hnodes'
      exact fun n hn => (hseated n hn).1
    · exact h.seated i (mem_take_of_mem_take_succ hk hi hne) w nodes' hw hnodes'

end Layout

/-! ### Names that are settled -/

/-- Every expression of the program has its names settled, and its node seated. -/
structure Program.Evaluable (p : Program) : Prop where
  trees : ∀ i u, p.get? i = some u → (u.tree.isSome ↔ i ∈ p.order)
  nodes : p.Nodes fun i n => (∀ e ∈ n.statement.exprs, ∀ name ∈ e.identifiers,
    p.symbols.Settles i n.scope name) ∧ n.Seated ∧ n.Waits
  grounded : p.symbols.Grounded
  equations : ∀ id x, p.symbols.symbol? id = some x → x.isEquation = true →
    ∃ e context, x.kind = .equation (some e) context

section Settled

variable {p q : Program} {k n : ℕ}

/-- **A name that is known** is settled when all labels have addresses. -/
theorem LaidNames.settles (h : LaidNames p n q) (hn : q.order.length ≤ n) (hp : p.Rooted k)
    (hw : p.WellFormed)
    (hchecked : ∀ i ∈ p.order, ∀ u, p.get? i = some u → u.Checked p.symbols)
    {unit : UnitId} {scope : Option SymbolId} {name : String}
    (hname : p.symbols.Knows unit scope name) : q.symbols.Settles unit scope name := by
  obtain ⟨id, x, hid, hx, hmacro⟩ := hname
  obtain ⟨y, hy, hxy⟩ := rel_some (h.later.symbol? id) hx
  have hresolve := h.later.resolve Function.injective_id unit name scope
  refine ⟨id, y, hresolve.trans hid, hy, ?_⟩
  by_cases hequation : x.isEquation = true
  · obtain ⟨e, context, hkind, -⟩ := hp.knows hw hchecked hx hequation
    have halike := hxy.kind
    rw [hkind] at halike
    generalize y.kind = kind at halike
    cases halike
    exact .inr ⟨e, context, rfl⟩
  · refine .inl ?_
    obtain ⟨-, hqueued, u, nodes, node, hu, htree, hnode, hdecl⟩ := hp.exists_root hx hmacro
    cases hdecl with
    | equation _ _ hkind => exact absurd (by rw [Symbol.isEquation, hkind]) hequation
    | label hs hsymbol hlabel =>
      -- the label is one of the labels of its unit, and these have been laid out
      have hmem : id ∈ q.units.labels (q.order.take n) := by
        rw [take_of_length_le hn, h.order, h.labels, Units.labels, mem_flatMap]
        refine ⟨x.unit, hqueued, ?_⟩
        rw [hu, Option.map_some, Option.getD_some, SourceUnit.labels, htree, Option.getD_some]
        refine mem_filterMap.mpr ⟨node, hnode, ?_⟩
        rw [Node.labelId?, if_pos hs, hsymbol]
      exact h.assigned id hmem y hy (hxy.sort.2.1.trans hlabel)

theorem exists_equation_of_later {t t' : Table} (ht : TableAlike id Later t t')
    {i : SymbolId} {x' : Symbol} (hx' : t'.symbol? i = some x') {e : Option Expr}
    {context : Option SymbolId} (hkind' : x'.kind = .equation e context) :
    ∃ x, t.symbol? i = some x ∧ x.kind = .equation e context ∧ x'.unit = x.unit := by
  obtain ⟨x, hx, hxx⟩ := rel_some_right (ht.symbol? i) hx'
  refine ⟨x, hx, ?_, hxx.unit⟩
  have hkinds := hxx.kind
  rw [hkind'] at hkinds
  generalize x.kind = kind at hkinds
  cases hkinds
  rfl

theorem refers_of_later {t t' : Table} (ht : TableAlike id Later t t') {a b : SymbolId}
    (h : t'.Refers a b) : t.Refers a b := by
  obtain ⟨x', e, context, hx', hkind', name, hname, hb, y', hy', hequation⟩ := h
  obtain ⟨x, hx, hkind, hunit⟩ := exists_equation_of_later ht hx' hkind'
  obtain ⟨y, hy, hyy⟩ := rel_some_right (ht.symbol? b) hy'
  have hresolve := ht.resolve Function.injective_id x.unit name context
  rw [hunit] at hb
  exact ⟨x, e, context, hx, hkind, name, hname, hresolve.symm.trans hb, y, hy,
    hyy.sort.2.2.symm.trans hequation⟩

/-- **A checked program that has been laid out** has expressions that can be evaluated. -/
theorem LaidNames.evaluable (h : LaidNames p n q) (hn : q.order.length ≤ n)
    (hp : p.Rooted k) (hw : p.WellFormed)
    (hchecked : ∀ i ∈ p.order, ∀ u, p.get? i = some u → u.Checked p.symbols) :
    q.Evaluable := by
  have hsettles : ∀ {unit scope name}, p.symbols.Knows unit scope name →
      q.symbols.Settles unit scope name := h.settles hn hp hw hchecked
  refine ⟨h.trees, fun i u nodes hu htree node hnode => ?_,
    ⟨fun id x e context hx hkind name hname => ?_, fun id hcircle => ?_⟩,
    fun id x hx hequation => ?_⟩
  · obtain ⟨hknows, hwaits⟩ := h.nodes i u nodes hu htree node hnode
    refine ⟨fun e he name hname => hsettles (hknows e he name hname), ?_, hwaits⟩
    have hi := (h.trees i u hu).mp (by rw [htree]; rfl)
    rw [← take_of_length_le hn] at hi
    exact h.seated i hi u nodes hu htree node hnode
  · obtain ⟨y, hy, hykind, hunit⟩ := exists_equation_of_later h.later hx hkind
    obtain ⟨e', context', hkind', hknown⟩ :=
      hp.knows hw hchecked hy (by rw [Symbol.isEquation, hykind])
    cases hykind.symm.trans hkind'
    rw [hunit]
    exact hsettles (hknown name hname)
  · exact hp.acyclic hw hchecked id
      (hcircle.lift (fun i => i) fun _ _ => refers_of_later h.later)
  · obtain ⟨y, hy, hyx⟩ := rel_some_right (h.later.symbol? id) hx
    obtain ⟨e, context, hkind, -⟩ := hp.knows hw hchecked hy (hyx.sort.2.2.symm.trans hequation)
    have hkinds := hyx.kind
    rw [hkind] at hkinds
    generalize x.kind = kind at hkinds
    cases hkinds
    exact ⟨e, context, rfl⟩

end Settled

/-! ### Folding -/

theorem identifiers_fold (env : Environment) (weigh : String → Option Int32) (e : Expr) :
    (e.fold env weigh).identifiers ⊆ e.identifiers := by
  induction e with
  | number _ | ident _ | current =>
    unfold Expr.fold
    split <;> simp [Expr.identifiers]
  | unary op e ih =>
    rw [Expr.fold]
    split
    · simp [Expr.identifiers]
    · exact ih
  | binary op l r ihl ihr =>
    rw [Expr.fold]
    split
    · simp [Expr.identifiers]
    · intro name hname
      rcases mem_append.mp hname with hname | hname
      · exact mem_append_left _ (ihl hname)
      · exact mem_append_right _ (ihr hname)

theorem mem_exprs_mapCode {f : Expr → Expr} {s : Statement} {e : Expr}
    (h : e ∈ (s.mapCode f).exprs) : ∃ e' ∈ s.exprs, e = e' ∨ e = f e' := by
  cases s with
  | words es =>
    obtain ⟨e', he', rfl⟩ := mem_map.mp h
    exact ⟨e', he', .inr rfl⟩
  | instruction op a b =>
    rcases b with _ | (r | e')
    · cases h
    · cases h
    · exact ⟨e', mem_singleton_self e', .inr (mem_singleton.mp h)⟩
  | equation | origin => exact ⟨e, h, .inl rfl⟩
  | label _ => cases h
  | includes _ => cases h
  | macroDef _ _ => cases h

theorem placeless_mapCode {f : Expr → Expr} {s : Statement} :
    (s.mapCode f).Placeless ↔ s.Placeless := by
  cases s with
  | words es => simp [Statement.mapCode, Statement.Placeless]
  | instruction op a b => rcases b with _ | (r | e) <;> rfl
  | _ => rfl

theorem seated_foldNode {t : Table} {unit : UnitId} {n : Node} (h : n.Seated) :
    (foldNode t unit n).Seated := by
  intro hexprs haddress
  obtain ⟨e, he⟩ := exists_mem_of_ne_nil _ hexprs
  obtain ⟨e', he', -⟩ := mem_exprs_mapCode he
  exact placeless_mapCode.mpr (h (ne_nil_of_mem he') haddress)

theorem Program.Evaluable.folded {p : Program} {u : SourceUnit} {nodes : SyntaxTree}
    (h : p.Evaluable) (hu : p.get? u.id = some u) (htree : u.tree = some nodes) :
    (p.folded u nodes).Evaluable := by
  refine ⟨fun i w hw => ?_, fun i w nodes' hw hnodes' n hn => ?_, h.grounded, h.equations⟩
  · rcases Program.get?_modifyUnit_cases hw with ⟨rfl, v, hv, rfl⟩ | ⟨-, hw⟩
    · have hqueued := (h.trees u.id u hu).mp (by rw [htree]; rfl)
      exact ⟨fun _ => hqueued, fun _ => rfl⟩
    · exact h.trees i w hw
  · rcases get?_folded_cases hw hnodes' with ⟨rfl, rfl⟩ | hw
    · obtain ⟨m, hm, rfl⟩ := mem_map.mp hn
      obtain ⟨hsettled, hseated, hwaits⟩ := h.nodes u.id u nodes hu htree m hm
      refine ⟨fun e he name hname => ?_, seated_foldNode hseated,
        fun hplaceless => hwaits (placeless_mapCode.mp hplaceless)⟩
      obtain ⟨e', he', rfl | rfl⟩ := mem_exprs_mapCode he
      · exact hsettled e he' name hname
      · exact hsettled e' he' name (identifiers_fold _ _ e' hname)
    · exact h.nodes i w nodes' hw hnodes' n hn

/-! ### Compilations -/

section Compilation

variable {cfg : Settings} {tree : FileTree} {p : Program}

theorem treeless_reset (p : Program) : p.reset.Each (·.tree = none) := by
  intro i u hu
  obtain ⟨v, -, rfl⟩ := Option.map_eq_some_iff.mp (getElem?_map.symm.trans hu)
  rfl

/-- **A program that comes as far as the layout is through** can be evaluated. -/
theorem Arrival.evaluable (h : Arrival cfg p tree) (hw : p.WellFormed) :
    (stage cfg p tree 3).2.Evaluable ∧
      (stage cfg p tree 4).2.Evaluable := by
  obtain ⟨k, hk, hdeclared, hrooted⟩ :=
    rooted_of_parse h.parse (blank_reset hw) (treeless_reset p)
  have hpoisoned : (stage cfg p tree 1).2.poisoned = [] := by
    rw [h.opens]
    exact poisoned_runPhase_parse (opening p tree)
  have hchecked : ∀ i ∈ (stage cfg p tree 1).2.units.order, ∀ u,
      (stage cfg p tree 1).2.units.get? i = some u →
      u.Checked (stage cfg p tree 1).2.symbols := by
    refine checked_of_references cfg hdeclared.wellFormed hpoisoned ?_
    rw [← h.check]
    exact h.layout.noErrors_first
  have hpending := pending_of_parse h.parse (blank_reset hw)
  have hlayout := h.layout
  rw [h.kept] at hlayout
  generalize (stage cfg p tree 1).2.program = q₁ at *
  have hstart : LaidNames q₁ 0 q₁ := by
    refine ⟨hdeclared.wellFormed, rfl, hpending, TableAlike.refl _, fun _ => rfl,
      fun i u hu => ⟨fun hsome => ?_, fun hi => ?_⟩,
      fun i u nodes hu htree n hn => ?_, by simp [Units.labels], by simp⟩
    · exact mem_of_mem_take (hrooted.trees i u hu hsome)
    · rw [← take_of_length_le hk] at hi
      obtain ⟨nodes, htree, -⟩ := hdeclared.declared i hi u hu
      rw [htree]
      rfl
    · have hi := mem_of_mem_take (hrooted.trees i u hu (by rw [htree]; rfl))
      obtain ⟨nodes', htree', hproblems⟩ := (hchecked i hi u hu).names
      obtain rfl := Option.mem_unique htree htree'
      rw [hdeclared.wellFormed.numbered i u hu] at hproblems
      refine ⟨fun e he name hname => knows_of_referenceProblems hproblems hn he hname, fun _ => ?_⟩
      rw [← take_of_length_le hk] at hi
      obtain ⟨nodes', htree', hsource⟩ := hdeclared.declared i hi u hu
      obtain rfl := Option.mem_unique htree htree'
      obtain ⟨m, hm, scope, symbol, included, rfl⟩ := forall₂_mem_right hsource hn
      have hunplaced : m.address = none := SourceUnit.unplaced_of_mem_source hm
      exact hunplaced
  obtain ⟨-, n, hn, hlaid⟩ := (layoutPhase_treewise cfg).induct (I := LaidNames _) hlayout
    hstart.wellFormed hstart fun _ _ _ _ ht hc hI => hI.visit ht hc
  have hevaluable := hlaid.evaluable hn hrooted hdeclared.wellFormed hchecked
  exact ⟨hevaluable, keeps_of_folding (I := Program.Evaluable)
    (fun _ _ _ hu htree h => h.folded hu htree) h.folding hlaid.wellFormed hevaluable⟩

/-- **Names that are checked evaluate.** In a compilation that comes as far as the
validation, before the folding and after it, every queued unit has its tree, and every name
in an expression of it finds a label with an address or an equation with its expression.
An expression has no value just if it is faulty; and its node has no address just if it is
an equation, or a list of words so long that its length is 0 as a word. -/
theorem checked_names_evaluate (cfg : Settings) {p : Program} (tree : FileTree)
    (hw : p.WellFormed) (hgo : (stage cfg p tree 4).1 = false) :
    ∀ j ∈ [3, 4], let q := (stage cfg p tree j).2.program
    (∀ i ∈ q.order, ∃ u nodes, q.get? i = some u ∧ u.tree = some nodes) ∧
    (∀ i u nodes, q.get? i = some u → u.tree = some nodes →
      ∀ n ∈ nodes, ∀ e ∈ n.statement.exprs,
        (∀ name ∈ e.identifiers, q.symbols.Settles i n.scope name) ∧
        (q.symbols.eval (n.viewpoint i) e = none ↔ Faulty q.symbols i n.scope n.address e) ∧
        (n.address = none ↔ (∃ name, n.statement = .equation name e) ∨
          ∃ es, n.statement = .words es ∧ 65536 ∣ es.length)) ∧
    ∀ id x, q.symbols.symbol? id = some x → x.isEquation = true →
      ∃ e context, x.kind = .equation (some e) context ∧
        ∀ name ∈ e.identifiers, q.symbols.Settles x.unit context name := by
  intro j hj q
  have harrival := arrival_of_stage hw hgo
  obtain ⟨hwellFormed, hevaluable⟩ : q.WellFormed ∧ q.Evaluable := by
    have hw₃ := (harrival.layout.grows (layoutPhase_treewise cfg).quiet.toSteady).wellFormed
      harrival.wellFormed
    have hw₄ := (harrival.folding.grows (foldingPhase_treewise cfg).quiet.toSteady).wellFormed
      hw₃
    obtain ⟨h₃, h₄⟩ := harrival.evaluable hw
    simp only [mem_cons, not_mem_nil, or_false] at hj
    rcases hj with rfl | rfl
    · exact ⟨hw₃, h₃⟩
    · exact ⟨hw₄, h₄⟩
  refine ⟨fun i hi => ?_, fun i u nodes hu htree n hn e he => ?_, fun id x hx hequation => ?_⟩
  · obtain ⟨u, hu, -⟩ := hwellFormed.exists_get? hi
    obtain ⟨nodes, htree⟩ := Option.isSome_iff_exists.mp ((hevaluable.trees i u hu).mpr hi)
    exact ⟨u, nodes, hu, htree⟩
  · obtain ⟨hsettled, hseated, hwaits⟩ := hevaluable.nodes i u nodes hu htree n hn
    refine ⟨hsettled e he, hevaluable.grounded.eval_eq_none_iff (hsettled e he), ?_⟩
    rw [← placeless_iff he]
    exact ⟨hseated (ne_nil_of_mem he), hwaits⟩
  · obtain ⟨e, context, hkind⟩ := hevaluable.equations id x hx hequation
    exact ⟨e, context, hkind, hevaluable.grounded.settled id x e context hx hkind⟩

end Compilation

/-! ### A small program -/

/-- A program that divides by an equation, which is worth zero. -/
def ratedWords : Program :=
  .ofResources [.text "main" (".equ span, 0\n.equ rate, 60 / span\n" ++
    "nop\nhere: .word rate, $ - here\n")]

/-- The names evaluate: `rate` is faulty, through the division, and `$ - here` is not. -/
theorem checked_names_evaluate_rated :
    let q := (stage {} ratedWords {} 3).2.program
    ∃ scope, q.symbols.Settles 0 scope "rate" ∧
      Faulty q.symbols 0 scope (some 1) (.ident "rate") ∧
      ¬ Faulty q.symbols 0 scope (some 1) (.binary .sub .current (.ident "here")) := by
  intro q
  let late : Expr := .binary .sub .current (.ident "here")
  have hgo : (stage {} ratedWords {} 4).1 = false := by decide +kernel
  have hfound : (q.get? 0).any (fun u => u.tree.any fun nodes => nodes[4]?.any fun n =>
      n.statement == .words [.ident "rate", late] && n.address == some 1 &&
        q.symbols.eval (n.viewpoint 0) (.ident "rate") == none &&
        q.symbols.eval (n.viewpoint 0) late == some 0) = true := by
    decide +kernel
  simp only [Option.any_eq_true, Bool.and_eq_true, beq_iff_eq] at hfound
  obtain ⟨u, hu, nodes, htree, n, hn, ⟨⟨hs, haddress⟩, hrate⟩, hlate⟩ := hfound
  have hevaluates := (checked_names_evaluate {} {} (Program.wellFormed_ofResources _) hgo 3
    (by simp)).2.1 0 u nodes hu htree n (mem_of_getElem? hn)
  rw [hs, haddress] at hevaluates
  obtain ⟨hsettled, hfaulty, -⟩ := hevaluates (.ident "rate")
    (by simp [Statement.exprs, Statement.codeExprs])
  obtain ⟨-, hsound, -⟩ := hevaluates late (by simp [Statement.exprs, Statement.codeExprs])
  refine ⟨n.scope, hsettled "rate" (by simp [Expr.identifiers]), hfaulty.mp hrate, fun h => ?_⟩
  exact Option.some_ne_none _ (hlate.symm.trans (hsound.mpr h))

end WordAsm
