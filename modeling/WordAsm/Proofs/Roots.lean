/-
# Where symbols come from

Every label and every equation of a parsed program is declared by a node of a queued
unit: the label by a label, and the equation by an equation of the same expression,
which stands under the context of the symbol. A unit that is parsed again declares
nothing: its names would be taken. So the node that declared a symbol is still there
when all units are parsed.

Key definitions: `Node.Declares`, `Program.Rooted`.
Key theorems: `Table.symbol?_define_cases`, `Declares.roots`, `Program.Rooted.visit`,
`rooted_of_parse`.
-/
import WordAsm.Proofs.Names
import WordAsm.Proofs.Preparation

namespace WordAsm

open List

variable {x : Symbol} {s : Store} {id : SymbolId}

/-! ### Definitions -/

/-- **The symbols after a definition**: those from before, in stores of the same units,
and the new one, if it was accepted. -/
theorem Table.symbol?_define_cases {t : Table} {symbol : Symbol}
    (hs : s ∈ (t.define symbol).2.stores) (hx : s.symbol? id = some x) :
    (∃ r ∈ t.stores, r.unit = s.unit ∧ r.symbol? id = some x) ∨
      ((t.define symbol).1 = .ok id ∧ x = symbol ∧ s.unit = symbol.unit) := by
  obtain ⟨r, hr, hs⟩ := t.define_stores symbol hs
  -- a store with a symbol is not one that has just been made
  have hknown : r.symbol? id = some x → r ∈ t.stores := fun hrx =>
    hr.resolve_right fun hnew => ne_nil_of_mem (Store.mem_of_symbol? hrx) hnew.1
  rcases hs with rfl | ⟨hunit, i, hi, hdefine⟩
  · exact .inl ⟨s, hknown hx, rfl, hx⟩
  · obtain ⟨rfl, hbecomes⟩ := Store.eq_of_define hdefine
    obtain ⟨hstore, hslot⟩ := Store.symbol?_eq_some.mp hx
    rw [hbecomes.id] at hstore
    rw [hbecomes.symbols] at hslot
    by_cases hlt : id.slot < r.symbols.length
    · rw [getElem?_append_left hlt] at hslot
      have hrx : r.symbol? id = some x := Store.symbol?_eq_some.mpr ⟨hstore, hslot⟩
      exact .inl ⟨r, hknown hrx, hbecomes.unit.symm, hrx⟩
    · rw [getElem?_append_right (Nat.le_of_not_lt hlt), getElem?_singleton] at hslot
      split at hslot
      · have hlast : r.symbols.length = id.slot := by omega
        rw [hlast, Store.handle, ← hstore] at hi
        exact .inr ⟨hi, (Option.some.inj hslot).symm, hbecomes.unit.trans hunit⟩
      · cases hslot

/-! ### Nodes -/

/-- The node declares the symbol `x`, a label or an equation, under the handle `id`. -/
inductive Node.Declares (n : Node) (id : SymbolId) (x : Symbol) : Prop
  | label (hs : n.statement.isLabel = true) (hid : n.symbol = some id)
    (hkind : x.isLabel = true) : Node.Declares n id x
  | equation {e : Expr} (hs : n.statement = .equation x.name e) (hscope : x.scope = none)
    (hkind : x.kind = .equation (some e) n.scope) : Node.Declares n id x

theorem Declaring.declares_symbolOf {d : Declaring} {node : Node} (h : d.symbolOf node = some x)
    (id : SymbolId) :
    x.isMacro = true ∨ { node with scope := d.scope, symbol := some id }.Declares id x := by
  unfold Declaring.symbolOf at h
  split at h
  · rename_i hs
    have hlabel : node.statement.isLabel = true := by rw [hs]; rfl
    split at h
    · obtain ⟨scope, -, rfl⟩ := Option.map_eq_some_iff.mp h
      exact .inr (.label hlabel rfl rfl)
    · cases h
      exact .inr (.label hlabel rfl rfl)
  · rename_i hs
    cases h
    exact .inr (.equation hs rfl rfl)
  · cases h
    exact .inl rfl
  · cases h

section Nodes

variable {cfg : Settings} {tree : FileTree} {parent : Resource} {d d' : Declaring}
  {nodes nodes' : SyntaxTree}

theorem DeclareStep.roots {node node' : Node} (h : DeclareStep cfg tree parent d node node' d')
    (hs : s ∈ d'.symbols.stores) (hx : s.symbol? id = some x) :
    (∃ r ∈ d.symbols.stores, r.unit = s.unit ∧ r.symbol? id = some x) ∨
      (s.unit = d.unit ∧ x.unit = d.unit ∧ (x.isMacro = true ∨ node'.Declares id x)) := by
  cases h with
  | remarks | follows | idles => exact .inl ⟨s, hs, rfl, hx⟩
  | @refuses symbol _ symbols _ _ hdef =>
    have hs' : s ∈ (d.symbols.define symbol).2.stores := by rw [hdef]; exact hs
    rcases Table.symbol?_define_cases hs' hx with hold | ⟨hok, -⟩
    · exact .inl hold
    · rw [hdef] at hok
      cases hok
  | @defines symbol _ symbols hsym hdef =>
    have hs' : s ∈ (d.symbols.define symbol).2.stores := by rw [hdef]; exact hs
    rcases Table.symbol?_define_cases hs' hx with hold | ⟨hok, rfl, hunit⟩
    · exact .inl hold
    · rw [hdef] at hok
      cases hok
      have hsymbol := (Declaring.symbolOf_spec hsym).1
      exact .inr ⟨hunit.trans hsymbol, hsymbol, Declaring.declares_symbolOf hsym id⟩

/-- **The symbols of a unit** come from its nodes. -/
theorem Declares.roots (h : Declares cfg tree parent d nodes nodes' d')
    (hs : s ∈ d'.symbols.stores) (hx : s.symbol? id = some x) :
    (∃ r ∈ d.symbols.stores, r.unit = s.unit ∧ r.symbol? id = some x) ∨
      (s.unit = d.unit ∧ x.unit = d.unit ∧ (x.isMacro = true ∨ ∃ n ∈ nodes', n.Declares id x)) := by
  induction h with
  | nil => exact .inl ⟨s, hs, rfl, hx⟩
  | cons step _ ih =>
    rcases ih hs with ⟨r, hr, hunit, hrx⟩ | ⟨hunit, hxunit, hroot⟩
    · rcases step.roots hr hrx with ⟨q, hq, hqr, hqx⟩ | ⟨hrunit, hxunit, hroot⟩
      · exact .inl ⟨q, hq, hqr.trans hunit, hqx⟩
      · refine .inr ⟨hunit.symm.trans hrunit, hxunit, hroot.imp_right fun hn => ?_⟩
        exact ⟨_, mem_cons_self, hn⟩
    · rw [step.unit_eq] at hunit hxunit
      refine .inr ⟨hunit, hxunit, hroot.imp_right ?_⟩
      rintro ⟨n, hn, hdecl⟩
      exact ⟨n, mem_cons_of_mem _ hn, hdecl⟩

end Nodes

/-! ### Units -/

/-- The symbols of a parse that has come to position `k` come from the trees of the units
ahead, and only those units have trees. -/
structure Program.Rooted (k : ℕ) (p : Program) : Prop where
  symbols : p.symbols.Sound
  trees : ∀ i u, p.get? i = some u → u.tree.isSome → i ∈ p.order.take k
  roots : ∀ s ∈ p.symbols.stores, ∀ id x, s.symbol? id = some x → x.isMacro = true ∨
    (x.unit = s.unit ∧ ∃ u nodes n, p.get? s.unit = some u ∧ u.tree = some nodes ∧
      n ∈ nodes ∧ n.Declares id x)

section Units

variable {cfg : Settings} {tree : FileTree} {k : ℕ} {p : Program} {u : SourceUnit}

/-- A unit that is parsed again declares neither labels nor equations: their names are
taken. -/
theorem DeclaredUpTo.not_declares_of_again (h : DeclaredUpTo cfg tree k p)
    (hu : p.get? u.id = some u) (hagain : u.id ∈ p.order.take k) {markers : List Marker}
    {nodes' : SyntaxTree} {d : Declaring}
    (hd : Declares cfg tree u.resource { unit := u.id, program := p.mark u.id markers }
      (u.source cfg.switches tree) nodes' d)
    (he : d.hasErrors = false) {nodes : SyntaxTree} (htree : u.tree = some nodes) {n : Node}
    (hn : n ∈ nodes) (hs : s ∈ p.symbols.stores) (hx : s.symbol? id = some x) :
    ¬ n.Declares id x := by
  intro hdecl
  obtain ⟨nodes₁, htree₁, hsource⟩ := h.declared u.id hagain u hu
  obtain rfl : nodes₁ = nodes := Option.mem_unique htree₁ htree
  obtain ⟨m, hm, scope, symbol, included, rfl⟩ := forall₂_mem_right hsource hn
  cases hdecl with
  | label hlabel =>
    exact absurd (hlabel.symm.trans (h.noLabels_of_again hu hagain hd he m hm)) (by simp)
  | @equation e hequation hscope _ =>
    have hname : m.statement.globalName? = some x.name := by
      rw [show m.statement = .equation x.name e from hequation]
      rfl
    obtain ⟨hfree, -⟩ := hd.globalName (Program.get?_mark hu markers) he h.sound hm hname
    have htaken : (p.symbols.global? x.name).isSome := by
      refine Table.global?_isSome.mpr ⟨s, hs, Store.isSome_find?.mpr ?_⟩
      exact Store.mem_keys.mpr ⟨x, Store.mem_of_symbol? hx, rfl, hscope⟩
    rw [show p.symbols.global? x.name = none from hfree] at htaken
    cases htaken

/-- **The parse of one more unit.** -/
theorem Program.Rooted.visit (h : p.Rooted k) (hdeclared : DeclaredUpTo cfg tree k p)
    (hk : p.order[k]? = some u.id) (hu : p.get? u.id = some u) {c : Build}
    (hrun : parsePhase.run cfg u { program := p, tree } = (.ok (), c))
    (hc : c.hasErrors = false) : c.Rooted (k + 1) := by
  obtain ⟨markers, nodes, d, hd, he, hext, heq⟩ := parse_visit hu hrun hc
  have hg : p.Grows c.program :=
    heq ▸ hext.grows.trans (Program.grows_modifyUnit _ _ (SourceUnit.grows_withTree nodes))
  obtain ⟨-, htake⟩ := take_succ_of_grown hg.order hk
  obtain ⟨⟨v, hv, hvtree, -⟩, hothers⟩ := get?_parsed hu hext nodes
  rw [← heq] at hv hothers
  have hsymbols : c.symbols = d.symbols := by rw [heq]; rfl
  refine ⟨hsymbols ▸ (hd.sound h.symbols).1, fun i w hw hsome => ?_, fun s hs id x hx => ?_⟩
  · rw [htake]
    by_cases hi : i = u.id
    · rw [hi]
      exact mem_append_right _ (mem_singleton_self _)
    · refine mem_append_left _ ?_
      have hc : (parseUnit cfg u { program := p, tree }).2 = c := congrArg Prod.snd hrun
      rw [← hc] at hw
      rcases get?_parseUnit_other hi hw with hw | ⟨-, hw⟩
      · exact h.trees i w hw hsome
      · rw [hw] at hsome
        cases hsome
  · rw [hsymbols] at hs
    rcases hd.roots hs hx with ⟨r, hr, hunit, hrx⟩ | ⟨hunit, hxunit, hroot⟩
    · rcases h.roots r hr id x hrx with hmacro | ⟨hxunit, u', nodes', n, hu', htree', hn, hdecl⟩
      · exact .inl hmacro
      · refine .inr ⟨hxunit.trans hunit, ?_⟩
        rw [← hunit]
        by_cases hid : r.unit = u.id
        · -- the node would be lost, but then it declared nothing
          rw [hid, hu] at hu'
          obtain rfl := Option.some.inj hu'
          have hagain := h.trees u.id u hu (by rw [htree']; rfl)
          exact absurd hdecl
            (hdeclared.not_declares_of_again hu hagain hd he htree' hn hr hrx)
        · exact ⟨u', nodes', n, hothers _ u' hid hu', htree', hn, hdecl⟩
    · refine hroot.imp_right fun ⟨n, hn, hdecl⟩ => ⟨hxunit.trans hunit.symm, ?_⟩
      rw [show s.unit = u.id from hunit]
      exact ⟨v, nodes, n, hv, hvtree, hn, hdecl⟩

/-- **A parsed program** has symbols that come from the trees of its queued units. -/
theorem rooted_of_parse {q : Program} (h : Passes cfg tree parsePhase 0 p q) (hp : p.Blank)
    (htrees : p.Each (·.tree = none)) :
    ∃ n, q.order.length ≤ n ∧ DeclaredUpTo cfg tree n q ∧ q.Rooted n := by
  have hdeclared : DeclaredUpTo cfg tree 0 p := hp.declaredUpTo
  have hrooted : p.Rooted 0 := by
    refine ⟨Table.sound_of_nil hp.symbols, fun i v hv hsome => ?_, by simp [hp.symbols]⟩
    rw [htrees i v hv] at hsome
    cases hsome
  refine h.induct (parsePhase_quiet cfg).toSteady
    (I := fun k p => DeclaredUpTo cfg tree k p ∧ p.Rooted k) ⟨hdeclared, hrooted⟩ ?_
  rintro k p id u c hk hu - hrun hc - - ⟨hdeclared, hrooted⟩
  obtain rfl : u.id = id := hdeclared.wellFormed.numbered id u hu
  exact ⟨hdeclared.visit hk hu hrun hc, hrooted.visit hdeclared hk hu hrun hc⟩

end Units

end WordAsm
