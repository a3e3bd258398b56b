/-
# The parse of a program

Parsing a unit never breaks down: what cannot be read or declared is marked.
Where it leaves no errors behind, the tree of a unit is its source with scopes,
symbols and includes filled in, and every label of the program has a handle of
its own, even if units are parsed more than once (`DeclaredUpTo.visit`). A unit
whose labels were defined before is refused the second time, so only units
without labels can repeat.
-/
import WordAsm.Proofs.Declarations
import WordAsm.Proofs.Passes
import WordAsm.Proofs.Queue

namespace WordAsm

open List

variable {u : SourceUnit} {p q : Program} {b : Build} {nodes : SyntaxTree} {d : Declaring} {k : ℕ}

/-! ### Units that nothing has been built of -/

/-- The unit has no object code, and no phase has broken down on it. -/
structure SourceUnit.Unbuilt (u : SourceUnit) : Prop where
  code : u.code = none
  relocation : u.relocation = .empty
  markers : ∀ m ∈ u.markers, m.kind ≠ .genericError

def Program.Each (Q : SourceUnit → Prop) (p : Program) : Prop :=
  ∀ i u, p.get? i = some u → Q u

theorem Program.Each.modifyUnit {Q : SourceUnit → Prop} (h : p.Each Q) (id : UnitId)
    {f : SourceUnit → SourceUnit} (hf : ∀ u, p.get? id = some u → Q u → Q (f u)) :
    (p.modifyUnit id f).Each Q := by
  intro i u hu
  rcases Program.get?_modifyUnit_cases hu with ⟨rfl, v, hv, rfl⟩ | ⟨-, hu⟩
  · exact hf v hv (h _ v hv)
  · exact h i u hu

theorem Program.noErrors_iff : p.hasErrors = false ↔ p.Each fun u => u.hasErrors = false := by
  refine ⟨fun h i u hu => Program.noErrors_get? h hu, fun h => ?_⟩
  unfold Program.hasErrors Units.hasErrors
  rw [any_eq_false]
  intro u hu
  obtain ⟨i, hi⟩ := Units.mem_all_iff.mp hu
  simp [h i u hi]

/-- What holds of new units and does not depend on markers and dependencies
outlasts the work on one unit. -/
theorem Program.Each.extends {Q : SourceUnit → Prop} {i : UnitId} (h : p.Each Q)
    (hu : p.get? i = some u) (hext : p.Extends i q)
    (hself : ∀ (u : SourceUnit) added nextMarker dependencies, Q u →
      (∀ m ∈ added, m.kind ≠ .genericError) →
      Q { u with markers := u.markers ++ added, nextMarker, dependencies })
    (hfresh : ∀ id resource, Q { id, resource }) : q.Each Q := by
  intro k v hv
  by_cases hk : k = i
  · subst hk
    obtain ⟨added, next, deps, hq, hkind⟩ := hext.self u hu
    rw [hq] at hv
    cases hv
    exact hself u added next deps (h k u hu) hkind
  · cases hp : p.get? k with
    | some w =>
      rw [hext.others k w hk hp] at hv
      cases hv
      exact h k _ hp
    | none =>
      rw [hext.fresh k v hk hp hv]
      exact hfresh _ _

theorem SourceUnit.Unbuilt.withMarkers (h : u.Unbuilt) {added : List Marker}
    (hadded : ∀ m ∈ added, m.kind ≠ .genericError) (nextMarker : ℕ) (dependencies : List UnitId) :
    ({ u with markers := u.markers ++ added, nextMarker, dependencies } : SourceUnit).Unbuilt := by
  refine ⟨h.code, h.relocation, fun m hm => ?_⟩
  rcases mem_append.mp hm with hm | hm
  · exact h.markers m hm
  · exact hadded m hm

theorem unbuilt_extends {i : UnitId} (h : p.Each SourceUnit.Unbuilt) (hu : p.get? i = some u)
    (hext : p.Extends i q) : q.Each SourceUnit.Unbuilt :=
  h.extends hu hext (fun _ _ _ _ hu hadded => hu.withMarkers hadded _ _)
    fun _ _ => ⟨rfl, rfl, fun m hm => absurd hm (by simp)⟩

/-! ### One unit -/

section Unit

variable {text : String} {cfg : Settings} {u : SourceUnit}

theorem parseUnit_unreadable (cfg : Settings) {e : Error}
    (h : u.resource.readText b.tree = .error e) :
    (parseUnit cfg u b).1 = .ok () ∧ (parseUnit cfg u b).2.tree = b.tree ∧
      (parseUnit cfg u b).2.program = b.program.mark u.id [.error e.message] := by
  unfold parseUnit
  simp only [h]
  exact ⟨trivial, rfl, rfl⟩

theorem parseUnit_eq (cfg : Settings) (h : u.resource.readText b.tree = .ok text) :
    parseUnit cfg u b = declareUnit cfg u (parseSource cfg.switches text) b := by
  unfold parseUnit
  rw [h]

theorem parseUnit_readable (h : u.resource.readText b.tree = .ok text)
    (hd : declareNodes cfg b.tree u.resource (parseSource cfg.switches text).1
      { unit := u.id, program := b.program.mark u.id (parseSource cfg.switches text).2 } =
        (.ok nodes, d)) :
    (parseUnit cfg u b).1 = .ok () ∧ (parseUnit cfg u b).2.tree = b.tree ∧
      (parseUnit cfg u b).2.program =
        d.program.modifyUnit u.id fun v => { v with tree := some nodes } := by
  rw [parseUnit_eq cfg h]
  unfold declareUnit
  simp only [Build.program_mark, Build.program_say, Build.tree_mark, Build.tree_say, hd]
  exact ⟨trivial, rfl, rfl⟩

theorem declares_source (cfg : Settings) (u : SourceUnit) (b : Build) (text : String) :
    let start := b.program.mark u.id (parseSource cfg.switches text).2
    ∃ nodes d, declareNodes cfg b.tree u.resource (parseSource cfg.switches text).1
        { unit := u.id, program := start } = (.ok nodes, d) ∧
      Declares cfg b.tree u.resource { unit := u.id, program := start }
        (parseSource cfg.switches text).1 nodes d :=
  declares_declareNodes ..

/-- **What parsing a unit does.** It reads the source and declares its nodes, or
marks the unit. -/
theorem parseUnit_cases (cfg : Settings) (u : SourceUnit) (b : Build) :
    (parseUnit cfg u b).1 = .ok () ∧ (parseUnit cfg u b).2.tree = b.tree ∧
    ((∃ e, u.resource.readText b.tree = .error e ∧
        (parseUnit cfg u b).2.program = b.program.mark u.id [.error e.message]) ∨
      ∃ text nodes d, u.resource.readText b.tree = .ok text ∧ Declares cfg b.tree u.resource
          { unit := u.id, program := b.program.mark u.id (parseSource cfg.switches text).2 }
          (parseSource cfg.switches text).1 nodes d ∧
        (parseUnit cfg u b).2.program =
          d.program.modifyUnit u.id fun v => { v with tree := some nodes }) := by
  cases htext : u.resource.readText b.tree with
  | error e =>
    obtain ⟨hok, htree, hprogram⟩ := parseUnit_unreadable cfg htext
    exact ⟨hok, htree, .inl ⟨e, rfl, hprogram⟩⟩
  | ok text =>
    obtain ⟨nodes, d, heq, hd⟩ := declares_source cfg u b text
    obtain ⟨hok, htree, hprogram⟩ := parseUnit_readable htext heq
    exact ⟨hok, htree, .inr ⟨text, nodes, d, rfl, hd, hprogram⟩⟩

/-- **What a parse keeps**: what markers for the unit, its tree, and the symbols and includes of
its source keep. -/
theorem parseUnit_keeps {I : Program → Prop}
    (hmark : ∀ p, ∀ ms : List Marker, (∀ m ∈ ms, m.kind ≠ .genericError ∧ m.node = none) → I p →
      I (p.mark u.id ms))
    (hdefine : ∀ p (d : Declaring), ∀ n ∈ u.source cfg.switches b.tree, ∀ symbol,
      d.unit = u.id → d.symbolOf n = some symbol → I p →
      I { p with symbols := (p.symbols.define symbol).2 })
    (hfollow : ∀ p, ∀ n ∈ u.source cfg.switches b.tree, ∀ path r,
      n.statement = .includes path →
      cfg.resolver.resolve b.tree path (some u.resource) = .ok r → I p →
      I (p.including b.tree u.id r))
    (htree : ∀ p nodes, I p → I (p.modifyUnit u.id fun v => { v with tree := some nodes }))
    (h : I b.program) : I (parseUnit cfg u b).2.program := by
  obtain ⟨-, -, ⟨e, -, heq⟩ | ⟨text, nodes, d, htext, hd, heq⟩⟩ := parseUnit_cases cfg u b <;>
    rw [heq]
  · exact hmark _ _ (forall_mem_singleton.mpr ⟨nofun, rfl⟩) h
  · rw [SourceUnit.source_eq htext] at hdefine hfollow
    exact htree _ _ (hd.keeps hmark hdefine hfollow (hmark _ _ (parseSource_markers _ _) h))

theorem parseUnit_symbols_keep {I : Table → Prop}
    (hdefine : ∀ t (d : Declaring), ∀ n ∈ u.source cfg.switches b.tree, ∀ symbol,
      d.unit = u.id → d.symbolOf n = some symbol → I t → I (t.define symbol).2)
    (h : I b.symbols) : I (parseUnit cfg u b).2.symbols :=
  parseUnit_keeps (I := fun p => I p.symbols) (fun _ _ _ hp => hp) (fun p => hdefine p.symbols)
    (fun _ _ _ _ _ _ _ hp => hp) (fun _ _ hp => hp) h

theorem parseUnit_extends (cfg : Settings) (u : SourceUnit) (b : Build) :
    ∃ p, b.program.Extends u.id p ∧ ((parseUnit cfg u b).2.program = p ∨
      ∃ nodes, (parseUnit cfg u b).2.program =
        p.modifyUnit u.id fun v => { v with tree := some nodes }) := by
  obtain ⟨-, -, ⟨e, -, heq⟩ | ⟨text, nodes, d, -, hd, heq⟩⟩ := parseUnit_cases cfg u b
  · refine ⟨_, Program.extends_mark _ _ fun m hm => ?_, .inl heq⟩
    rw [mem_singleton.mp hm]
    exact fun hk => by cases hk
  · exact ⟨_, (Program.extends_mark _ _ fun m hm => (parseSource_markers _ _ m hm).1).trans hd.extends,
      .inr ⟨nodes, heq⟩⟩

theorem get?_parseUnit_other {i : UnitId} {w : SourceUnit} (hi : i ≠ u.id)
    (hw : (parseUnit cfg u b).2.units.get? i = some w) :
    b.get? i = some w ∨
      b.get? i = none ∧ w = { id := i, resource := w.resource } := by
  obtain ⟨q, hext, hq⟩ := parseUnit_extends cfg u b
  have hget : q.get? i = some w := by
    rcases hq with hq | ⟨nodes, hq⟩
    · exact hq ▸ hw
    · rw [hq] at hw
      exact (Units.get?_modify_of_ne _ _ (Ne.symm hi)).symm.trans hw
  cases hold : b.get? i with
  | none => exact .inr ⟨rfl, hext.fresh i w hi hold hget⟩
  | some v => exact .inl ((hext.others i v hi hold).symm.trans hget)

theorem SourceUnit.grows_withTree (nodes : SyntaxTree) (u : SourceUnit) :
    u.Grows { u with tree := some nodes } :=
  ⟨rfl, rfl, prefix_refl _⟩

theorem poisoned_parseUnit (cfg : Settings) (u : SourceUnit) (b : Build) :
    (parseUnit cfg u b).2.poisoned = b.poisoned := by
  unfold parseUnit
  split
  · rfl
  · unfold declareUnit
    simp only
    split <;> rfl

theorem parsePhase_quiet (cfg : Settings) : parsePhase.Quiet cfg where
  accepts _ := rfl
  grows u b := by
    obtain ⟨p, hext, heq | ⟨nodes, heq⟩⟩ := parseUnit_extends cfg u b
    · exact heq ▸ hext.grows
    · exact heq ▸ hext.grows.trans (Program.grows_modifyUnit _ _ (SourceUnit.grows_withTree nodes))
  tree u b := (parseUnit_cases cfg u b).2.1
  outcome u b := (parseUnit_cases cfg u b).1.trans
    (parseUnit_cases cfg u { program := b.program, tree := b.tree }).1.symm
  program u b := by
    show (parseUnit cfg u b).2.program = (parseUnit cfg u _).2.program
    cases htext : u.resource.readText b.tree with
    | error e =>
      rw [(parseUnit_unreadable cfg htext).2.2,
        (parseUnit_unreadable cfg (b := { program := b.program, tree := b.tree }) htext).2.2]
    | ok text =>
      obtain ⟨nodes, d, heq, -⟩ := declares_source cfg u b text
      rw [(parseUnit_readable htext heq).2.2,
        (parseUnit_readable (b := { program := b.program, tree := b.tree }) htext heq).2.2]

theorem runUnit_parse (cfg : Settings) (u : SourceUnit) (b : Build) :
    runUnit cfg parsePhase u b = (parseUnit cfg u b).2 := by
  have hok : parsePhase.run cfg u b = (.ok (), (parseUnit cfg u b).2) :=
    Prod.ext (parseUnit_cases cfg u b).1 rfl
  exact runUnit_of_ok hok

/-! ### The queue -/

theorem load_including {tree : FileTree} {path : String} {parent : Option Resource}
    {resource : Resource} (hw : p.WellFormed)
    (h : cfg.resolver.resolve tree path parent = .ok resource) (i : UnitId) :
    (p.including tree i resource).load (cfg.resolver.targets tree) ≤
      p.load (cfg.resolver.targets tree) := by
  refine Nat.le_trans (Nat.le_of_eq ?_) (Units.load_findOrAdd hw h)
  exact Units.load_modify _ _ i fun _ => rfl

theorem load_mark (p : Program) (i : UnitId) (ms : List Marker) (targets : List (Resource → Bool)) :
    (p.mark i ms).load targets = p.load targets :=
  Units.load_modify _ _ _ fun u => (SourceUnit.grows_markAll u ms).resource

theorem load_parseUnit (hw : b.WellFormed) :
    (parseUnit cfg u b).2.units.load (cfg.resolver.targets b.tree) ≤
      b.load (cfg.resolver.targets b.tree) := by
  refine (parseUnit_keeps (I := fun p => p.WellFormed ∧
    p.load (cfg.resolver.targets b.tree) ≤
      b.load (cfg.resolver.targets b.tree)) ?_ (fun _ _ _ _ _ _ _ hp => hp) ?_ ?_
    ⟨hw, Nat.le_refl _⟩).2
  · exact fun p ms _ hp =>
      ⟨(Program.grows_mark ..).wellFormed hp.1, Nat.le_trans (Nat.le_of_eq (load_mark ..)) hp.2⟩
  · exact fun p _ _ _ _ _ hresolve hp => ⟨(Program.extends_including ..).grows.wellFormed hp.1,
      Nat.le_trans (load_including hp.1 hresolve _) hp.2⟩
  · exact fun p nodes hp =>
      ⟨(Program.grows_modifyUnit _ _ (SourceUnit.grows_withTree nodes)).wellFormed hp.1,
        Nat.le_trans (Nat.le_of_eq (Units.load_modify _ _ _ fun _ => rfl)) hp.2⟩

end Unit

/-! ### Parses without errors -/

section Clean

variable {c : Build} {α : Type} {markers : List Marker} {cfg : Settings} {tree : FileTree}
  {u : SourceUnit}

/-- The tree of a unit is its source, with what it declares put on record. -/
def SourceUnit.Declared (switches : Switches) (tree : FileTree) (u : SourceUnit) : Prop :=
  ∃ nodes, u.tree = some nodes ∧
    List.Forall₂ Node.DeclaredAs (u.source switches tree) nodes

def SourceUnit.labels (u : SourceUnit) : List SymbolId := labelIds (u.tree.getD [])

def Units.labels (us : Units) (ids : List UnitId) : List SymbolId :=
  ids.flatMap fun id => ((us.get? id).map SourceUnit.labels).getD []

theorem Units.labels_congr {us vs : Units} {ids : List UnitId}
    (h : ∀ id ∈ ids, (vs.get? id).map SourceUnit.labels = (us.get? id).map SourceUnit.labels) :
    vs.labels ids = us.labels ids := by
  exact flatMap_congr fun id hid => by rw [h id hid]

theorem labelIds_declaredAs {nodes' : SyntaxTree} (h : Forall₂ Node.DeclaredAs nodes nodes')
    (hnone : ∀ n ∈ nodes, n.statement.isLabel = false) : labelIds nodes' = [] := by
  induction h with
  | nil => rfl
  | @cons n n' _ _ hn _ ih =>
    obtain ⟨scope, symbol, included, rfl⟩ := hn
    rw [labelIds_cons, ih fun m hm => hnone m (mem_cons_of_mem _ hm)]
    simp [labelIds, Node.labelId?, hnone n mem_cons_self]

theorem parse_visit (hu : p.get? u.id = some u)
    (hrun : parsePhase.run cfg u { program := p, tree } = (.ok (), c))
    (hc : c.hasErrors = false) :
    ∃ markers nodes d, Declares cfg tree u.resource
        { unit := u.id, program := p.mark u.id markers } (u.source cfg.switches tree) nodes d ∧
      d.hasErrors = false ∧ p.Extends u.id d.program ∧
      c.program = d.program.modifyUnit u.id fun v => { v with tree := some nodes } := by
  have hrun' : parseUnit cfg u { program := p, tree } = (.ok (), c) := hrun
  obtain ⟨-, -, ⟨e, -, heq⟩ | ⟨text, nodes, d, htext, hd, heq⟩⟩ :=
    parseUnit_cases cfg u { program := p, tree }
  · rw [hrun'] at heq
    have hm := Program.hasErrors_mark hu (m := .error e.message) rfl
    exact absurd (hc.symm.trans ((congrArg Program.hasErrors heq).trans hm)) (by simp)
  · rw [hrun'] at heq
    have hg := Program.grows_modifyUnit d.program u.id (SourceUnit.grows_withTree nodes)
    exact ⟨_, nodes, d, SourceUnit.source_eq htext ▸ hd, hg.noErrors (heq ▸ hc),
      (Program.extends_mark _ _ fun m hm => (parseSource_markers _ _ m hm).1).trans hd.extends, heq⟩

/-- The units of a parse that has come to position `k` without errors. -/
structure DeclaredUpTo (cfg : Settings) (tree : FileTree) (k : ℕ) (p : Program) : Prop where
  wellFormed : p.WellFormed
  unbuilt : p.Each SourceUnit.Unbuilt
  sound : p.symbols.Sound
  unassigned : p.symbols.All (·.address? = none)
  declared : ∀ id ∈ p.order.take k, ∀ u, p.get? id = some u →
    u.Declared cfg.switches tree
  /-- Labels have handles of their own. -/
  nodup : (p.units.labels (p.order.take k)).Nodup
  known : ∀ i ∈ p.units.labels (p.order.take k), i ∈ p.symbols.handles
  /-- The names of global labels are taken. -/
  taken : ∀ id ∈ p.order.take k, ∀ u, p.get? id = some u →
    ∀ n ∈ u.source cfg.switches tree, ∀ name, n.statement = .label name →
      isLocalName name = false → (p.symbols.global? name).isSome

theorem take_succ_of_grown {l l' : List α} (h : l <+: l') {a : α} (hk : l[k]? = some a) :
    l'.take k = l.take k ∧ l'.take (k + 1) = l.take k ++ [a] := by
  obtain ⟨t, rfl⟩ := h
  have hlt := (List.getElem?_eq_some_iff.mp hk).1
  rw [take_append_of_le_length (Nat.le_of_lt hlt), take_append_of_le_length hlt, take_add_one, hk]
  exact ⟨rfl, rfl⟩

theorem mem_take_of_grown {l l' : List α} (h : l <+: l') {a b : α} (hk : l[k]? = some a)
    (hb : b ∈ l'.take (k + 1)) (hne : b ≠ a) : b ∈ l.take k := by
  rw [(take_succ_of_grown h hk).2] at hb
  rcases mem_append.mp hb with hb | hb
  · exact hb
  · exact absurd (mem_singleton.mp hb) hne

theorem mem_take_of_mem_take_succ {l : List α} {a b : α} (hk : l[k]? = some a)
    (hb : b ∈ l.take (k + 1)) (hne : b ≠ a) : b ∈ l.take k :=
  mem_take_of_grown (prefix_refl l) hk hb hne

theorem get?_parsed (hu : p.get? u.id = some u) (hext : p.Extends u.id q)
    (nodes : SyntaxTree) :
    (∃ v, (q.modifyUnit u.id fun v => { v with tree := some nodes }).get? u.id = some v ∧
        v.tree = some nodes ∧ v.resource = u.resource) ∧
      ∀ k v, k ≠ u.id → p.get? k = some v →
        (q.modifyUnit u.id fun v => { v with tree := some nodes }).get? k = some v := by
  constructor
  · obtain ⟨added, next, deps, hq, -⟩ := hext.self u hu
    exact ⟨_, (Units.get?_modify_self ..).trans (congrArg _ hq), rfl, rfl⟩
  · intro k v hk hv
    exact (Units.get?_modify_of_ne _ _ (Ne.symm hk)).trans (hext.others k v hk hv)

theorem DeclaredUpTo.noLabels_of_again (h : DeclaredUpTo cfg tree k p)
    (hu : p.get? u.id = some u) (hagain : u.id ∈ p.order.take k)
    (hd : Declares cfg tree u.resource { unit := u.id, program := p.mark u.id markers }
      (u.source cfg.switches tree) nodes d)
    (he : d.hasErrors = false) :
    ∀ n ∈ u.source cfg.switches tree, n.statement.isLabel = false := by
  intro n hn
  rw [Bool.eq_false_iff]
  intro hlabel
  have hu' := Program.get?_mark hu markers
  obtain ⟨m, hm, name, hname, hglobal⟩ := hd.exists_globalLabel hu' he rfl hn hlabel
  obtain ⟨hfree, -⟩ := hd.globalName hu' he h.sound hm (Statement.globalName?_label hname hglobal)
  have htaken := h.taken u.id hagain u hu m hm name hname hglobal
  rw [show p.symbols.global? name = none from hfree] at htaken
  cases htaken

theorem DeclaredUpTo.labels_parsed (h : DeclaredUpTo cfg tree k p) {v : SourceUnit}
    (hu : p.get? u.id = some u)
    (hd : Declares cfg tree u.resource { unit := u.id, program := p.mark u.id markers }
      (u.source cfg.switches tree) nodes d)
    (he : d.hasErrors = false) (hv : q.get? u.id = some v)
    (hvtree : v.tree = some nodes)
    (hothers : ∀ i w, i ≠ u.id → p.get? i = some w → q.get? i = some w) :
    q.units.labels (p.order.take k) = p.units.labels (p.order.take k) := by
  refine Units.labels_congr fun i hi => ?_
  obtain ⟨w, hw, -⟩ := h.wellFormed.exists_get? (mem_of_mem_take hi)
  by_cases hid : i = u.id
  · subst hid
    obtain ⟨old, hold, hdecl⟩ := h.declared u.id hi u hu
    have hnone := h.noLabels_of_again hu hi hd he
    rw [hv, hu]
    simp only [Option.map_some, SourceUnit.labels, hvtree, hold, Option.getD_some]
    rw [labelIds_declaredAs hd.nodes_eq hnone, labelIds_declaredAs hdecl hnone]
  · rw [hothers i w hid hw, hw]

/-- **The parse of one more unit.** -/
theorem DeclaredUpTo.visit (h : DeclaredUpTo cfg tree k p) {id : UnitId}
    (hk : p.order[k]? = some id) (hu : p.get? id = some u)
    (hrun : parsePhase.run cfg u { program := p, tree } = (.ok (), c))
    (hc : c.hasErrors = false) : DeclaredUpTo cfg tree (k + 1) c.program := by
  obtain rfl : u.id = id := h.wellFormed.numbered id u hu
  obtain ⟨markers, nodes, d, hd, he, hext, heq⟩ := parse_visit hu hrun hc
  have hg : p.Grows c.program :=
    heq ▸ hext.grows.trans (Program.grows_modifyUnit _ _ (SourceUnit.grows_withTree nodes))
  obtain ⟨⟨v, hv, hvtree, hvres⟩, hothers⟩ := get?_parsed hu hext nodes
  rw [← heq] at hv hothers
  have hsymbols : c.symbols = d.symbols := by rw [heq]; rfl
  have hu' := Program.get?_mark hu markers
  obtain ⟨hsound, hhandles, hglobals⟩ := hd.sound h.sound
  obtain ⟨hnodup, hfresh⟩ := hd.labels hu' he h.sound
  have hsource : v.source cfg.switches tree = u.source cfg.switches tree :=
    SourceUnit.source_congr hvres _ _
  -- the unit at hand is `v`, and one that was parsed before is as it was
  have hcases : ∀ i ∈ c.order.take (k + 1), ∀ w, c.get? i = some w →
      (i = u.id ∧ w = v) ∨ (i ∈ p.order.take k ∧ p.get? i = some w) := by
    intro i hi w hw
    by_cases hid : i = u.id
    · rw [hid, hv] at hw
      exact .inl ⟨hid, (Option.some.inj hw).symm⟩
    · have hmem := mem_take_of_grown hg.order hk hi hid
      obtain ⟨w', hw'⟩ := Option.isSome_iff_exists.mp
        (h.wellFormed.queued i (mem_of_mem_take hmem))
      rw [hothers i w' hid hw'] at hw
      cases hw
      exact .inr ⟨hmem, hw'⟩
  have hlabels := h.labels_parsed hu hd he hv hvtree hothers
  have hall : c.units.labels (c.order.take (k + 1)) =
      p.units.labels (p.order.take k) ++ labelIds nodes := by
    rw [(take_succ_of_grown hg.order hk).2, ← hlabels]
    unfold Units.labels
    rw [flatMap_append, flatMap_singleton, hv]
    simp [SourceUnit.labels, hvtree]
  refine ⟨hg.wellFormed h.wellFormed, ?_, hsymbols ▸ hsound, ?_, ?_, ?_, ?_, ?_⟩
  · rw [heq]
    exact (unbuilt_extends h.unbuilt hu hext).modifyUnit _
      fun w _ hw => ⟨hw.code, hw.relocation, hw.markers⟩
  · rw [hsymbols]
    exact hd.all (fun _ _ hnone => hnone) h.unassigned
  · intro i hi w hw
    rcases hcases i hi w hw with ⟨-, rfl⟩ | ⟨hmem, hw'⟩
    · exact ⟨nodes, hvtree, hsource ▸ hd.nodes_eq⟩
    · exact h.declared i hmem w hw'
  · rw [hall]
    refine nodup_append.mpr ⟨h.nodup, hnodup, fun a ha b hb hab => ?_⟩
    exact (hfresh b hb).1 (hab ▸ h.known a ha)
  · rw [hall, hsymbols]
    intro i hi
    rcases mem_append.mp hi with hi | hi
    · exact hhandles (h.known i hi)
    · exact (hfresh i hi).2
  · rw [hsymbols]
    intro i hi w hw n hn name hname hlocal
    rcases hcases i hi w hw with ⟨-, rfl⟩ | ⟨hmem, hw'⟩
    · exact (hd.globalName hu' he h.sound (hsource ▸ hn)
        (Statement.globalName?_label hname hlocal)).2
    · exact hglobals name (h.taken i hmem w hw' n hn name hname hlocal)

end Clean

end WordAsm
