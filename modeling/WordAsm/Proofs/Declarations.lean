/-
# Declaring a unit

`DeclareStep` says what declaring one node can do: remark on it, define its
symbol, have its symbol refused, queue an included unit, or nothing. There is no
sixth case: a refused symbol is always the source's fault, so declaring never
breaks down (`declares_declareNodes`).
-/
import WordAsm.Proofs.Definitions
import WordAsm.Proofs.Growth
import WordAsm.Proofs.Layout
import WordAsm.Proofs.Sources

namespace WordAsm

open List

variable {symbol : Symbol} {node node' : Node} {name : String}

/-! ### One node -/

/-- The symbol that a node declares, if any. A local label needs a scope. -/
def Declaring.symbolOf (d : Declaring) (node : Node) : Option Symbol :=
  match node.statement with
  | .label name =>
    if isLocalName name then
      d.scope.map fun scope =>
        { Symbol.label name d.unit node.location with scope := some scope }
    else some (.label name d.unit node.location)
  | .equation name e => some (.equation name d.unit node.location e d.scope)
  | .macroDef name _ => some (.macroDef name d.unit node.location node.id)
  | _ => none

def Declaring.withSymbols (d : Declaring) (symbols : Table) : Declaring :=
  { d with symbols }

/-- What declaring a node can do. -/
inductive DeclareStep (cfg : Settings) (tree : FileTree) (parent : Resource) (d : Declaring)
    (node : Node) : Node → Declaring → Prop
  /-- The node, which has no symbol, is remarked upon; a label only if it is faulty. -/
  | remarks {m : Marker} (hkind : m.kind ≠ .genericError)
    (hlabel : node.statement.isLabel = true → m.isError = true) (hsym : d.symbolOf node = none)
    (hnode : m.node = none) :
    DeclareStep cfg tree parent d node { node with scope := d.scope } (d.mark node m)
  /-- The symbol of the node is accepted. -/
  | defines {symbol : Symbol} {id : SymbolId} {symbols : Table}
    (hsym : d.symbolOf node = some symbol)
    (hdef : d.symbols.define symbol = (.ok id, symbols)) :
    DeclareStep cfg tree parent d node { node with scope := d.scope, symbol := some id }
      { d.withSymbols symbols with
        scope := if symbol.isGlobal && symbol.isLabel then some id else d.scope }
  /-- The symbol of the node is refused. -/
  | refuses {symbol : Symbol} {e : Error} {symbols : Table} {message : String}
    (hsym : d.symbolOf node = some symbol)
    (hdef : d.symbols.define symbol = (.error e, symbols)) :
    DeclareStep cfg tree parent d node { node with scope := d.scope }
      ((d.withSymbols symbols).mark node (.error message))
  /-- The node includes another source. -/
  | follows {path : String} {resource : Resource} {log : List LogLine}
    (hs : node.statement = .includes path)
    (hresolve : cfg.resolver.resolve tree path (some parent) = .ok resource) :
    DeclareStep cfg tree parent d node
      { node with scope := d.scope, included := some (d.findOrAdd tree resource).1 }
      { d with program := d.including tree d.unit resource, log }
  /-- The node declares nothing. -/
  | idles (hlabel : node.statement.isLabel = false) (hsym : d.symbolOf node = none) :
    DeclareStep cfg tree parent d node { node with scope := d.scope } d

section Nodes

variable {path : String} {cfg : Settings} {tree : FileTree} {parent : Resource}
  {d d' : Declaring} {nodes nodes' : SyntaxTree}

theorem refusal_of_define (p : Program) {t symbols : Table} {e : Error}
    (h : t.define symbol = (.error e, symbols)) : ∃ message, refusal? p e = some message := by
  have he : e = .duplicateSymbol symbol.name ∨ e = .invalidScope symbol.name := by
    rcases t.define_cases symbol with ⟨e', he', heq | heq⟩ | ⟨-, s, -, heq⟩
    · rw [h] at heq
      cases heq
      exact he'
    · rw [h] at heq
      cases heq
      exact he'
    · rw [h] at heq
      cases heq
  rcases he with rfl | rfl
  · unfold refusal?
    simp only
    split <;> exact ⟨_, rfl⟩
  · exact ⟨_, rfl⟩

theorem declareStep_define (d : Declaring) (hsym : d.symbolOf node = some symbol) :
    ∃ node' d', d.define { node with scope := d.scope } symbol = (.ok node', d') ∧
      DeclareStep cfg tree parent d node node' d' := by
  unfold Declaring.define
  rcases hdef : d.symbols.define symbol with ⟨outcome, symbols⟩
  cases outcome with
  | ok id => exact ⟨_, _, rfl, .defines hsym hdef⟩
  | error e =>
    obtain ⟨message, hm⟩ := refusal_of_define { d.program with symbols } hdef
    simp only [hm]
    exact ⟨_, _, rfl, .refuses hsym hdef⟩

theorem declareStep_follow (d : Declaring) (hs : node.statement = .includes path) :
    DeclareStep cfg tree parent d node
      (d.follow cfg tree parent { node with scope := d.scope } path).1
      (d.follow cfg tree parent { node with scope := d.scope } path).2 := by
  have hlabel : ∀ m : Marker, node.statement.isLabel = true → m.isError = true := by
    intro m h
    rw [hs] at h
    cases h
  have hsym : d.symbolOf node = none := by rw [Declaring.symbolOf, hs]
  unfold Declaring.follow
  split
  · exact .remarks (by simp [Marker.warning]) (hlabel _) hsym rfl
  · split
    · exact .remarks (by simp [Marker.error]) (hlabel _) hsym rfl
    · split
      · exact .remarks (by simp [Marker.error]) (hlabel _) hsym rfl
      · exact .follows hs ‹_›

theorem declareNode_of_symbol (hsym : d.symbolOf node = some symbol) :
    declareNode cfg tree parent d node = d.define { node with scope := d.scope } symbol := by
  unfold Declaring.symbolOf at hsym
  unfold declareNode
  cases hs : node.statement with
  | label name =>
    simp only [hs] at hsym ⊢
    by_cases hlocal : isLocalName name = true
    · rw [if_pos hlocal] at hsym ⊢
      cases hscope : d.scope with
      | none =>
        rw [hscope] at hsym
        cases hsym
      | some scope =>
        rw [hscope, Option.map_some, Option.some.injEq] at hsym
        rw [← hsym]
    · rw [if_neg hlocal, Option.some.injEq] at hsym
      rw [if_neg hlocal, ← hsym]
  | equation | macroDef =>
    simp only [hs, Option.some.injEq] at hsym ⊢
    rw [← hsym]
  | _ =>
    simp only [hs] at hsym
    cases hsym

theorem declareNode_of_stray (hs : node.statement = .label name) (hsym : d.symbolOf node = none) :
    declareNode cfg tree parent d node = (.ok { node with scope := d.scope },
      d.mark node (.error s!"Local label `{name}` has no enclosing global label")) := by
  unfold Declaring.symbolOf at hsym
  unfold declareNode
  simp only [hs] at hsym ⊢
  split at hsym
  · rename_i hlocal
    rw [Option.map_eq_none_iff] at hsym
    rw [if_pos hlocal, hsym]
    rfl
  · cases hsym

theorem declareNode_of_include (hs : node.statement = .includes path) :
    declareNode cfg tree parent d node =
      (.ok (d.follow cfg tree parent { node with scope := d.scope } path).1,
        (d.follow cfg tree parent { node with scope := d.scope } path).2) := by
  unfold declareNode
  simp only [hs]

theorem declareNode_of_other (hsym : d.symbolOf node = none)
    (hlabel : ∀ name, node.statement ≠ .label name)
    (hpath : ∀ path, node.statement ≠ .includes path) :
    declareNode cfg tree parent d node = (.ok { node with scope := d.scope }, d) := by
  unfold Declaring.symbolOf at hsym
  unfold declareNode
  cases hs : node.statement with
  | label name => exact absurd hs (hlabel name)
  | includes path => exact absurd hs (hpath path)
  | equation | macroDef =>
    simp only [hs] at hsym
    cases hsym
  | _ => rfl

/-- **Declaring a node takes one of these steps, and never breaks down.** -/
theorem declareNode_step (cfg : Settings) (tree : FileTree) (parent : Resource)
    (d : Declaring) (node : Node) :
    ∃ node' d', declareNode cfg tree parent d node = (.ok node', d') ∧
      DeclareStep cfg tree parent d node node' d' := by
  cases hsym : d.symbolOf node with
  | some symbol =>
    rw [declareNode_of_symbol hsym]
    exact declareStep_define d hsym
  | none =>
    by_cases hlabel : ∃ name, node.statement = .label name
    · obtain ⟨name, hs⟩ := hlabel
      exact ⟨_, _, declareNode_of_stray hs hsym,
        .remarks (by simp [Marker.error]) (fun _ => rfl) hsym rfl⟩
    · by_cases hpath : ∃ path, node.statement = .includes path
      · obtain ⟨path, hs⟩ := hpath
        exact ⟨_, _, declareNode_of_include hs, declareStep_follow d hs⟩
      · refine ⟨_, _, declareNode_of_other hsym (fun name h => hlabel ⟨name, h⟩)
          fun path h => hpath ⟨path, h⟩, .idles ?_ hsym⟩
        cases hs : node.statement with
        | label name => exact absurd ⟨name, hs⟩ hlabel
        | _ => rfl

/-! ### What a step changes -/

def Node.DeclaredAs (n n' : Node) : Prop :=
  ∃ scope symbol included, n' = { n with scope, symbol, included }

theorem Declaring.symbolOf_spec (h : d.symbolOf node = some symbol) :
    symbol.unit = d.unit ∧ symbol.address? = none := by
  unfold Declaring.symbolOf at h
  split at h
  · split at h
    · obtain ⟨scope, -, rfl⟩ := Option.map_eq_some_iff.mp h
      exact ⟨rfl, rfl⟩
    · cases h
      exact ⟨rfl, rfl⟩
  · cases h
    exact ⟨rfl, rfl⟩
  · cases h
    exact ⟨rfl, rfl⟩
  · cases h

def Statement.globalName? : Statement → Option String
  | .label name => if isLocalName name then none else some name
  | .equation name _ => some name
  | .macroDef name _ => some name
  | _ => none

theorem Statement.globalName?_label {s : Statement} (hs : s = .label name)
    (hname : isLocalName name = false) : s.globalName? = some name := by
  simp [hs, Statement.globalName?, hname]

theorem Declaring.symbolOf_global (d : Declaring) (h : node.statement.globalName? = some name) :
    ∃ symbol, d.symbolOf node = some symbol ∧ symbol.isGlobal = true ∧ symbol.name = name := by
  unfold Declaring.symbolOf
  unfold Statement.globalName? at h
  split at h
  · split at h
    · cases h
    · rename_i hlocal
      cases h
      exact ⟨.label name d.unit node.location, by simp [hlocal], rfl, rfl⟩
  · cases h
    exact ⟨_, rfl, rfl, rfl⟩
  · cases h
    exact ⟨_, rfl, rfl, rfl⟩
  · cases h

section Step

variable (h : DeclareStep cfg tree parent d node node' d')

include h

theorem DeclareStep.node_eq : node.DeclaredAs node' := by
  cases h with
  | remarks | defines | refuses | follows | idles => exact ⟨_, _, _, rfl⟩

theorem DeclareStep.unit_eq : d'.unit = d.unit := by
  cases h <;> rfl

theorem DeclareStep.scope_none (hscope : d.scope = none) (hl : node.statement.isLabel = false) :
    d'.scope = none := by
  cases h with
  | remarks | refuses | follows | idles => exact hscope
  | @defines symbol _ _ hsym _ =>
    have hlabel : symbol.isLabel = false := by
      unfold Declaring.symbolOf at hsym
      cases hs : node.statement with
      | label name =>
        rw [hs] at hl
        cases hl
      | equation | macroDef =>
        simp only [hs, Option.some.injEq] at hsym
        rw [← hsym]
        rfl
      | _ => simp only [hs, reduceCtorEq] at hsym
    simp only [hlabel, Bool.and_false, Bool.false_eq_true, if_false]
    exact hscope

variable {u : SourceUnit} (hu : d.get? d.unit = some u)
  (he : d'.hasErrors = false)

include hu he

theorem DeclareStep.defined (hsym : d.symbolOf node = some symbol) :
    ∃ id, d.symbols.define symbol = (.ok id, d'.symbols) ∧
      node'.symbol = some id := by
  cases h with
  | remarks _ _ hnone | idles _ hnone => cases hnone.symm.trans hsym
  | defines hsym' hdef =>
    cases hsym'.symm.trans hsym
    exact ⟨_, hdef, rfl⟩
  | @refuses _ _ symbols message _ _ =>
    have hm := Program.hasErrors_mark (p := (d.withSymbols symbols).program) hu
      (m := (Marker.error message).located node.location) rfl
    exact absurd (he.symm.trans hm) (by simp)
  | follows hs _ =>
    rw [Declaring.symbolOf, hs] at hsym
    cases hsym

theorem DeclareStep.label_defined (hl : node.statement.isLabel = true) :
    ∃ symbol id, d.symbolOf node = some symbol ∧
      d.symbols.define symbol = (.ok id, d'.symbols) ∧ node'.symbol = some id := by
  cases hsym : d.symbolOf node with
  | some symbol =>
    obtain ⟨id, hdef, hid⟩ := h.defined hu he hsym
    exact ⟨symbol, id, rfl, hdef, hid⟩
  | none =>
    cases h with
    | @remarks m _ hlabel _ =>
      have hm := Program.hasErrors_mark hu (m := m.located node.location) (hlabel hl)
      exact absurd (he.symm.trans hm) (by simp)
    | defines hsym' | refuses hsym' => cases hsym.symm.trans hsym'
    | follows hs _ =>
      rw [hs] at hl
      cases hl
    | idles hlabel _ => exact absurd (hl.symm.trans hlabel) (by simp)

end Step

/-! ### All nodes -/

/-- The steps of declaring the nodes of a unit. -/
inductive Declares (cfg : Settings) (tree : FileTree) (parent : Resource) :
    Declaring → SyntaxTree → SyntaxTree → Declaring → Prop
  | nil {d : Declaring} : Declares cfg tree parent d [] [] d
  | cons {d d₁ d₂ : Declaring} {node node' : Node} {nodes nodes' : SyntaxTree}
    (step : DeclareStep cfg tree parent d node node' d₁)
    (rest : Declares cfg tree parent d₁ nodes nodes' d₂) :
    Declares cfg tree parent d (node :: nodes) (node' :: nodes') d₂

theorem DeclareStep.single (step : DeclareStep cfg tree parent d node node' d') :
    Declares cfg tree parent d [node] [node'] d' :=
  .cons step .nil

theorem declares_declareNodes (cfg : Settings) (tree : FileTree) (parent : Resource)
    (d : Declaring) (nodes : SyntaxTree) :
    ∃ nodes' d', declareNodes cfg tree parent nodes d = (.ok nodes', d') ∧
      Declares cfg tree parent d nodes nodes' d' := by
  induction nodes generalizing d with
  | nil => exact ⟨[], d, rfl, .nil⟩
  | cons node nodes ih =>
    obtain ⟨node', d₁, hstep, step⟩ :=
      declareNode_step cfg tree parent d node
    obtain ⟨nodes', d₂, hrest, rest⟩ := ih d₁
    refine ⟨node' :: nodes', d₂, ?_, .cons step rest⟩
    rw [declareNodes, hstep]
    simp only [hrest]

section Steps

variable (h : Declares cfg tree parent d nodes nodes' d')

include h

theorem Declares.nodes_eq : Forall₂ Node.DeclaredAs nodes nodes' := by
  induction h with
  | nil => exact .nil
  | cons step _ ih => exact .cons step.node_eq ih

/-- **What declaring keeps**: what markers for the unit, the symbols of the nodes and their
includes keep. -/
theorem Declares.keeps {I : Program → Prop}
    (hmark : ∀ p, ∀ ms : List Marker, (∀ m ∈ ms, m.kind ≠ .genericError ∧ m.node = none) → I p →
      I (p.mark d.unit ms))
    (hdefine : ∀ p (d₁ : Declaring), ∀ n ∈ nodes, ∀ symbol, d₁.unit = d.unit →
      d₁.symbolOf n = some symbol → I p → I { p with symbols := (p.symbols.define symbol).2 })
    (hfollow : ∀ p, ∀ n ∈ nodes, ∀ path r, n.statement = .includes path →
      cfg.resolver.resolve tree path (some parent) = .ok r → I p →
      I (p.including tree d.unit r)) (hI : I d.program) : I d'.program := by
  induction h with
  | nil => exact hI
  | @cons d d₁ _ node _ _ _ step _ ih =>
    rw [step.unit_eq] at ih
    refine ih hmark (fun p d₁ n hn => hdefine p d₁ n (mem_cons_of_mem _ hn))
      (fun p n hn => hfollow p n (mem_cons_of_mem _ hn)) ?_
    have hsymbol := fun symbol hsym => hdefine _ d node mem_cons_self symbol rfl hsym hI
    cases step with
    | remarks hkind _ _ hnode => exact hmark _ _ (forall_mem_singleton.mpr ⟨hkind, hnode⟩) hI
    | defines hsym hdef =>
      have hdefined := hsymbol _ hsym
      rwa [hdef] at hdefined
    | refuses hsym hdef =>
      have hdefined := hsymbol _ hsym
      rw [hdef] at hdefined
      exact hmark _ _ (forall_mem_singleton.mpr ⟨nofun, rfl⟩) hdefined
    | follows hs hresolve => exact hfollow _ _ mem_cons_self _ _ hs hresolve hI
    | idles => exact hI

theorem Declares.extends : d.program.Extends d.unit d'.program :=
  h.keeps (I := d.program.Extends d.unit)
    (fun _ _ hms hI => hI.trans (Program.extends_mark _ _ fun m hm => (hms m hm).1))
    (fun _ _ _ _ _ _ _ hI => hI.trans (Program.extends_of_units_eq _ rfl))
    (fun _ _ _ _ _ _ _ hI => hI.trans (Program.extends_including ..))
    (Program.extends_of_units_eq _ rfl)

theorem Declares.symbols_keep {I : Table → Prop}
    (hnew : ∀ t (d₁ : Declaring), ∀ n ∈ nodes, ∀ symbol, d₁.unit = d.unit →
      d₁.symbolOf n = some symbol → I t → I (t.define symbol).2)
    (hI : I d.symbols) : I d'.symbols :=
  h.keeps (I := fun p => I p.symbols) (fun _ _ _ hp => hp) (fun p => hnew p.symbols)
    (fun _ _ _ _ _ _ _ hp => hp) hI

theorem Declares.all {Q : Symbol → Prop}
    (hnew : ∀ symbol : Symbol, symbol.unit = d.unit → symbol.address? = none → Q symbol)
    (hall : d.symbols.All Q) : d'.symbols.All Q :=
  h.symbols_keep (I := Table.All Q) (fun _ _ _ _ symbol hd hsym ht =>
    have hspec := Declaring.symbolOf_spec hsym
    ht.define (hnew symbol (hspec.1.trans hd) hspec.2)) hall

theorem Declares.sound (hs : d.symbols.Sound) :
    d'.symbols.Sound ∧ d.symbols.handles ⊆ d'.symbols.handles ∧
      ∀ name, (d.symbols.global? name).isSome →
        (d'.symbols.global? name).isSome := by
  refine h.symbols_keep (I := fun t => t.Sound ∧ d.symbols.handles ⊆ t.handles ∧
    ∀ name, (d.symbols.global? name).isSome → (t.global? name).isSome)
    (fun t _ _ _ symbol _ _ ht => ?_) ⟨hs, fun _ hi => hi, fun _ hn => hn⟩
  exact ⟨ht.1.define symbol, List.Subset.trans ht.2.1 (Table.handles_define ht.1 symbol),
    fun name hn => Table.global?_define ht.1 symbol (ht.2.2 name hn)⟩

end Steps

/-! ### Labels of a unit without errors -/

/-- The unit is still there at the next node, and the rest of the nodes is done
without errors as well. -/
theorem DeclareStep.clean {d₁ : Declaring} {u : SourceUnit}
    (step : DeclareStep cfg tree parent d node node' d₁)
    (rest : Declares cfg tree parent d₁ nodes nodes' d')
    (hu : d.get? d.unit = some u) (he : d'.hasErrors = false) :
    d₁.hasErrors = false ∧ ∃ v, d₁.get? d₁.unit = some v := by
  obtain ⟨v, hv, -⟩ := step.single.extends.grows.units _ u hu
  exact ⟨rest.extends.grows.noErrors he, v, step.unit_eq ▸ hv⟩

section Clean

variable {n : Node} {u : SourceUnit} (h : Declares cfg tree parent d nodes nodes' d')
  (hu : d.get? d.unit = some u) (he : d'.hasErrors = false)

include h hu he

/-- **The labels of a unit without errors** have handles that nothing had before,
and each its own. -/
theorem Declares.labels (hs : d.symbols.Sound) :
    (labelIds nodes').Nodup ∧ ∀ i ∈ labelIds nodes',
      i ∉ d.symbols.handles ∧ i ∈ d'.symbols.handles := by
  induction h generalizing u with
  | nil => exact ⟨nodup_nil, fun i hi => absurd hi (by simp [labelIds])⟩
  | @cons d d₁ _ node node' nodes nodes' step rest ih =>
    obtain ⟨he₁, v, hv⟩ := step.clean rest hu he
    obtain ⟨hs₁, hh₁, -⟩ := step.single.sound hs
    obtain ⟨hnodup, hids⟩ := ih hv he hs₁
    have hstatement : node'.statement = node.statement := by
      obtain ⟨_, _, _, rfl⟩ := step.node_eq
      rfl
    rw [labelIds_cons]
    cases hl : node.statement.isLabel with
    | false =>
      have hnone : labelIds [node'] = [] := by simp [labelIds, Node.labelId?, hstatement, hl]
      rw [hnone, nil_append]
      exact ⟨hnodup, fun i hi => ⟨fun hd => (hids i hi).1 (hh₁ hd), (hids i hi).2⟩⟩
    | true =>
      obtain ⟨symbol, j, -, hdef, hsymbol⟩ := step.label_defined hu he₁ hl
      obtain ⟨hnew, hold⟩ := Table.define_fresh hs hdef
      have hone : labelIds [node'] = [j] := by simp
        [labelIds, Node.labelId?, hstatement, hl, hsymbol]
      rw [hone, singleton_append]
      refine ⟨nodup_cons.mpr ⟨fun hj => (hids j hj).1 hold, hnodup⟩, fun i hi => ?_⟩
      rcases mem_cons.mp hi with rfl | hi
      · exact ⟨hnew, (rest.sound hs₁).2.1 hold⟩
      · exact ⟨fun hd => (hids i hi).1 (hh₁ hd), (hids i hi).2⟩

/-- A global name is free before a unit without errors that declares it is done, and
taken after. -/
theorem Declares.globalName (hs : d.symbols.Sound) (hn : n ∈ nodes)
    (hname : n.statement.globalName? = some name) :
    d.symbols.global? name = none ∧ (d'.symbols.global? name).isSome := by
  induction h generalizing u with
  | nil => cases hn
  | @cons d d₁ _ node node' nodes nodes' step rest ih =>
    obtain ⟨he₁, v, hv⟩ := step.clean rest hu he
    obtain ⟨hs₁, -, hg₁⟩ := step.single.sound hs
    rcases mem_cons.mp hn with rfl | hn
    · obtain ⟨symbol, hsym, hglobal, rfl⟩ := d.symbolOf_global hname
      obtain ⟨j, hdef, -⟩ := step.defined hu he₁ hsym
      obtain ⟨hfree, htaken⟩ := Table.global?_define_self hdef hglobal
      exact ⟨hfree, (rest.sound hs₁).2.2 _ htaken⟩
    · obtain ⟨hfree, htaken⟩ := ih hv he hs₁ hn
      refine ⟨Option.not_isSome_iff_eq_none.mp fun hd => ?_, htaken⟩
      have hsome := hg₁ name hd
      rw [hfree] at hsome
      cases hsome

/-- A unit that has labels and no errors has a global label: a local one belongs
to one. -/
theorem Declares.exists_globalLabel (hscope : d.scope = none) (hn : n ∈ nodes)
    (hlabel : n.statement.isLabel = true) :
    ∃ m ∈ nodes, ∃ name, m.statement = .label name ∧ isLocalName name = false := by
  induction h generalizing u with
  | nil => cases hn
  | @cons d d₁ _ node node' nodes nodes' step rest ih =>
    obtain ⟨he₁, v, hv⟩ := step.clean rest hu he
    cases hl : node.statement.isLabel with
    | false =>
      rcases mem_cons.mp hn with rfl | hn
      · exact absurd (hlabel.symm.trans hl) (by simp)
      · obtain ⟨m, hm, hglobal⟩ := ih hv he (step.scope_none hscope hl) hn
        exact ⟨m, mem_cons_of_mem _ hm, hglobal⟩
    | true =>
      obtain ⟨symbol, -, hsym, -, -⟩ := step.label_defined hu he₁ hl
      cases hst : node.statement with
      | label name =>
        refine ⟨node, mem_cons_self, name, hst, Bool.eq_false_iff.mpr fun hlocal => ?_⟩
        unfold Declaring.symbolOf at hsym
        simp only [hst, hlocal, if_true, hscope, Option.map_none, reduceCtorEq] at hsym
      | _ =>
        rw [hst] at hl
        cases hl

end Clean

end Nodes

end WordAsm
