/-
# Parsing and laying out in lockstep

A program and the same behind one unit more are parsed step by step alike, as
long as no include leads to the unit more: the same symbols are defined under the
same handles, and the same units are queued. If no unit has an origin of its own
and nothing is inlined, they are laid out alike too: sizes do not depend on
addresses, so everything stays at the same distance (`Lays.parallel`).
-/
import WordAsm.Proofs.Numerals
import WordAsm.Proofs.Parallel
import WordAsm.Proofs.Placement

namespace WordAsm

open List

variable {tree : FileTree}

/-! ### Declarations -/

/-- The sources that a unit includes, as far as they can be found. -/
def SourceUnit.inclusions (cfg : Settings) (tree : FileTree) (u : SourceUnit) : List
    Resource :=
  (u.source cfg.switches tree).filterMap fun n =>
    match n.statement with
    | .includes path => (cfg.resolver.resolve tree path (some u.resource)).toOption
    | _ => none

theorem SourceUnit.mem_inclusions {cfg : Settings} {u : SourceUnit} {n : Node} {path : String}
    {r : Resource} (hn : n ∈ u.source cfg.switches tree) (hs : n.statement = .includes path)
    (hr : cfg.resolver.resolve tree path (some u.resource) = .ok r) :
    r ∈ u.inclusions cfg tree :=
  mem_filterMap.mpr ⟨n, hn, by simp only [hs, hr]; rfl⟩

/-- Two states between nodes, of programs side by side. -/
structure Declaring.Parallel (j : UnitId) (d : ℕ) (X : SourceUnit → Prop) (s s' : Declaring) :
    Prop where
  unit : s'.unit = skip j s.unit
  scope : s'.scope = s.scope
  program : s.program.Parallel j d X s'.program

/-- A node that can be declared on both sides: it is as the source has it, is no
origin, and does not include the unit more. -/
structure Node.Declarable (cfg : Settings) (tree : FileTree) (parent : Resource)
    (X : SourceUnit → Prop) (n : Node) : Prop where
  unplaced : n.address = none ∧ n.inlined = false
  floating : n.statement.isOrigin = false
  apart : ∀ path r, n.statement = .includes path →
    cfg.resolver.resolve tree path (some parent) = .ok r →
    ∀ x, X x → x.resource.same tree r = false

section Declarations

variable {cfg : Settings} {tree : FileTree} {parent : Resource} {j : UnitId} {d : ℕ}
  {X : SourceUnit → Prop} {s s' : Declaring} {node : Node}

theorem Node.Declarable.parallel (h : node.Declarable cfg tree parent X) (d : ℕ)
    (scope symbol : Option SymbolId) (included included' : Option UnitId) :
    Node.Parallel d { node with scope, symbol, included }
      { node with scope, symbol, included := included' } := by
  refine ⟨rfl, rfl, rfl, ?_, ⟨h.unplaced.2, h.unplaced.2⟩, h.floating⟩
  rw [h.unplaced.1]
  exact .none

def DeclareParallel (j : UnitId) (d : ℕ) (X : SourceUnit → Prop)
    (r r' : Except Error Node × Declaring) : Prop :=
  ∃ n t n' t', r = (.ok n, t) ∧ r' = (.ok n', t') ∧ n.Parallel d n' ∧ t.Parallel j d X t'

section Node

variable (h : s.Parallel j d X s')

include h

theorem Declaring.Parallel.mark (n n' : Node) (m m' : Marker) :
    (s.mark n m).Parallel j d X (s'.mark n' m') := by
  refine ⟨h.unit, h.scope, ?_⟩
  unfold Declaring.mark
  rw [h.unit]
  exact h.program.mark _ _ _

theorem Declaring.Parallel.symbolOf (node : Node) :
    Option.Rel (SymbolAlike (skip j) (Shifted d)) (s.symbolOf node) (s'.symbolOf node) := by
  unfold Declaring.symbolOf
  rw [h.unit, h.scope]
  cases node.statement with
  | label name =>
    simp only
    split
    · cases s.scope with
      | none => exact .none
      | some scope => exact .some ⟨rfl, rfl, rfl, .label .none⟩
    · exact .some ⟨rfl, rfl, rfl, .label .none⟩
  | equation name e => exact .some ⟨rfl, rfl, rfl, .equation _ _⟩
  | macroDef name body => exact .some ⟨rfl, rfl, rfl, .macroDef _⟩
  | origin | includes | words | instruction => exact .none

variable (hnode : node.Declarable cfg tree parent X)

include hnode

theorem Declaring.Parallel.define {symbol symbol' : Symbol}
    (hab : SymbolAlike (skip j) (Shifted d) symbol symbol') :
    DeclareParallel j d X (s.define { node with scope := s.scope } symbol)
      (s'.define { node with scope := s'.scope } symbol') := by
  obtain ⟨hsame, htable⟩ := h.program.symbols.define (skip_injective j) hab
  unfold Declaring.define
  rcases hdef : s.symbols.define symbol with ⟨outcome, t⟩
  rcases hdef' : s'.symbols.define symbol' with ⟨outcome', t'⟩
  rw [hdef, hdef'] at hsame htable
  have hprogram := h.program.withSymbols htable
  cases hsame
  rw [h.scope]
  cases outcome with
  | ok id =>
    refine ⟨_, _, _, _, rfl, rfl, hnode.parallel d _ _ _ _, h.unit, ?_, hprogram⟩
    simp only [hab.isGlobal, hab.sort.2.1]
  | error e =>
    obtain ⟨message, hm⟩ := refusal_of_define { s.program with symbols := t } hdef
    obtain ⟨message', hm'⟩ := refusal_of_define { s'.program with symbols := t' } hdef'
    simp only [hm, hm']
    have hmarked : Declaring.Parallel j d X { s with symbols := t }
        { s' with symbols := t', scope := s.scope } :=
      ⟨h.unit, rfl, hprogram⟩
    exact ⟨_, _, _, _, rfl, rfl, hnode.parallel d _ _ _ _, hmarked.mark _ _ _ _⟩

theorem Declaring.Parallel.follow {path : String} (hs : node.statement = .includes path) :
    (s.follow cfg tree parent { node with scope := s.scope } path).1.Parallel d
        (s'.follow cfg tree parent { node with scope := s'.scope } path).1 ∧
      (s.follow cfg tree parent { node with scope := s.scope } path).2.Parallel j d X
        (s'.follow cfg tree parent { node with scope := s'.scope } path).2 := by
  unfold Declaring.follow
  by_cases hignore : cfg.switches.has .ignoreIncludes = true
  · rw [if_pos hignore, if_pos hignore]
    exact ⟨h.scope ▸ hnode.parallel d _ _ _ _, h.mark _ _ _ _⟩
  rw [if_neg hignore, if_neg hignore]
  cases hresolve : cfg.resolver.resolve tree path (some parent) with
  | error e => exact ⟨h.scope ▸ hnode.parallel d _ _ _ _, h.mark _ _ _ _⟩
  | ok resource =>
    simp only
    by_cases hself : resource.same tree parent = true
    · rw [if_pos hself, if_pos hself]
      exact ⟨h.scope ▸ hnode.parallel d _ _ _ _, h.mark _ _ _ _⟩
    · rw [if_neg hself, if_neg hself]
      refine ⟨h.scope ▸ hnode.parallel d _ _ _ _, h.unit, h.scope, ?_⟩
      have hincluding := h.program.including s.unit (hnode.apart path resource hs hresolve)
      rw [← h.unit] at hincluding
      exact hincluding

/-- **A node is declared alike on both sides.** -/
theorem declareNode_parallel :
    DeclareParallel j d X (declareNode cfg tree parent s node)
      (declareNode cfg tree parent s' node) := by
  cases hsym : s.symbolOf node with
  | some symbol =>
    obtain ⟨symbol', hsym', hab⟩ := rel_some (h.symbolOf node) hsym
    rw [declareNode_of_symbol hsym, declareNode_of_symbol hsym']
    exact h.define hnode hab
  | none =>
    have hsym' := rel_none (h.symbolOf node) hsym
    by_cases hlabel : ∃ name, node.statement = .label name
    · obtain ⟨name, hs⟩ := hlabel
      rw [declareNode_of_stray hs hsym, declareNode_of_stray hs hsym']
      exact ⟨_, _, _, _, rfl, rfl, h.scope ▸ hnode.parallel d _ _ _ _, h.mark _ _ _ _⟩
    · by_cases hpath : ∃ path, node.statement = .includes path
      · obtain ⟨path, hs⟩ := hpath
        rw [declareNode_of_include hs, declareNode_of_include hs]
        obtain ⟨hnodes, hstates⟩ := h.follow hnode hs
        exact ⟨_, _, _, _, rfl, rfl, hnodes, hstates⟩
      · rw [declareNode_of_other hsym (fun name hs => hlabel ⟨name, hs⟩) fun path hs => hpath
          ⟨path, hs⟩,
          declareNode_of_other hsym' (fun name hs => hlabel ⟨name, hs⟩) fun path hs => hpath
            ⟨path, hs⟩]
        exact ⟨_, _, _, _, rfl, rfl, h.scope ▸ hnode.parallel d _ _ _ _, h⟩

end Node

/-- **The nodes of a unit are declared alike on both sides.** -/
theorem declareNodes_parallel {nodes : SyntaxTree} (h : s.Parallel j d X s')
    (hnodes : ∀ n ∈ nodes, n.Declarable cfg tree parent X) :
    ∃ ns t ns' t', declareNodes cfg tree parent nodes s = (.ok ns, t) ∧
      declareNodes cfg tree parent nodes s' = (.ok ns', t') ∧
      Forall₂ (Node.Parallel d) ns ns' ∧ t.Parallel j d X t' := by
  induction nodes generalizing s s' with
  | nil => exact ⟨_, _, _, _, rfl, rfl, .nil, h⟩
  | cons node nodes ih =>
    obtain ⟨n, s₁, n', s₁', hn, hn', hnn, hss⟩ :=
      declareNode_parallel h (hnodes node mem_cons_self)
    obtain ⟨ns, t, ns', t', hns, hns', hrest, htt⟩ :=
      ih hss fun m hm => hnodes m (mem_cons_of_mem _ hm)
    refine ⟨n :: ns, t, n' :: ns', t', ?_, ?_, .cons hnn hrest, htt⟩
    · rw [declareNodes, hn]
      simp only [hns]
    · rw [declareNodes, hn']
      simp only [hns']

end Declarations

/-! ### The parse -/

def Program.OriginFree (switches : Switches) (tree : FileTree) (p : Program) : Prop :=
  ∀ u ∈ p.ordered, ∀ n ∈ u.source switches tree, n.statement.isOrigin = false

instance (switches : Switches) (tree : FileTree) : DecidablePred
    (Program.OriginFree switches tree) :=
  fun p => inferInstanceAs (Decidable
    (∀ u ∈ p.ordered, ∀ n ∈ u.source switches tree, n.statement.isOrigin = false))

/-- No queued source includes `r`. -/
def Program.Omits (cfg : Settings) (tree : FileTree) (r : Resource) (p : Program) : Prop :=
  ∀ u ∈ p.ordered, ∀ s ∈ u.inclusions cfg tree, r.same tree s = false

instance (cfg : Settings) (tree : FileTree) (r : Resource) :
    DecidablePred (Program.Omits cfg tree r) :=
  fun p => inferInstanceAs (Decidable
    (∀ u ∈ p.ordered, ∀ s ∈ u.inclusions cfg tree, r.same tree s = false))

theorem Program.OriginFree.of_grows {switches : Switches} {p q : Program}
    (h : q.OriginFree switches tree) (hg : p.Grows q) : p.OriginFree switches tree := by
  intro u hu n hn
  obtain ⟨v, hv, huv⟩ := hg.ordered hu
  refine h v hv n ?_
  rwa [SourceUnit.source_congr huv.resource]

theorem Program.Omits.of_grows {cfg : Settings} {r : Resource} {p q : Program}
    (h : q.Omits cfg tree r) (hg : p.Grows q) : p.Omits cfg tree r := by
  intro u hu s hs
  obtain ⟨v, hv, huv⟩ := hg.ordered hu
  refine h v hv s ?_
  unfold SourceUnit.inclusions at hs ⊢
  rwa [SourceUnit.source_congr huv.resource, huv.resource]

section Parse

variable {cfg : Settings} {tree : FileTree} {j : UnitId} {d : ℕ} {X : SourceUnit → Prop}
  {r : Resource} {p p' q q' : Program}

/-- **A unit is parsed alike on both sides.** -/
theorem Program.Parallel.parse (h : p.Parallel j d X p') {u u' : SourceUnit}
    (huu : u.Parallel j d u')
    (hfree : ∀ n ∈ u.source cfg.switches tree, n.statement.isOrigin = false)
    (hX : ∀ s ∈ u.inclusions cfg tree, ∀ x, X x → x.resource.same tree s = false) :
    (parseUnit cfg u { program := p, tree }).2.program.Parallel j d X
      (parseUnit cfg u' { program := p', tree }).2.program := by
  cases htext : u.resource.readText tree with
  | error e =>
    rw [(parseUnit_unreadable cfg (b := { program := p, tree }) htext).2.2,
      (parseUnit_unreadable cfg (b := { program := p', tree }) (huu.resource ▸ htext)).2.2,
        huu.id]
    exact h.mark _ _ _
  | ok text =>
    have hsource : u.source cfg.switches tree = _ := SourceUnit.source_eq htext
    rw [hsource] at hfree
    have hstart : Declaring.Parallel j d X
        { unit := u.id, program := p.mark u.id (parseSource cfg.switches text).2 }
        { unit := u'.id, program := p'.mark u'.id (parseSource cfg.switches text).2 } :=
      ⟨huu.id, rfl, huu.id ▸ h.mark _ _ _⟩
    have hdeclarable : ∀ n ∈ (parseSource cfg.switches text).1,
        n.Declarable cfg tree u.resource X := fun n hn =>
      ⟨unplaced_of_mem_nodesFrom hn, hfree n hn, fun path s hs hresolve =>
        hX s (SourceUnit.mem_inclusions (hsource ▸ hn) hs hresolve)⟩
    obtain ⟨ns, t, ns', t', hns, hns', hnodes, htt⟩ := declareNodes_parallel hstart hdeclarable
    rw [(parseUnit_readable (b := { program := p, tree }) htext hns).2.2,
      (parseUnit_readable (b := { program := p', tree }) (huu.resource ▸ htext)
        (huu.resource ▸ hns')).2.2, huu.id]
    exact htt.program.modifyUnit _ fun v v' hvv => hvv.withTree hnodes

end Parse

/-! ### The layout -/

/-- Two states between nodes, `d` words apart. -/
structure Layout.Parallel (j : UnitId) (d : ℕ) (l l' : Layout) : Prop where
  symbols : TableAlike (skip j) (Shifted d) l.symbols l'.symbols
  start : l'.start = l.start + d
  address : l'.address = l.address + d

theorem measure_plain (eval eval' : Expr → Option Int64) (s : Statement) :
    measure false eval' s = measure false eval s ∧ (measure false eval s).2 = false := by
  cases s with
  | instruction op a b => rcases b with _ | (_ | _) <;> exact ⟨rfl, rfl⟩
  | _ => exact ⟨rfl, rfl⟩

theorem TableAlike.assignLabel {g : UnitId → UnitId} {L : Option Address → Option Address → Prop}
    {t t' : Table} (h : TableAlike g L t t') {n n' : Node}
    (hstatement : n'.statement = n.statement) (hsymbol : n'.symbol = n.symbol) {a a' : Address}
    (ha : L (some a) (some a')) :
    TableAlike g L (WordAsm.assignLabel t n a) (WordAsm.assignLabel t' n' a') := by
  unfold WordAsm.assignLabel
  rw [hstatement, hsymbol]
  split
  · exact h.modify _ fun _ _ hab => hab.withAddress ha
  · exact h

section Layouts

variable {j : UnitId} {d : ℕ} {unit unit' : UnitId} {l l₁ l' l₁' : Layout}

/-- **A node is laid out alike on both sides**, `d` words apart. -/
theorem LayStep.parallel {node node₁ node' node₁' : Node}
    (h : LayStep unit false l node node₁ l₁) (h' : LayStep unit' false l' node' node₁' l₁')
    (hn : node.Parallel d node') (hl : l.Parallel j d l') :
    node₁.Parallel d node₁' ∧ l₁.Parallel j d l₁' := by
  have hsame : measure false (l'.symbols.eval (l'.viewpoint unit' node')) node'.statement =
      measure false (l.symbols.eval (l.viewpoint unit node)) node.statement := by
    rw [hn.statement]
    exact (measure_plain _ _ _).1
  have hplain : (measure false (l.symbols.eval (l.viewpoint unit node)) node.statement).2 = false :=
    (measure_plain _ (l.symbols.eval (l.viewpoint unit node)) _).2
  have hno : ∀ e, node.statement ≠ .origin e := fun e he => by
    have hfloating := hn.floating
    rw [he] at hfloating
    cases hfloating
  have hno' : ∀ e, node'.statement ≠ .origin e := hn.statement ▸ hno
  cases h with
  | opens hs | jumps hs => exact absurd hs (hno _)
  | passes _ hm hlabel =>
    cases h' with
    | opens hs | jumps hs => exact absurd hs (hno' _)
    | passes _ hm' _ =>
      rw [hm, hm'] at hsame
      rw [hm] at hplain
      cases hsame
      exact ⟨⟨hn.statement, hn.scope, hn.symbol, hn.address, ⟨hplain, hplain⟩, hn.floating⟩, hl⟩
    | places _ hm' hp =>
      rw [hm, hm'] at hsame
      cases hsame
      rw [hn.statement, hlabel] at hp
      exact absurd hp (by simp)
  | @places size inlined a _ hm hp ha hfit =>
    cases h' with
    | opens hs | jumps hs => exact absurd hs (hno' _)
    | passes _ hm' hlabel =>
      rw [hm, hm'] at hsame
      cases hsame
      rw [← hn.statement, hlabel] at hp
      exact absurd hp (by simp)
    | @places size' inlined' a' _ hm' hp' ha' hfit' =>
      rw [hm, hm'] at hsame
      rw [hm] at hplain
      cases hsame
      have hshift : Shifted d (some a) (some a') :=
        .some (by rw [ha, ha', hl.address])
      refine ⟨⟨hn.statement, hn.scope, hn.symbol, hshift, ⟨hplain, hplain⟩, hn.floating⟩, ?_,
        hl.start, ?_⟩
      · exact hl.symbols.assignLabel hn.statement hn.symbol hshift
      · show l'.address + size.toNat = l.address + size.toNat + d
        rw [hl.address]
        omega

/-- **The nodes of a unit are laid out alike on both sides**, `d` words apart. -/
theorem Lays.parallel {nodes ns nodes' ns' : SyntaxTree} (h : Lays unit false l nodes ns l₁)
    (h' : Lays unit' false l' nodes' ns' l₁') (hnodes : Forall₂ (Node.Parallel d) nodes nodes')
    (hl : l.Parallel j d l') :
    Forall₂ (Node.Parallel d) ns ns' ∧ l₁.Parallel j d l₁' := by
  induction h generalizing l' nodes' ns' with
  | nil =>
    cases hnodes
    cases h'
    exact ⟨.nil, hl⟩
  | cons step _ ih =>
    cases hnodes with
    | cons hn hrest =>
      cases h' with
      | cons step' rest' =>
        obtain ⟨hn₁, hl₁⟩ := step.parallel step' hn hl
        obtain ⟨hns, hend⟩ := ih rest' hrest hl₁
        exact ⟨.cons hn₁ hns, hend⟩

end Layouts

/-- The unit of the source `r` ends at `d`. -/
structure SourceUnit.EndsAt (r : Resource) (d : ℕ) (x : SourceUnit) : Prop where
  resource : x.resource = r
  stop : x.stop = some d

section Units

variable {nodes : SyntaxTree} {cfg : Settings} {tree : FileTree} {j : UnitId} {d : ℕ}
  {r : Resource} {p p' q q' : Program}

theorem previousEnd_parallel (h : p.Parallel j d (SourceUnit.EndsAt r d) p') (i : UnitId) :
    previousEnd p'.units (skip j i) = previousEnd p.units i + d := by
  have hstop : ∀ ids : List UnitId, Option.Rel (fun s s' => s' = s + d)
      (ids.findSome? fun id => (p.get? id).bind SourceUnit.stop)
      ((ids.map (skip j)).findSome? fun id => (p'.get? id).bind SourceUnit.stop) := by
    intro ids
    induction ids with
    | nil => exact .none
    | cons id ids ih =>
      have hid : Option.Rel (fun s s' => s' = s + d) ((p.get? id).bind SourceUnit.stop)
          ((p'.get? (skip j id)).bind SourceUnit.stop) := by
        have hrel := h.units.units id
        generalize p.get? id = o, p'.get? (skip j id) = o' at hrel
        cases hrel with
        | none => exact .none
        | some huu => exact huu.stop
      rw [findSome?_cons, map_cons, findSome?_cons]
      generalize (p.get? id).bind SourceUnit.stop = o,
        (p'.get? (skip j id)).bind SourceUnit.stop = o' at hid
      cases hid with
      | none => exact ih
      | some hs => exact .some hs
  have hahead : p'.order.takeWhile (· ≠ skip j i) =
      j :: (p.order.takeWhile (· ≠ i)).map (skip j) := by
    rw [h.units.order, takeWhile_cons_of_pos (by simpa using (skip_ne j i).symm), takeWhile_map]
    congr 3
    funext k
    simp [(skip_injective j).eq_iff]
  have hlast : [j].findSome? (fun id => (p'.get? id).bind SourceUnit.stop) = some d := by
    obtain ⟨x, hx, hX⟩ := h.units.extra
    simp [hx, hX.stop]
  unfold previousEnd
  simp only
  rw [hahead, reverse_cons, ← map_reverse, findSome?_append, hlast]
  have hrel := hstop (p.order.takeWhile (· ≠ i)).reverse
  generalize List.findSome? _ (p.order.takeWhile (· ≠ i)).reverse = o,
    List.findSome? _ ((p.order.takeWhile (· ≠ i)).reverse.map (skip j)) = o' at hrel
  cases hrel with
  | none => simp
  | some hs => simp [hs]

/-- **A unit is laid out alike on both sides**, if nothing is inlined. -/
theorem Program.Parallel.laid (h : p.Parallel j d (SourceUnit.EndsAt r d) p')
    (hplain : cfg.switches.has .disableInlining = true) {u u' : SourceUnit}
    {nodes' : SyntaxTree} (hu : p.get? u.id = some u) (hu' : p'.get? u'.id = some u')
    (hid : u'.id = skip j u.id) (hnodes : Forall₂ (Node.Parallel d) nodes nodes')
    (he : (p.laid cfg u nodes).hasErrors = false)
    (he' : (p'.laid cfg u' nodes').hasErrors = false) :
    (p.laid cfg u nodes).Parallel j d (SourceUnit.EndsAt r d)
      (p'.laid cfg u' nodes') := by
  have hlays := lays_of_visit hu he
  have hlays' := lays_of_visit hu' he'
  have hstart := previousEnd_parallel h u.id
  rw [← hid] at hstart
  rw [hplain] at hlays hlays'
  obtain ⟨hns, hl⟩ := hlays.parallel (j := j) hlays' hnodes ⟨h.symbols, hstart, hstart⟩
  unfold Program.laid
  rw [hid]
  refine (h.withSymbols hl.symbols).modifyUnit u.id fun v v' hvv => ?_
  have hmarked := hvv.markAll (layoutOf cfg u nodes p).2.markers
    (layoutOf cfg u' nodes' p').2.markers
  exact ⟨hmarked.id, hmarked.resource, .some hns, .some hl.address,
    fun _ _ => ⟨_, rfl, congrArg startAddress hl.start⟩⟩

end Units

end WordAsm
