/-
# The parse of a program that is ahead

A parse finds units on its way. A program that has been compiled has them already, in the
order in which the parse found them; the parse of such a program finds each of them where
it is and ends with the same units in the same order (`runPhase_parse_mirrors`). So the two
programs are level again when the parse is over.

The files around the two need not be the same either, as long as the sources say the same
and their includes lead to the same sources (`Units.ReadAlike`).
-/
import WordAsm.Proofs.Lockstep
import WordAsm.Proofs.MirroredPhases
import WordAsm.Proofs.Outcome
import WordAsm.Proofs.InPlace
import Mathlib.Data.List.Find

namespace WordAsm

open List

/-! ### What is read -/

theorem Resource.same_comm (tree : FileTree) (r s : Resource) : s.same tree r = r.same tree s := by
  have hplain : (s.identifier == r.identifier) = (r.identifier == s.identifier) := Bool.beq_comm
  cases r with
  | file a =>
    cases s with
    | file b =>
      have hpath : Path.same b a = Path.same a b := Bool.beq_comm
      simp only [same]
      cases tree.find? a with
      | none => cases tree.find? b <;> exact hpath
      | some p =>
        cases tree.find? b with
        | none => exact hpath
        | some q => exact Bool.beq_comm
    | text | memory => exact hplain
  | text | memory => cases s <;> exact hplain

def SourceUnit.includePaths (switches : Switches) (tree : FileTree) (u : SourceUnit) :
    List String :=
  (u.source switches tree).filterMap fun n =>
    match n.statement with
    | .includes path => some path
    | _ => none

/-- What the units say, and which sources they include, is the same among the files `tree`
and the files `tree'`. -/
structure Units.ReadAlike (cfg : Settings) (tree tree' : FileTree) (us : Units) : Prop where
  text : ∀ u ∈ us.all, u.resource.readText tree' = u.resource.readText tree
  resolve : ∀ u ∈ us.all, ∀ path ∈ u.includePaths cfg.switches tree,
    cfg.resolver.resolve tree' path (some u.resource) =
      cfg.resolver.resolve tree path (some u.resource)
  same : ∀ u ∈ us.all, ∀ r ∈ u.inclusions cfg tree, ∀ v ∈ us.all,
    v.resource.same tree' r = v.resource.same tree r

instance (cfg : Settings) (tree tree' : FileTree) (us : Units) :
    Decidable (us.ReadAlike cfg tree tree') :=
  decidable_of_iff
    ((∀ u ∈ us.all, u.resource.readText tree' = u.resource.readText tree) ∧
      (∀ u ∈ us.all, ∀ path ∈ u.includePaths cfg.switches tree,
        cfg.resolver.resolve tree' path (some u.resource) =
          cfg.resolver.resolve tree path (some u.resource)) ∧
      ∀ u ∈ us.all, ∀ r ∈ u.inclusions cfg tree, ∀ v ∈ us.all,
        v.resource.same tree' r = v.resource.same tree r)
    ⟨fun h => ⟨h.1, h.2.1, h.2.2⟩, fun h => ⟨h.text, h.resolve, h.same⟩⟩

namespace Units

variable {us vs : Units} {cfg : Settings} {tree tree' : FileTree}

theorem ReadAlike.refl (cfg : Settings) (tree : FileTree) (us : Units) :
    us.ReadAlike cfg tree tree :=
  ⟨fun _ _ => rfl, fun _ _ _ _ => rfl, fun _ _ _ _ _ _ => rfl⟩

theorem Within.exists_resource (h : us.Within vs) {u : SourceUnit} (hu : u ∈ us.all) :
    ∃ v ∈ vs.all, v.resource = u.resource := by
  have hmem : (u.id, u.resource) ∈ us.sources := mem_map.mpr ⟨u, hu, rfl⟩
  obtain ⟨v, hv, heq⟩ := mem_map.mp (h.sources.subset hmem)
  exact ⟨v, hv, congrArg Prod.snd heq⟩

theorem ReadAlike.of_within (h : vs.ReadAlike cfg tree tree') (hus : us.Within vs) :
    us.ReadAlike cfg tree tree' := by
  refine ⟨fun u hu => ?_, fun u hu path hpath => ?_, fun u hu r hr v hv => ?_⟩
  · obtain ⟨u', hu', hresource⟩ := hus.exists_resource hu
    exact hresource ▸ h.text u' hu'
  · obtain ⟨u', hu', hresource⟩ := hus.exists_resource hu
    have hpath' : path ∈ u'.includePaths cfg.switches tree := by
      unfold SourceUnit.includePaths at hpath ⊢
      rwa [SourceUnit.source_congr hresource]
    exact hresource ▸ h.resolve u' hu' path hpath'
  · obtain ⟨u', hu', hresource⟩ := hus.exists_resource hu
    obtain ⟨v', hv', hresource'⟩ := hus.exists_resource hv
    have hr' : r ∈ u'.inclusions cfg tree := by
      unfold SourceUnit.inclusions at hr ⊢
      rwa [SourceUnit.source_congr hresource, hresource]
    exact hresource' ▸ h.same u' hu' r hr' v' hv'

end Units

/-! ### Units that are found -/

/-- A queue that is ahead of another stays ahead, and within `zs`, when both are given the
same member. -/
theorem insertNew_ahead {α : Type} [DecidableEq α] {xs ys zs : List α} {a : α} (h : xs <+: ys)
    (hx : insertNew xs a <+: zs) (hy : ys <+: zs) :
    insertNew xs a <+: insertNew ys a ∧ insertNew ys a <+: zs := by
  unfold insertNew at hx ⊢
  by_cases ha : a ∈ xs
  · rw [if_pos ha, if_pos (h.subset ha)]
    exact ⟨h, hy⟩
  · rw [if_neg ha] at hx ⊢
    rcases Nat.lt_or_ge xs.length ys.length with hlt | hge
    · have hlonger : xs ++ [a] <+: ys :=
        prefix_of_prefix_length_le hx hy (by simp only [length_append]; exact hlt)
      rw [if_pos (hlonger.subset (by simp))]
      exact ⟨hlonger, hy⟩
    · obtain rfl := h.eq_of_length_le hge
      rw [if_neg ha]
      exact ⟨prefix_refl _, hx⟩

theorem Units.sources_add (us : Units) (r : Resource) :
    (us.add r).2.sources = us.sources ++ [(us.all.length, r)] := by
  simp [Units.add, Units.sources]

theorem Units.find?_of_prefix {us vs : Units} (h : us.sources <+: vs.sources) {tree : FileTree}
    {r : Resource} {i : UnitId} (hfind : us.find? tree r = some i) : vs.find? tree r = some i := by
  rw [Units.find?_eq_sources] at hfind ⊢
  obtain ⟨s, hs, rfl⟩ := Option.map_eq_some_iff.mp hfind
  rw [h.find?_eq_some hs, Option.map_some]

section Found

variable {f : StoreId → StoreId} {p p' : Program} {F : Units} {tree tree' : FileTree}
  {r : Resource}

theorem Program.sameSources_including (p : Program) (tree : FileTree) (i : UnitId) (r : Resource) :
    (p.findOrAdd tree r).2.SameSources (p.including tree i r).units :=
  sameSources_modifyUnit { p with units := (p.findOrAdd tree r).2 } i
    fun _ => ⟨rfl, rfl, prefix_refl _⟩

variable (h : p.Ahead f p')

include h

theorem Program.Ahead.units_next
    (hnext : (p.add r).2.sources <+: p'.sources) :
    ∃ front rest, p'.all = front ++ rest ∧
      Forall₂ (SourceUnit.Mirrors f) (p.add r).2.all front ∧
      ∀ u ∈ rest, u.reset = u := by
  obtain ⟨front, rest, hall, hfront, hrest⟩ := h.units
  have hsources : p'.sources = p.sources ++ rest.map fun u => (u.id, u.resource) := by
    unfold Units.sources
    rw [hall, map_append, Program.Ahead.sources_front hfront]
  rw [Units.sources_add, hsources, prefix_append_right_inj] at hnext
  cases rest with
  | nil => simp at hnext
  | cons v rest =>
    obtain ⟨t, ht⟩ := hnext
    have hv := (List.cons.inj ht).1
    refine ⟨front ++ [v], rest, hall.trans (by simp), ?_,
      fun u hu => hrest u (mem_cons_of_mem v hu)⟩
    refine rel_append hfront (.cons ?_ .nil)
    exact SourceUnit.mirrors_of_reset rfl (hrest v mem_cons_self)
      (congrArg Prod.fst hv).symm (congrArg Prod.snd hv).symm

theorem Program.Ahead.units_add (hlevel : p'.all.length ≤ p.all.length) (r : Resource) :
    Forall₂ (SourceUnit.Mirrors f) (p.add r).2.all (p'.add r).2.all := by
  obtain ⟨front, rest, hall, hfront, -⟩ := h.units
  have hlength := hfront.length_eq
  rw [hall, length_append] at hlevel
  obtain rfl : rest = [] := eq_nil_of_length_eq_zero (by omega)
  rw [append_nil] at hall
  simp only [Units.add, hall]
  exact rel_append hfront
    (.cons (SourceUnit.mirrors_of_reset rfl rfl hlength.symm rfl) .nil)

variable (hsame : ∀ u ∈ p.all, u.resource.same tree' r = u.resource.same tree r)
  (hF' : p'.units.Within F)

include hsame hF'

theorem Program.Ahead.units_findOrAdd (hF : (p.findOrAdd tree r).2.Within F) :
    (p'.findOrAdd tree' r).1 = (p.findOrAdd tree r).1 ∧
      (∃ front rest, (p'.findOrAdd tree' r).2.all = front ++ rest ∧
        Forall₂ (SourceUnit.Mirrors f) (p.findOrAdd tree r).2.all front ∧
        ∀ u ∈ rest, u.reset = u) ∧
      (p'.findOrAdd tree' r).2.sources <+: F.sources := by
  have hfront : p.find? tree' r = p.find? tree r :=
    congrArg _ (find?_congr hsame)
  cases hfind : p.find? tree r with
  | some i =>
    have hfind' := Units.find?_of_prefix h.within.sources (hfront.trans hfind)
    unfold Units.findOrAdd
    rw [hfind, hfind']
    exact ⟨rfl, h.units, hF'.sources⟩
  | none =>
    have hadd : p.findOrAdd tree r = p.add r := by
      unfold Units.findOrAdd
      rw [hfind]
    have hadd' : p.findOrAdd tree' r = p.add r := by
      unfold Units.findOrAdd
      rw [hfront, hfind]
    rw [hadd] at hF ⊢
    rcases Nat.lt_or_ge p.all.length p'.all.length with hlt | hge
    · -- the second program has the unit already
      have hnext : (p.add r).2.sources <+: p'.sources := by
        refine prefix_of_prefix_length_le hF.sources hF'.sources ?_
        rw [Units.sources_add, length_append, Units.length_sources, Units.length_sources]
        exact hlt
      have hfind' := Units.find?_of_prefix hnext (hadd' ▸ p.units.find?_findOrAdd tree' r)
      unfold Units.findOrAdd
      rw [hfind']
      exact ⟨rfl, h.units_next hnext, hF'.sources⟩
    · -- both are without the unit, and get it at the same place
      have hsources : p.sources = p'.sources :=
        h.within.sources.eq_of_length_le (by simpa [Units.length_sources] using hge)
      have hlength : p.all.length = p'.all.length := by
        rw [← Units.length_sources, hsources, Units.length_sources]
      have hfind' : p'.find? tree' r = none := by
        rw [Units.find?_eq_sources, ← hsources, ← Units.find?_eq_sources, hfront, hfind]
      unfold Units.findOrAdd
      rw [hfind']
      refine ⟨hlength.symm, ⟨_, [], (append_nil _).symm, h.units_add hge r, by simp⟩, ?_⟩
      rw [Units.sources_add, ← hsources, ← hlength, ← Units.sources_add]
      exact hF.sources

/-- **A unit is found on both sides.** The first program finds it or adds it; the second
finds it where the first one does or adds it, or has it there already. -/
theorem Program.Ahead.findOrAdd (hw : p.WellFormed) (hw' : p'.WellFormed)
    (hF : (p.findOrAdd tree r).2.Within F) :
    (p'.findOrAdd tree' r).1 = (p.findOrAdd tree r).1 ∧
      Program.Ahead f { p with units := (p.findOrAdd tree r).2 }
        { p' with units := (p'.findOrAdd tree' r).2 } ∧
      (p'.findOrAdd tree' r).2.Within F := by
  obtain ⟨hid, hunits, hsources⟩ := h.units_findOrAdd hsame hF' hF
  have horder := hw.order_findOrAdd tree r
  have horder' := hw'.order_findOrAdd tree' r
  rw [hid] at horder'
  obtain ⟨hahead, hwithin⟩ := insertNew_ahead h.order (horder ▸ hF.order) hF'.order
  rw [← horder, ← horder'] at hahead
  rw [← horder'] at hwithin
  exact ⟨hid, ⟨hahead, hunits, h.symbols⟩, hwithin, hsources⟩

theorem Program.Ahead.including (hw : p.WellFormed) (hw' : p'.WellFormed) {i : UnitId}
    (hi : (p.get? i).isSome) (hF : (p.including tree i r).units.Within F) :
    (p'.findOrAdd tree' r).1 = (p.findOrAdd tree r).1 ∧
      (p.including tree i r).Ahead f (p'.including tree' i r) ∧
      (p'.including tree' i r).units.Within F := by
  obtain ⟨htarget, hahead, hwithin⟩ :=
    h.findOrAdd hsame hF' hw hw' ((p.sameSources_including tree i r).within.trans hF)
  obtain ⟨u, hu⟩ := Option.isSome_iff_exists.mp hi
  refine ⟨htarget, ?_, (p'.sameSources_including tree' i r).symm.within.trans hwithin⟩
  unfold Program.including
  rw [htarget]
  refine hahead.modifyUnit (Units.get?_lt (Program.get?_findOrAdd hu)) fun v v' hv => ?_
  refine ⟨hv.id, hv.resource, hv.tree, hv.markers, hv.start, hv.stop, hv.relocation, ?_, hv.code,
    hv.lines⟩
  show insertNew v'.dependencies _ = insertNew v.dependencies _
  rw [hv.dependencies]

end Found

/-! ### Declarations -/

theorem Table.exists_store_of_getAll {t : Table} {name : String} {x : Symbol}
    (hx : x ∈ t.getAll name) : ∃ s ∈ t.stores, x ∈ s.symbols := by
  obtain ⟨hx, -⟩ := mem_filter.mp hx
  obtain ⟨⟨id, y⟩, hy, rfl⟩ := mem_map.mp hx
  obtain ⟨s, hs, hy⟩ := mem_flatMap.mp hy
  exact ⟨s, hs, Store.mem_of_symbol? (Store.mem_ordered.mp hy)⟩

theorem refusal?_ahead {f : StoreId → StoreId} (hf : Function.Injective f) {p p' : Program}
    (h : p.Ahead f p') (hp : p.Owned) (e : Error) : refusal? p' e = refusal? p e := by
  cases e with
  | duplicateSymbol name =>
    simp only [refusal?, h.symbols, p.symbols.getAll_renumber hf, head?_map]
    cases hx : (p.symbols.getAll name).head? with
    | none => rfl
    | some x =>
      obtain ⟨s, hs, hxs⟩ := Table.exists_store_of_getAll (mem_of_mem_head? hx)
      obtain ⟨u, hu⟩ := Option.isSome_iff_exists.mp (hp s hs x hxs)
      obtain ⟨u', hu', huu⟩ := h.get? hu
      have hunit : (x.renumber f).unit = x.unit := rfl
      simp only [Option.map_some, Option.bind_some, hunit, hu, hu', huu.identifier]
      rfl
  | _ => rfl

/-- Two states between nodes; the second program is ahead, within the units `F`. -/
structure Declaring.Ahead (f : StoreId → StoreId) (F : Units) (d d' : Declaring) : Prop where
  unit : d'.unit = d.unit
  scope : d'.scope = d.scope.map (SymbolId.renumber f)
  program : d.program.Ahead f d'.program
  within : d'.units.Within F

/-- A program that keeps track of its units. -/
structure Program.Fit (p : Program) : Prop where
  wellFormed : p.WellFormed
  owned : p.Owned

/-- The same between nodes, where the unit at hand is known. -/
structure Declaring.Fit (d : Declaring) : Prop where
  program : d.program.Fit
  known : (d.get? d.unit).isSome

/-- An include that leads to the same source on both sides. -/
structure Node.ReadAlike (cfg : Settings) (tree tree' : FileTree) (parent : Resource)
    (F : Units) (n : Node) : Prop where
  undeclared : n.symbol = none
  resolve : ∀ path, n.statement = .includes path →
    cfg.resolver.resolve tree' path (some parent) =
      cfg.resolver.resolve tree path (some parent)
  same : ∀ path r, n.statement = .includes path →
    cfg.resolver.resolve tree path (some parent) = .ok r →
    ∀ v ∈ F.all, v.resource.same tree' r = v.resource.same tree r

section Declarations

variable {n node : Node} {cfg : Settings} {f : StoreId → StoreId} {F : Units}
  {tree tree' : FileTree} {parent : Resource} {d d' t : Declaring} (hf : Function.Injective f)
  (hnext : ∀ n, f (n + 1) = f n + 1)

theorem DeclareStep.fit (h : DeclareStep cfg tree parent d node n t) (hd : d.Fit) : t.Fit := by
  have hg := h.single.extends.grows
  have hknown := hg.known hd.known
  refine ⟨⟨hg.wellFormed hd.program.wellFormed, ?_⟩, h.unit_eq ▸ hknown⟩
  exact h.single.all (fun s hs _ => hs ▸ hknown) fun s hs x hx =>
    hg.known (hd.program.owned s hs x hx)

theorem Node.ReadAlike.renumber (h : node.ReadAlike cfg tree tree' parent F)
    (scope : Option SymbolId) (included : Option UnitId) :
    ({ node with scope, included } : Node).renumber f =
      { node with scope := scope.map (SymbolId.renumber f), included } := by
  unfold Node.renumber
  simp only [h.undeclared, Option.map_none]

section Node

variable (h : d.Ahead f F d')

include h

theorem Declaring.Ahead.symbolOf (node : Node) :
    d'.symbolOf node = (d.symbolOf node).map (Symbol.renumber f) := by
  unfold Declaring.symbolOf
  rw [h.unit, h.scope]
  cases node.statement with
  | label name =>
    simp only
    split
    · cases d.scope <;> rfl
    · rfl
  | _ => rfl

theorem Declaring.Ahead.plain (hnode : node.ReadAlike cfg tree tree' parent F) :
    ({ node with scope := d.scope } : Node).renumber f = { node with scope := d'.scope } := by
  rw [hnode.renumber d.scope node.included, h.scope]

variable (hd : d.Fit)

include hd

theorem Declaring.Ahead.mark {n' : Node} (hlocation : n'.location = n.location) (m : Marker) :
    (d.mark n m).Ahead f F (d'.mark n' m) := by
  obtain ⟨u, hu⟩ := Option.isSome_iff_exists.mp hd.known
  unfold Declaring.mark
  rw [h.unit, hlocation]
  exact ⟨rfl, h.scope, h.program.mark (Units.get?_lt hu) _,
    (Program.sameSources_mark ..).symm.within.trans h.within⟩

variable (hnode : node.ReadAlike cfg tree tree' parent F)

include hnode

theorem Declaring.Ahead.follow (hd' : d'.Fit) (hparent : ∃ v ∈ F.all, v.resource = parent)
    {path : String} (hs : node.statement = .includes path)
    (hF : Units.Within
      (d.follow cfg tree parent { node with scope := d.scope } path).2.units F) :
    (d'.follow cfg tree' parent { node with scope := d'.scope } path).1 =
        (d.follow cfg tree parent { node with scope := d.scope } path).1.renumber f ∧
      (d.follow cfg tree parent { node with scope := d.scope } path).2.Ahead f F
        (d'.follow cfg tree' parent { node with scope := d'.scope } path).2 := by
  have hplain := h.plain hnode
  unfold Declaring.follow at hF ⊢
  by_cases hignore : cfg.switches.has .ignoreIncludes = true
  · rw [if_pos hignore, if_pos hignore]
    exact ⟨hplain.symm, h.mark hd rfl _⟩
  rw [if_neg hignore] at hF ⊢
  rw [if_neg hignore]
  rw [hnode.resolve path hs]
  cases hresolve : cfg.resolver.resolve tree path (some parent) with
  | error e => exact ⟨hplain.symm, h.mark hd rfl _⟩
  | ok r =>
    have hsame := hnode.same path r hs hresolve
    have hself : r.same tree' parent = r.same tree parent := by
      obtain ⟨v, hv, rfl⟩ := hparent
      rw [← Resource.same_comm, hsame v hv, Resource.same_comm]
    simp only [hresolve] at hF ⊢
    by_cases hloop : r.same tree parent = true
    · rw [if_pos hloop, if_pos (hself.trans hloop)]
      exact ⟨hplain.symm, h.mark hd rfl _⟩
    · rw [if_neg hloop] at hF ⊢
      rw [if_neg (hself ▸ hloop)]
      have hknown : ∀ u ∈ d.all,
          u.resource.same tree' r = u.resource.same tree r := by
        intro u hu
        obtain ⟨v, hv, heq⟩ := (h.program.within.trans h.within).exists_resource hu
        exact heq ▸ hsame v hv
      obtain ⟨htarget, hahead, hwithin⟩ := h.program.including hknown h.within
        hd.program.wellFormed hd'.program.wellFormed hd.known hF
      refine ⟨?_, h.unit, h.scope, ?_, ?_⟩
      · simp only [htarget, hnode.renumber d.scope, h.scope]
      · exact h.unit ▸ hahead
      · exact h.unit ▸ hwithin

include hf hnext

theorem Declaring.Ahead.define {symbol : Symbol} (hsym : d.symbolOf node = some symbol) :
    ∃ n t t', d.define { node with scope := d.scope } symbol = (.ok n, t) ∧
      d'.define { node with scope := d'.scope } (symbol.renumber f) = (.ok (n.renumber f), t') ∧
      t.Ahead f F t' := by
  have hdefine := d.symbols.define_renumber hf hnext symbol
  rw [← h.program.symbols] at hdefine
  obtain ⟨hunit, -⟩ := Declaring.symbolOf_spec hsym
  unfold Declaring.define
  rcases hdef : d.symbols.define symbol with ⟨outcome, symbols⟩
  rw [hdef] at hdefine
  rw [hdefine]
  have hprogram := h.program.withSymbols symbols
  cases outcome with
  | ok id =>
    refine ⟨_, _, { d' with
      symbols := symbols.renumber f
      scope := if symbol.isGlobal && symbol.isLabel then some (id.renumber f) else d'.scope },
      rfl, ?_, h.unit, ?_, hprogram, h.within⟩
    · simp only [Prod.map, Except.map, Node.renumber, Option.map_some, h.scope,
        symbol.isGlobal_renumber, symbol.isLabel_renumber]
    · simp only [h.scope]
      split <;> rfl
  | error e =>
    have howned : Program.Owned { d.program with symbols } := by
      have hall : (d.symbols.define symbol).2.All _ :=
        hd.program.owned.define (hunit ▸ hd.known)
      rw [hdef] at hall
      exact hall
    have hrefusal := refusal?_ahead hf hprogram howned e
    obtain ⟨message, hm⟩ := refusal_of_define { d.program with symbols } hdef
    simp only [Prod.map, Except.map, hm, hrefusal]
    have hdeclared : Declaring.Ahead f F { d with symbols }
        { d' with symbols := symbols.renumber f } :=
      ⟨h.unit, h.scope, hprogram, h.within⟩
    refine ⟨_, _, _, rfl, ?_, hdeclared.mark ⟨⟨hd.program.wellFormed, howned⟩, hd.known⟩ rfl _⟩
    rw [h.plain hnode]
    rfl

/-- **A node is declared on both sides.** -/
theorem declareNode_ahead (hd' : d'.Fit) (hparent : ∃ v ∈ F.all, v.resource = parent)
    (hstep : declareNode cfg tree parent d node = (.ok n, t)) (hF : t.units.Within F) :
    ∃ t', declareNode cfg tree' parent d' node = (.ok (n.renumber f), t') ∧
      t.Ahead f F t' := by
  have hplain := h.plain hnode
  have hsymbolOf := h.symbolOf node
  cases hsym : d.symbolOf node with
  | some symbol =>
    rw [hsym, Option.map_some] at hsymbolOf
    obtain ⟨n₁, t₁, t', heq, heq', htt⟩ := h.define hf hnext hd hnode hsym
    rw [declareNode_of_symbol hsym, heq] at hstep
    cases hstep
    exact ⟨t', (declareNode_of_symbol hsymbolOf).trans heq', htt⟩
  | none =>
    rw [hsym, Option.map_none] at hsymbolOf
    by_cases hlabel : ∃ name, node.statement = .label name
    · obtain ⟨name, hs⟩ := hlabel
      rw [declareNode_of_stray hs hsym] at hstep
      cases hstep
      rw [declareNode_of_stray hs hsymbolOf, hplain]
      exact ⟨_, rfl, h.mark hd rfl _⟩
    · by_cases hpath : ∃ path, node.statement = .includes path
      · obtain ⟨path, hs⟩ := hpath
        rw [declareNode_of_include hs] at hstep
        cases hstep
        obtain ⟨heq, htt⟩ := h.follow hd hnode hd' hparent hs hF
        exact ⟨_, (declareNode_of_include hs).trans (by rw [heq]), htt⟩
      · have hlabel' : ∀ name, node.statement ≠ .label name := fun name hs => hlabel ⟨name, hs⟩
        have hpath' : ∀ path, node.statement ≠ .includes path := fun path hs => hpath ⟨path, hs⟩
        rw [declareNode_of_other hsym hlabel' hpath'] at hstep
        cases hstep
        rw [declareNode_of_other hsymbolOf hlabel' hpath', hplain]
        exact ⟨_, rfl, h⟩

end Node

include hf hnext

/-- **The nodes of a unit are declared on both sides.** -/
theorem declareNodes_ahead {nodes ns : SyntaxTree} (h : d.Ahead f F d') (hd : d.Fit) (hd' : d'.Fit)
    (hnodes : ∀ n ∈ nodes, n.ReadAlike cfg tree tree' parent F)
    (hparent : ∃ v ∈ F.all, v.resource = parent)
    (hrun : declareNodes cfg tree parent nodes d = (.ok ns, t))
    (hF : t.units.Within F) :
    ∃ t', declareNodes cfg tree' parent nodes d' = (.ok (ns.map (Node.renumber f)), t') ∧
      t.Ahead f F t' := by
  induction nodes generalizing d d' ns with
  | nil =>
    cases hrun
    exact ⟨d', rfl, h⟩
  | cons node nodes ih =>
    obtain ⟨n, d₁, hn, step⟩ := declareNode_step cfg tree parent d node
    obtain ⟨ns₁, t₁, hns, rest⟩ := declares_declareNodes cfg tree parent d₁ nodes
    rw [declareNodes, hn] at hrun
    simp only [hns] at hrun
    cases hrun
    obtain ⟨d₁', hn', hd₁⟩ := declareNode_ahead hf hnext h hd
      (hnodes node mem_cons_self) hd' hparent hn (rest.extends.grows.within.trans hF)
    obtain ⟨n', d₂, hn₂, step'⟩ := declareNode_step cfg tree' parent d' node
    obtain rfl : d₂ = d₁' := congrArg Prod.snd (hn₂.symm.trans hn')
    obtain ⟨t', hns', htt⟩ := ih hd₁ (step.fit hd) (step'.fit hd')
      (fun m hm => hnodes m (mem_cons_of_mem _ hm)) hns
    refine ⟨t', ?_, htt⟩
    rw [declareNodes, hn']
    simp only [hns', map_cons]

end Declarations

/-! ### The parse -/

/-- Two builds on the way through a parse that ends with the units `F`. -/
structure Build.Ahead (f : StoreId → StoreId) (F : Units) (tree tree' : FileTree) (b b' : Build) :
    Prop where
  program : b.program.Ahead f b'.program
  within : b'.units.Within F
  fit : b.program.Fit
  fit' : b'.program.Fit
  files : b.tree = tree
  files' : b'.tree = tree'
  poisoned : b'.poisoned = b.poisoned.map (SymbolId.renumber f)

section Parse

variable {b' b : Build} {u' u : SourceUnit} {cfg : Settings} {f : StoreId → StoreId}
  {F : Units} {tree tree' : FileTree} {slot : Slot}

theorem parseUnit_fit (hu : b.get? u.id = some u) (h : b.program.Fit) :
    (parseUnit cfg u b).2.program.Fit :=
  ⟨((parsePhase_quiet cfg).grows u b).wellFormed h.wellFormed, owned_parseUnit hu h.owned⟩

theorem Units.ReadAlike.nodes (h : F.ReadAlike cfg tree tree') {v : SourceUnit}
    (hv : v ∈ F.all) {text : String} (htext : v.resource.readText tree = .ok text) :
    ∀ n ∈ (parseSource cfg.switches text).1,
      n.ReadAlike cfg tree tree' v.resource F := by
  intro n hn
  have hsource : v.source cfg.switches tree = _ := SourceUnit.source_eq htext
  refine ⟨?_, fun path hs => ?_, fun path r hs hresolve => ?_⟩
  · rw [eq_of_mem_nodesFrom hn]
  · exact h.resolve v hv path (mem_filterMap.mpr ⟨n, hsource ▸ hn, by simp only [hs]⟩)
  · exact h.same v hv r (SourceUnit.mem_inclusions (hsource ▸ hn) hs hresolve)

theorem Program.Fit.declaring {p : Program} (h : p.Fit) {i : UnitId} (hu : p.get? i = some u)
    (ms : List Marker) : Declaring.Fit { unit := i, program := p.mark i ms } := by
  have hgrows := Program.grows_mark p i ms
  exact ⟨⟨hgrows.wellFormed h.wellFormed, h.owned.mono hgrows fun _ hQ => hQ⟩,
    hgrows.known (hu ▸ rfl)⟩

theorem order_runPhase_parse (hslot : slot.phase = parsePhase) (hw : b.WellFormed) :
    (runPhase cfg slot b).2.units.order.length ≤ queueBound cfg b := by
  have hend := runUnits_keeps_build (I := fun c => c.tree = b.tree ∧ c.WellFormed ∧
      c.load (cfg.resolver.targets b.tree) ≤ queueBound cfg b)
    (fun _ _ hc => hc) (fun _ u c _ _ ⟨htree, hwc, hload⟩ => by
      rw [hslot, runUnit_parse, (parseUnit_cases cfg u c).2.1]
      exact ⟨htree, ((parsePhase_quiet cfg).grows u c).wellFormed hwc,
        Nat.le_trans (htree ▸ load_parseUnit hwc) hload⟩)
    (queueBound cfg b) 0 false (b := b.tell (.phaseStart slot.name))
    ⟨rfl, hw, load_le_queueBound cfg b⟩
  exact Nat.le_trans (Units.order_le_load _ _) hend.2.2

variable (hf : Function.Injective f) (hnext : ∀ n, f (n + 1) = f n + 1)

include hf hnext

theorem parseUnit_ahead_program (hread : F.ReadAlike cfg b.tree b'.tree)
    (h : b.Ahead f F b.tree b'.tree b') (hu : b.get? u.id = some u)
    (hu' : b'.get? u.id = some u') (huu : u.Mirrors f u')
    (hF : (parseUnit cfg u b).2.units.Within F) :
    (parseUnit cfg u b).2.program.Ahead f (parseUnit cfg u' b').2.program ∧
      (parseUnit cfg u' b').2.units.Within F := by
  obtain ⟨v, hv, hresource⟩ := (h.program.within.trans h.within).exists_resource
    (Units.mem_all_iff.mpr ⟨u.id, hu⟩)
  have hlt := Units.get?_lt hu
  have htext' : u'.resource.readText b'.tree = u.resource.readText b.tree := by
    rw [huu.resource, ← hresource]
    exact hread.text v hv
  have hmarked : ∀ ms, (b'.program.mark u.id ms).units.Within F := fun ms =>
    (Program.sameSources_mark ..).symm.within.trans h.within
  cases htext : u.resource.readText b.tree with
  | error e =>
    rw [(parseUnit_unreadable cfg htext).2.2,
      (parseUnit_unreadable cfg (htext'.trans htext)).2.2, huu.id]
    exact ⟨h.program.mark hlt _, hmarked _⟩
  | ok text =>
    obtain ⟨nodes, d, heq, hd⟩ := declares_source cfg u b text
    have hprogram := (parseUnit_readable htext heq).2.2
    have hdeclared : d.units.Within F := by
      rw [hprogram] at hF
      exact (Program.sameSources_modifyUnit d.program u.id
        (SourceUnit.grows_withTree nodes)).within.trans hF
    have hstart : Declaring.Ahead f F
        { unit := u.id, program := b.program.mark u.id (parseSource cfg.switches text).2 }
        { unit := u.id, program := b'.program.mark u.id (parseSource cfg.switches text).2 } :=
      ⟨rfl, rfl, h.program.mark hlt _, hmarked _⟩
    obtain ⟨d', heq', hdd⟩ := declareNodes_ahead hf hnext hstart (h.fit.declaring hu _)
      (h.fit'.declaring hu' _)
      (hresource ▸ hread.nodes hv (hresource ▸ htext)) ⟨v, hv, hresource⟩ heq hdeclared
    rw [hprogram, (parseUnit_readable (htext'.trans htext)
      (by rw [huu.id, huu.resource]; exact heq')).2.2, huu.id]
    refine ⟨hdd.program.modifyUnit ?_ fun w w' hw => hw.withTree nodes, ?_⟩
    · obtain ⟨w, hw, -⟩ := ((Program.grows_mark b.program u.id _).trans hd.extends.grows).units
        _ u hu
      exact Units.get?_lt hw
    · exact (Program.sameSources_modifyUnit d'.program u.id
        (SourceUnit.grows_withTree _)).symm.within.trans hdd.within

/-- **A unit is parsed on both sides.** -/
theorem parseUnit_ahead (hread : F.ReadAlike cfg tree tree') (h : b.Ahead f F tree tree' b')
    (hu : b.get? u.id = some u) (hu' : b'.get? u.id = some u')
    (huu : u.Mirrors f u') (hF : (parseUnit cfg u b).2.units.Within F) :
    (parseUnit cfg u b).2.Ahead f F tree tree' (parseUnit cfg u' b').2 := by
  obtain rfl := h.files
  obtain rfl := h.files'
  obtain ⟨hprogram, hwithin⟩ := parseUnit_ahead_program hf hnext hread h hu hu' huu hF
  refine ⟨hprogram, hwithin, parseUnit_fit hu h.fit, parseUnit_fit (huu.id ▸ hu') h.fit',
    (parseUnit_cases cfg u b).2.1, (parseUnit_cases cfg u' b').2.1, ?_⟩
  rw [poisoned_parseUnit, poisoned_parseUnit, h.poisoned]

theorem abreast_parse (hslot : slot.phase = parsePhase) (hread : F.ReadAlike cfg tree tree') :
    Abreast cfg cfg slot (·.units.Within F) (·.units.SameSources F)
      (Build.Ahead f F tree tree') where
  grows u b := hslot ▸ runUnit_parse cfg u b ▸ (parsePhase_quiet cfg).grows u b
  onWay _ _ hgrows hF := hgrows.within.trans hF.within
  told _ _ _ _ _ hb :=
    ⟨hb.program, hb.within, hb.fit, hb.fit', hb.files, hb.files', hb.poisoned⟩
  order _ _ hb := hb.program.order
  stop _ _ hb hF := (hb.program.mirrors (hb.within.trans hF.symm.within)).order
  unit b b' id hb hid := by
    obtain ⟨u, hu, -⟩ := hb.fit.wellFormed.exists_get? hid
    obtain ⟨u', hu', huu⟩ := hb.program.get? hu
    rw [hu, hu', hslot]
    exact .some ⟨huu.identifier, congrArg (!·) huu.hasErrors, huu.hasErrors⟩
  run b b' id u u' hb hF hid hu hu' := by
    obtain rfl := hb.fit.wellFormed.numbered id u hu
    obtain ⟨v, hv, huv⟩ := hb.program.get? hu
    obtain rfl := Option.mem_unique hv hu'
    rw [hslot, runUnit_parse] at hF
    rw [hslot, runUnit_parse, runUnit_parse]
    exact parseUnit_ahead hf hnext hread hb hu hu' huv hF

/-- **A parse brings the two programs level**, if the second is within the units that the
first ends with. -/
theorem runPhase_parse_mirrors (hslot : slot.phase = parsePhase)
    (hread : (runPhase cfg slot b).2.units.ReadAlike cfg b.tree b'.tree)
    (h : b.Ahead f (runPhase cfg slot b).2.units b.tree b'.tree b') :
    InStep (Build.Mirrors f fun t t' => t = b.tree ∧ t' = b'.tree) (runPhase cfg slot b)
      (runPhase cfg slot b') := by
  obtain ⟨hflag, hend⟩ := (abreast_parse hf hnext hslot hread).runPhase h
    (Units.SameSources.refl _) (.inr ⟨order_runPhase_parse hslot h.fit.wellFormed,
      order_runPhase_parse hslot h.fit'.wellFormed⟩)
  exact ⟨hflag, hend.program.mirrors hend.within, ⟨hend.files, hend.files'⟩, hend.poisoned⟩

end Parse

end WordAsm
