/-
# The includes of a unit, in order

Discovery looks into each unit once. Before that, the graph knows nothing of what the unit
includes; afterwards its node lists the units that its includes lead to, in the order of
the includes, each once and without the unit itself, and the address where its source says
it starts (`Discovery.Told`). Both follow from the source alone, whatever else is in the
program and whichever unit led to it first.

Looking into a unit adds units to the pile and changes nothing about other nodes
(`Discovery.LooksInto`), so what was told of one unit stays when the next is looked into.
Among sources in memory, no two units have the same name.
-/
import Mathlib.Data.List.Forall2
import WordAsm.Proofs.IncludeDiscovery

namespace WordAsm

variable {tree : FileTree} {r : Resource} {us : Units} {texts : List (String × String)}

open List

/-! ### What a source asks for -/

/-- The sources that the includes of a source lead to, in the order of the includes. -/
def Resource.leads (resolver : Resolver) (tree : FileTree) (r : Resource) : List Resource :=
  match r.readText tree with
  | .ok content => ((scanSource content).includes.map Prod.fst).filterMap fun path =>
      (resolver.resolve tree path (some r)).toOption
  | .error _ => []

def Resource.declaredStart (tree : FileTree) (r : Resource) : Address :=
  match r.readText tree with
  | .ok content => (scanSource content).origin.getD 0
  | .error _ => 0

/-- The units that the includes of `unit` lead to, each once and without `unit`. -/
def noted (unit : UnitId) (targets : List UnitId) : List UnitId :=
  targets.foldl (fun ids target => if target = unit then ids else insertNew ids target) []

theorem Units.leads_iff {resolver : Resolver} {a : UnitId} {u : SourceUnit}
    (hu : us.get? a = some u) :
    us.Leads resolver tree a r ↔ r ∈ u.resource.leads resolver tree := by
  unfold Leads Resource.leads
  constructor
  · rintro ⟨v, text, path, hv, hread, hpath, hresolve⟩
    obtain rfl : u = v := Option.mem_unique hu hv
    rw [hread]
    exact mem_filterMap.mpr ⟨path, hpath, by rw [hresolve]; rfl⟩
  · intro hr
    cases hread : u.resource.readText tree with
    | error e =>
      rw [hread] at hr
      cases hr
    | ok text =>
      rw [hread] at hr
      obtain ⟨path, hpath, hresolve⟩ := mem_filterMap.mp hr
      refine ⟨u, text, path, hu, hread, hpath, ?_⟩
      cases hfound : resolver.resolve tree path (some u.resource) with
      | error e =>
        rw [hfound] at hresolve
        cases hresolve
      | ok r' =>
        rw [hfound] at hresolve
        exact congrArg _ (Option.some.inj hresolve)

/-! ### Names -/

theorem Resolver.same_of_resolve {path : String} {parent : Option Resource}
    (h : (memory texts).resolve tree path parent = .ok r) (other : Resource) :
    other.same tree r = (other.identifier == r.identifier) := by
  obtain ⟨name, content, -, rfl⟩ := exists_text_of_resolve h
  cases other <;> rfl

/-- No two units have the same name. -/
def Units.Named (us : Units) : Prop := (us.all.map SourceUnit.identifier).Nodup

theorem Units.Named.findOrAdd (h : us.Named)
    (hr : ∀ other : Resource, other.same tree r = (other.identifier == r.identifier)) :
    (us.findOrAdd tree r).2.Named := by
  rcases us.findOrAdd_cases tree r with ⟨u, -, -, heq⟩ | ⟨hnone, heq⟩
  · rw [heq]
    exact h
  · rw [heq]
    have hnew : r.identifier ∉ us.all.map SourceUnit.identifier := by
      intro hin
      obtain ⟨u, hu, hname⟩ := mem_map.mp hin
      have hdiffer := hnone u hu
      rw [hr] at hdiffer
      exact absurd hname (beq_eq_false_iff_ne.mp hdiffer)
    unfold Named add
    rw [map_append, map_singleton, ← concat_eq_append]
    exact List.Nodup.concat hnew h

/-! ### What nodes say -/

namespace Graph

variable {g : Graph} {unit on x : UnitId}

def entry {α : Type} (g : Graph) (field : DependencyNode → α) (absent : α) (x : UnitId) :
    α :=
  ((g.node? x).map field).getD absent

theorem dependencies_eq (g : Graph) (x : UnitId) :
    g.dependencies x = g.entry DependencyNode.dependencies [] x := by
  unfold dependencies entry
  cases g.node? x <;> rfl

theorem startOf_eq (g : Graph) (x : UnitId) :
    g.startOf x = g.entry DependencyNode.start 0 x := by
  unfold startOf entry
  cases g.node? x <;> rfl

section Fields

variable {f : DependencyNode → DependencyNode} {α : Type} {field : DependencyNode → α} {absent : α}

theorem entry_addNode (hnew : ∀ unit, field { unit } = absent) :
    (g.addNode unit).entry field absent x = g.entry field absent x := by
  unfold entry
  rw [node?_addNode]
  by_cases hx : x = unit
  · subst hx
    cases g.node? x with
    | none => simp [hnew]
    | some n => simp
  · rw [if_neg hx]

theorem entry_modify (hf : ∀ n, (f n).unit = n.unit) {c : α → α}
    (hfield : ∀ n, field (f n) = c (field n)) (hnew : ∀ unit, field { unit } = absent) :
    ((g.addNode unit).modify unit f).entry field absent x =
      if x = unit then c (g.entry field absent x) else g.entry field absent x := by
  have hadded : (g.addNode unit).entry field absent x = g.entry field absent x := entry_addNode hnew
  rw [← hadded]
  unfold entry
  rw [node?_modify hf]
  by_cases hx : x = unit
  · rw [if_pos hx, if_pos hx, node?_addNode, if_pos hx]
    simp [hfield]
  · rw [if_neg hx, if_neg hx]

theorem entry_modify_of_eq (hf : ∀ n, (f n).unit = n.unit) (hfield : ∀ n, field (f n) = field n)
    (hnew : ∀ unit, field { unit } = absent) :
    ((g.addNode unit).modify unit f).entry field absent x = g.entry field absent x :=
  (entry_modify (c := id) hf hfield hnew).trans (ite_self _)

end Fields

theorem dependencies_addNode : (g.addNode unit).dependencies x = g.dependencies x := by
  rw [dependencies_eq, dependencies_eq, entry_addNode fun _ => rfl]

theorem startOf_addNode : (g.addNode unit).startOf x = g.startOf x := by
  rw [startOf_eq, startOf_eq, entry_addNode fun _ => rfl]

theorem dependencies_setStart (start : Address) :
    (g.setStart unit start).dependencies x = g.dependencies x := by
  rw [dependencies_eq, dependencies_eq]
  apply entry_modify_of_eq <;> exact fun _ => rfl

theorem startOf_setStart (start : Address) :
    (g.setStart unit start).startOf x = if x = unit then start else g.startOf x := by
  rw [startOf_eq, startOf_eq]
  apply entry_modify (c := fun _ => start) <;> exact fun _ => rfl

theorem dependencies_addDependency : (g.addDependency unit on).dependencies x =
    if x = unit then insertNew (g.dependencies x) on else g.dependencies x := by
  rw [dependencies_eq, dependencies_eq]
  simp only [addDependency]
  rw [entry_modify_of_eq, entry_modify (c := (insertNew · on))] <;> exact fun _ => rfl

theorem startOf_addDependency : (g.addDependency unit on).startOf x = g.startOf x := by
  rw [startOf_eq, startOf_eq]
  simp only [addDependency]
  rw [entry_modify_of_eq, entry_modify_of_eq] <;> exact fun _ => rfl

end Graph

namespace Discovery

variable {rest : List UnitId} {texts : List (String × String)} {resolver : Resolver}
  {tree : FileTree} {d d' d'' : Discovery} {unit : SourceUnit} {path : String} {a b : UnitId}
  {rs : List Resource}

/-! ### One include -/

theorem follow_of_resolve (hresolve : resolver.resolve tree path (some unit.resource) = .ok r)
    (hfound : d.findOrAdd tree r = (b, us)) (hunit : unit.id ∈ d.seen) :
    d.follow resolver tree unit path =
      { d with
        units := us
        graph := if b = unit.id then d.graph else d.graph.addDependency unit.id b
        seen := if b ∈ d.seen then d.seen else b :: d.seen
        pending := if b ∈ d.seen then d.pending else b :: d.pending } := by
  unfold follow
  simp only [hresolve, hfound]
  by_cases hself : b = unit.id
  · have hseen : b ∈ d.seen := hself ▸ hunit
    simp only [if_pos hself, if_pos hseen]
  · by_cases hseen : b ∈ d.seen
    · simp only [if_neg hself, if_pos hseen]
    · simp only [if_neg hself, if_neg hseen]

/-- Looking into the unit `a` puts units on the pile that had never been on it, and leaves
the other nodes as they are. -/
structure LooksInto (a : UnitId) (d d' : Discovery) : Prop where
  all : d.all <+: d'.all
  seen : d.seen ⊆ d'.seen
  piled : ∀ x ∈ d'.seen, x ∈ d.seen ∨ x ∈ d'.pending
  pending : ∀ x ∈ d.seen, x ∈ d'.pending ↔ x ∈ d.pending
  dependencies : ∀ x, x ≠ a → d'.graph.dependencies x = d.graph.dependencies x
  starts : ∀ x, d'.graph.startOf x = d.graph.startOf x

theorem LooksInto.debug (a : UnitId) (d : Discovery) (message : String) :
    d.LooksInto a (d.debug message) :=
  ⟨prefix_refl _, List.Subset.refl _, fun _ => .inl, fun _ _ => Iff.rfl, fun _ _ => rfl,
    fun _ => rfl⟩

theorem LooksInto.refl (a : UnitId) (d : Discovery) : d.LooksInto a d :=
  ⟨prefix_refl _, List.Subset.refl _, fun _ => .inl, fun _ _ => Iff.rfl, fun _ _ => rfl,
    fun _ => rfl⟩

theorem LooksInto.trans (h : d.LooksInto a d') (h' : d'.LooksInto a d'') : d.LooksInto a d'' where
  all := h.all.trans h'.all
  seen := List.Subset.trans h.seen h'.seen
  piled x hx := by
    rcases h'.piled x hx with hx' | hx'
    · rcases h.piled x hx' with hold | hnew
      · exact .inl hold
      · exact .inr ((h'.pending x hx').mpr hnew)
    · exact .inr hx'
  pending x hx := (h'.pending x (h.seen hx)).trans (h.pending x hx)
  dependencies x hx := (h'.dependencies x hx).trans (h.dependencies x hx)
  starts x := (h'.starts x).trans (h.starts x)

theorem follow_looksInto (hunit : unit.id ∈ d.seen) :
    d.LooksInto unit.id (d.follow resolver tree unit path) := by
  cases hresolve : resolver.resolve tree path (some unit.resource) with
  | error e =>
    unfold follow
    rw [hresolve]
    exact LooksInto.debug unit.id d _
  | ok r =>
    obtain ⟨b, us, hfound⟩ : ∃ b us, d.findOrAdd tree r = (b, us) := ⟨_, _, rfl⟩
    rw [follow_of_resolve hresolve hfound hunit]
    have hall : d.all <+: us.all := by
      have hgains := d.units.gains_findOrAdd hresolve
      rw [hfound] at hgains
      exact hgains.all
    refine ⟨hall, ?_, fun x hx => ?_, fun x hx => ?_, fun x hx => ?_, fun x => ?_⟩
    · by_cases hseen : b ∈ d.seen
      · simp [hseen]
      · simp [hseen]
    · by_cases hseen : b ∈ d.seen
      · simp only [if_pos hseen] at hx
        exact .inl hx
      · simp only [if_neg hseen] at hx ⊢
        rcases mem_cons.mp hx with rfl | hx
        · exact .inr mem_cons_self
        · exact .inl hx
    · by_cases hseen : b ∈ d.seen
      · simp only [if_pos hseen]
      · have hne : x ≠ b := fun he => hseen (he ▸ hx)
        simp [if_neg hseen, hne]
    · by_cases hself : b = unit.id
      · simp only [if_pos hself]
      · simp only [if_neg hself]
        rw [Graph.dependencies_addDependency, if_neg hx]
    · by_cases hself : b = unit.id
      · simp only [if_pos hself]
      · simp only [if_neg hself]
        exact Graph.startOf_addDependency

/-- The names differ, and a unit is on the pile at most once. -/
structure Orderly (d : Discovery) : Prop where
  wellFormed : d.WellFormed
  named : d.units.Named
  single : d.pending.Nodup
  pending : d.pending ⊆ d.seen

theorem Orderly.debug (h : d.Orderly) (message : String) : (d.debug message).Orderly :=
  ⟨h.wellFormed, h.named, h.single, h.pending⟩

theorem follow_orderly (h : d.Orderly) (hunit : unit.id ∈ d.seen) :
    (d.follow (.memory texts) tree unit path).Orderly := by
  cases hresolve : (Resolver.memory texts).resolve tree path (some unit.resource) with
  | error e =>
    unfold follow
    rw [hresolve]
    exact h.debug _
  | ok r =>
    obtain ⟨b, us, hfound⟩ : ∃ b us, d.findOrAdd tree r = (b, us) := ⟨_, _, rfl⟩
    have hwell := h.wellFormed.findOrAdd tree r
    have hnamed := h.named.findOrAdd (Resolver.same_of_resolve hresolve)
    rw [follow_of_resolve hresolve hfound hunit]
    rw [hfound] at hwell hnamed
    refine ⟨hwell, hnamed, ?_, ?_⟩
    · by_cases hseen : b ∈ d.seen
      · simp only [if_pos hseen]
        exact h.single
      · simp only [if_neg hseen]
        exact nodup_cons.mpr ⟨fun hin => hseen (h.pending hin), h.single⟩
    · by_cases hseen : b ∈ d.seen
      · simp only [if_pos hseen]
        exact h.pending
      · simp only [if_neg hseen]
        exact cons_subset_cons _ h.pending

/-- The node of `a` lists the units of `rs`, as far as they are other units. -/
def Listed (tree : FileTree) (d : Discovery) (a : UnitId) (rs : List Resource) : Prop :=
  ∃ bs, Forall₂ (fun r b => d.find? tree r = some b) rs bs ∧
    d.graph.dependencies a = noted a bs

theorem Listed.grow (h : d.Listed tree a rs) (hall : d.all <+: d'.all)
    (hdeps : d'.graph.dependencies a = d.graph.dependencies a) : d'.Listed tree a rs := by
  obtain ⟨bs, hbs, hnoted⟩ := h
  exact ⟨bs, hbs.imp fun _ _ => Units.find?_of_all hall, hdeps.trans hnoted⟩

theorem follow_listed (h : d.Listed tree unit.id rs) (hunit : unit.id ∈ d.seen) :
    (d.follow resolver tree unit path).Listed tree unit.id
      (rs ++ (resolver.resolve tree path (some unit.resource)).toOption.toList) := by
  cases hresolve : resolver.resolve tree path (some unit.resource) with
  | error e =>
    unfold follow
    rw [hresolve]
    simp only [Except.toOption, Option.toList_none, append_nil]
    exact h.grow (prefix_refl _) rfl
  | ok r =>
    obtain ⟨bs, hbs, hnoted⟩ := h
    obtain ⟨b, us, hfound⟩ : ∃ b us, d.findOrAdd tree r = (b, us) := ⟨_, _, rfl⟩
    have hfind := d.units.find?_findOrAdd tree r
    have hall := (d.units.gains_findOrAdd hresolve).all
    rw [follow_of_resolve hresolve hfound hunit]
    rw [hfound] at hfind hall
    refine ⟨bs ++ [b], ?_, ?_⟩
    · refine rel_append (hbs.imp fun _ _ => Units.find?_of_all hall) ?_
      exact .cons hfind .nil
    · have hlast : noted unit.id (bs ++ [b]) =
          if b = unit.id then noted unit.id bs else insertNew (noted unit.id bs) b :=
        foldl_append
      rw [hlast]
      by_cases hself : b = unit.id
      · simp only [if_pos hself]
        exact hnoted
      · simp only [if_neg hself]
        rw [Graph.dependencies_addDependency, if_pos rfl, hnoted]

/-- **Includes are followed one after another.** -/
theorem foldl_follow_tells (paths : List String) (h : d.Orderly) (hunit : unit.id ∈ d.seen)
    (hlisted : d.Listed tree unit.id rs) :
    d.LooksInto unit.id (paths.foldl (follow (.memory texts) tree unit) d) ∧
      (paths.foldl (follow (.memory texts) tree unit) d).Orderly ∧
      (paths.foldl (follow (.memory texts) tree unit) d).Listed tree unit.id
        (rs ++ paths.filterMap fun path =>
          ((Resolver.memory texts).resolve tree path (some unit.resource)).toOption) := by
  induction paths generalizing d rs with
  | nil => exact ⟨LooksInto.refl _ d, h, by simpa using hlisted⟩
  | cons first paths ih =>
    have hlooks : d.LooksInto unit.id (d.follow (.memory texts) tree unit first) :=
      follow_looksInto hunit
    obtain ⟨hlooks', horderly, hend⟩ :=
      ih (follow_orderly h hunit) (hlooks.seen hunit) (follow_listed hlisted hunit)
    rw [foldl_cons]
    refine ⟨hlooks.trans hlooks', horderly, ?_⟩
    cases hresolve : ((Resolver.memory texts).resolve tree first (some unit.resource)).toOption with
    | none | some => simpa [hresolve] using hend

/-! ### Units one after another -/

/-- What the node of `a` says is what its source asks for. -/
def Told (resolver : Resolver) (tree : FileTree) (d : Discovery) (a : UnitId) : Prop :=
  ∃ u, d.get? a = some u ∧ d.Listed tree a (u.resource.leads resolver tree) ∧
    d.graph.startOf a = u.resource.declaredStart tree

theorem Told.grow (h : d.Told resolver tree a) (hall : d.all <+: d'.all)
    (hdeps : d'.graph.dependencies a = d.graph.dependencies a)
    (hstart : d'.graph.startOf a = d.graph.startOf a) : d'.Told resolver tree a := by
  obtain ⟨u, hu, hlisted, hdeclared⟩ := h
  exact ⟨u, Units.get?_of_all hall hu, hlisted.grow hall hdeps, hstart.trans hdeclared⟩

/-- Units that have been looked into are told of as their sources ask, and of the others
nothing is told. -/
structure Faithful (texts : List (String × String)) (tree : FileTree) (d : Discovery) : Prop extends
    d.Orderly where
  blank : ∀ a, (a ∈ d.seen → a ∈ d.pending) →
    d.graph.dependencies a = [] ∧ d.graph.startOf a = 0
  told : ∀ a ∈ d.seen, a ∉ d.pending → d.Told (.memory texts) tree a

theorem Faithful.next (h : d.Faithful texts tree) (hpending : d.pending = a :: rest)
    {g : Graph} (hdeps : ∀ x, g.dependencies x = d.graph.dependencies x)
    (hstarts : ∀ x, x ≠ a → g.startOf x = d.graph.startOf x)
    (hlooks : LooksInto a { d with pending := rest, graph := g } d') (horderly : d'.Orderly)
    (htold : d'.Told (.memory texts) tree a) : d'.Faithful texts tree := by
  have hsingle := h.single
  rw [hpending, nodup_cons] at hsingle
  have hseen : a ∈ d.seen := h.pending (hpending ▸ mem_cons_self)
  have hoff : a ∉ d'.pending := fun hin => hsingle.1 ((hlooks.pending a hseen).mp hin)
  have hmem : ∀ x ∈ d.seen, x ≠ a → (x ∈ d'.pending ↔ x ∈ d.pending) := by
    intro x hx hne
    rw [hlooks.pending x hx, hpending, mem_cons, or_iff_right hne]
  refine ⟨horderly, fun x hx => ?_, fun x hx hout => ?_⟩
  · have hne : x ≠ a := fun he => hoff (he ▸ hx (he ▸ hlooks.seen hseen))
    rw [hlooks.dependencies x hne, hlooks.starts x]
    rw [hdeps, hstarts x hne]
    exact h.blank x fun hold => (hmem x hold hne).mp (hx (hlooks.seen hold))
  · by_cases hne : x = a
    · exact hne ▸ htold
    · have hold : x ∈ d.seen := (hlooks.piled x hx).resolve_right hout
      have hbefore := h.told x hold fun hin => hout ((hmem x hold hne).mpr hin)
      refine hbefore.grow hlooks.all ?_ ?_
      · exact (hlooks.dependencies x hne).trans (hdeps x)
      · exact (hlooks.starts x).trans (hstarts x hne)

/-- **Looking into a unit.** -/
theorem explore_faithful (h : d.Faithful texts tree) (hpending : d.pending = unit.id :: rest)
    (hget : d.get? unit.id = some unit) :
    ({ d with pending := rest }.explore (.memory texts) tree unit).Faithful texts tree := by
  have hseen : unit.id ∈ d.seen := h.pending (hpending ▸ mem_cons_self)
  obtain ⟨hnothing, hzero⟩ := h.blank unit.id fun _ => hpending ▸ mem_cons_self
  have horderly : ∀ g, Orderly { d with pending := rest, graph := g } := by
    have hsingle := h.single
    have hsub := h.pending
    rw [hpending] at hsingle hsub
    exact fun g => ⟨h.wellFormed, h.named, (nodup_cons.mp hsingle).2, (cons_subset.mp hsub).2⟩
  have hlisted : ∀ g : Graph, g.dependencies unit.id = [] →
      Listed tree { d with pending := rest, graph := g } unit.id [] :=
    fun g hg => ⟨[], .nil, hg⟩
  unfold explore
  cases hread : unit.resource.readText tree with
  | error e =>
    have hdeps : ∀ x, (d.graph.addNode unit.id).dependencies x = d.graph.dependencies x :=
      fun x => Graph.dependencies_addNode
    have hstarts : ∀ x, (d.graph.addNode unit.id).startOf x = d.graph.startOf x :=
      fun x => Graph.startOf_addNode
    refine h.next hpending hdeps (fun x _ => hstarts x) (LooksInto.debug _ _ _)
      ((horderly _).debug _) ?_
    refine ⟨unit, hget, ?_, ?_⟩
    · rw [Resource.leads, hread]
      exact hlisted _ ((hdeps _).trans hnothing)
    · rw [Resource.declaredStart, hread]
      exact (hstarts _).trans hzero
  | ok content =>
    have hdeps : ∀ x, (d.graph.setStart unit.id ((scanSource content).origin.getD 0)).dependencies
        x = d.graph.dependencies x := fun x => Graph.dependencies_setStart _
    have hstart := fun x =>
      @Graph.startOf_setStart d.graph unit.id x ((scanSource content).origin.getD 0)
    obtain ⟨hlooks, hend, htargets⟩ := foldl_follow_tells
      (d := { d with pending := rest, graph := d.graph.setStart unit.id _ })
      ((scanSource content).includes.map Prod.fst) (horderly _) hseen
      (hlisted _ ((hdeps _).trans hnothing))
    refine h.next hpending hdeps (fun x hx => (hstart x).trans (if_neg hx)) hlooks hend ?_
    refine ⟨unit, Units.get?_of_all hlooks.all hget, ?_, ?_⟩
    · rw [Resource.leads, hread]
      exact htargets
    · rw [Resource.declaredStart, hread, hlooks.starts]
      exact (hstart _).trans (if_pos rfl)

/-- **A run** of any number of steps. -/
theorem run_faithful (steps : ℕ) (h : d.Faithful texts tree) :
    (run (.memory texts) tree steps d).2.Faithful texts tree := by
  induction steps generalizing d with
  | zero => exact h
  | succ steps ih =>
    rw [run]
    cases hpending : d.pending with
    | nil => exact h
    | cons id rest =>
      cases hget : d.get? id with
      | none =>
        simp only [hget]
        exact h
      | some unit =>
        simp only [hget]
        obtain rfl : unit.id = id := h.wellFormed.numbered id unit hget
        exact ih (explore_faithful h hpending hget)

end Discovery

/-- **Discovery among sources in memory** tells of every unit it comes to what the source of
the unit asks for. -/
theorem discover_faithful (hw : us.WellFormed) (hnamed : us.Named) (hsingle : us.order.Nodup) :
    (discover (.memory texts) tree us).2.Faithful texts tree := by
  refine Discovery.run_faithful _ ⟨⟨hw, hnamed, nodup_reverse.mpr hsingle, ?_⟩, ?_, ?_⟩
  · exact reverse_subset.mpr (List.Subset.refl _)
  · exact fun _ _ => ⟨rfl, rfl⟩
  · exact fun a ha hout => absurd (mem_reverse.mpr ha) hout

end WordAsm
