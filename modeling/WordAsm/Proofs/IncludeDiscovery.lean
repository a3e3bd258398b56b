/-
# What discovery finds

Looking for includes starts from the queued units and goes on until nothing is left on
the pile. Then the graph knows who includes whom: a unit is a node if it can be reached
from the queued ones, and there is an edge for every include that leads to another unit
(`Discovery.Complete`).

On the way, each unit that has been on the pile is still on it, is being looked into, or
has had all its includes followed (`Discovery.Consistent`). The steps suffice since every
step takes a unit off the pile and what it puts there is newly queued, while the measure
that bounds the queue does not rise (`Discovery.Grows.load`).
-/
import WordAsm.Proofs.IncludeGraph
import WordAsm.Proofs.Queue

namespace WordAsm

open List
open Relation (ReflTransGen)

theorem Resource.same_refl (tree : FileTree) (r : Resource) : r.same tree r = true := by
  cases r with
  | file path =>
    simp only [same]
    split
    · rename_i p q hp hq
      exact beq_iff_eq.mpr (Option.mem_unique hp hq)
    · exact beq_self_eq_true (Path.components path)
  | text | memory => simp [same, identifier]

namespace Units

variable {resolver : Resolver} {tree : FileTree} {us us' : Units} {a b : UnitId} {r : Resource}

def Leads (resolver : Resolver) (tree : FileTree) (us : Units) (a : UnitId) (r : Resource) : Prop :=
  ∃ u text path, us.get? a = some u ∧ u.resource.readText tree = .ok text ∧
    path ∈ (scanSource text).includes.map Prod.fst ∧
    resolver.resolve tree path (some u.resource) = .ok r

def Includes (resolver : Resolver) (tree : FileTree) (us : Units) (a b : UnitId) : Prop :=
  a ≠ b ∧ ∃ r, us.Leads resolver tree a r ∧ us.find? tree r = some b

/-! ### More units -/

theorem get?_of_all (h : us.all <+: us'.all) {u : SourceUnit} (hu : us.get? a = some u) :
    us'.get? a = some u := by
  obtain ⟨new, hnew⟩ := h
  unfold get?
  rw [← hnew, getElem?_append_left (get?_lt hu)]
  exact hu

theorem find?_of_all (h : us.all <+: us'.all) (hb : us.find? tree r = some b) :
    us'.find? tree r = some b := by
  obtain ⟨new, hnew⟩ := h
  obtain ⟨u, hu, rfl⟩ := Option.map_eq_some_iff.mp hb
  unfold find?
  rw [← hnew, List.find?_append, hu]
  rfl

theorem Leads.more (h : us.all <+: us'.all) (hr : us.Leads resolver tree a r) :
    us'.Leads resolver tree a r := by
  obtain ⟨u, text, path, hu, hread⟩ := hr
  exact ⟨u, text, path, get?_of_all h hu, hread⟩

theorem Leads.fewer (h : us.all <+: us'.all) (ha : (us.get? a).isSome)
    (hr : us'.Leads resolver tree a r) : us.Leads resolver tree a r := by
  obtain ⟨u, text, path, hu, hread⟩ := hr
  obtain ⟨v, hv⟩ := Option.isSome_iff_exists.mp ha
  obtain rfl : v = u := Option.some.inj ((get?_of_all h hv).symm.trans hu)
  exact ⟨v, text, path, hv, hread⟩

theorem Includes.more (h : us.all <+: us'.all) (hab : us.Includes resolver tree a b) :
    us'.Includes resolver tree a b := by
  obtain ⟨hne, r, hr, hb⟩ := hab
  exact ⟨hne, r, hr.more h, find?_of_all h hb⟩

/-! ### The unit of a resource -/

/-- There may be more units, for sources that includes lead to. -/
structure Gains (resolver : Resolver) (tree : FileTree) (us us' : Units) : Prop where
  all : us.all <+: us'.all
  fresh : ∀ u ∈ us'.all, u ∈ us.all ∨
    ∃ path parent, resolver.resolve tree path parent = .ok u.resource

theorem Gains.refl (us : Units) : us.Gains resolver tree us :=
  ⟨prefix_refl _, fun _ => .inl⟩

theorem Gains.trans {us'' : Units} (h : us.Gains resolver tree us')
    (h' : us'.Gains resolver tree us'') : us.Gains resolver tree us'' := by
  refine ⟨h.all.trans h'.all, fun u hu => ?_⟩
  rcases h'.fresh u hu with hu | hled
  · exact h.fresh u hu
  · exact .inr hled

theorem gains_findOrAdd (us : Units) {path : String} {parent : Option Resource}
    (hresolve : resolver.resolve tree path parent = .ok r) :
    us.Gains resolver tree (us.findOrAdd tree r).2 := by
  rcases us.findOrAdd_cases tree r with ⟨u, -, -, h⟩ | ⟨-, h⟩
  · rw [h]
    exact ⟨prefix_refl _, fun _ => .inl⟩
  · rw [h]
    refine ⟨prefix_append _ _, fun u hu => ?_⟩
    rcases mem_append.mp hu with hu | hu
    · exact .inl hu
    · rw [mem_singleton.mp hu]
      exact .inr ⟨path, parent, hresolve⟩

theorem find?_findOrAdd (us : Units) (tree : FileTree) (r : Resource) :
    (us.findOrAdd tree r).2.find? tree r = some (us.findOrAdd tree r).1 := by
  unfold findOrAdd
  cases h : us.find? tree r with
  | some id => exact h
  | none =>
    have hnone := Option.map_eq_none_iff.mp h
    unfold find? add
    rw [List.find?_append, hnone]
    simp [Resource.same_refl]

theorem findOrAdd_of_queued (h : us.find? tree r = some b) (hb : b ∈ us.order) :
    us.findOrAdd tree r = (b, us) := by
  unfold findOrAdd
  rw [h]
  simp [enqueue, insertNew, hb]

theorem WellFormed.findOrAdd (hw : us.WellFormed) (tree : FileTree) (r : Resource) :
    (us.findOrAdd tree r).2.WellFormed :=
  (Program.grows_findOrAdd { units := us } tree r).wellFormed hw

theorem WellFormed.order_findOrAdd (hw : us.WellFormed) (tree : FileTree) (r : Resource) :
    (us.findOrAdd tree r).2.order = insertNew us.order (us.findOrAdd tree r).1 := by
  rcases us.findOrAdd_cases tree r with ⟨u, -, -, h⟩ | ⟨-, h⟩
  · rw [h]
    rfl
  · rw [h]
    have hnew : us.all.length ∉ us.order := by
      intro hin
      obtain ⟨u, hu, -⟩ := hw.exists_get? hin
      exact Nat.lt_irrefl _ (get?_lt hu)
    simp [add, insertNew, hnew]

theorem WellFormed.findOrAdd_of_mem (hw : us.WellFormed) (h : us.findOrAdd tree r = (b, us'))
    (hb : b ∈ us.order) : us' = us := by
  cases hfind : us.find? tree r with
  | some c =>
    have hc : c = b := by
      have hfirst := congrArg Prod.fst h
      unfold Units.findOrAdd at hfirst
      rw [hfind] at hfirst
      exact hfirst
    exact congrArg Prod.snd (h.symm.trans (findOrAdd_of_queued hfind (hc ▸ hb)))
  | none =>
    -- a new unit has a number that cannot be queued
    unfold Units.findOrAdd add at h
    rw [hfind] at h
    obtain ⟨u, hu, -⟩ := hw.exists_get? hb
    have hnew : us.all.length = b := congrArg Prod.fst h
    exact absurd (get?_lt hu) (Nat.not_lt.mpr (Nat.le_of_eq hnew))

end Units

namespace Discovery

variable {resolver : Resolver} {tree : FileTree} {starts busy : List UnitId} {d d' d'' : Discovery}
  {a b : UnitId} {r : Resource} {unit : SourceUnit}

/-! ### Growth -/

/-- What discovery adds. The measure of the queue does not rise, and no more is put on the
pile than is queued. -/
structure Grows (resolver : Resolver) (tree : FileTree) (d d' : Discovery) : Prop where
  units : d.units.Gains resolver tree d'.units
  nodes : d.graph.units ⊆ d'.graph.units
  edges : ∀ a b, d.graph.DependsOn a b → d'.graph.DependsOn a b
  seen : d.seen ⊆ d'.seen
  load : d'.load (resolver.targets tree) + d'.pending.length + d.order.length ≤
    d.load (resolver.targets tree) + d.pending.length + d'.order.length

theorem Grows.refl (d : Discovery) : d.Grows resolver tree d :=
  ⟨Units.Gains.refl _, List.Subset.refl _, fun _ _ => id, List.Subset.refl _, Nat.le_refl _⟩

theorem Grows.trans (h : d.Grows resolver tree d') (h' : d'.Grows resolver tree d'') :
    d.Grows resolver tree d'' := by
  refine ⟨h.units.trans h'.units, List.Subset.trans h.nodes h'.nodes, fun a b hab => ?_,
    List.Subset.trans h.seen h'.seen, ?_⟩
  · exact h'.edges a b (h.edges a b hab)
  · have hload := h.load
    have hload' := h'.load
    omega

/-! ### The invariant -/

/-- An include of the unit `a` that leads to `r` is in the graph, unless it leads back. -/
def Followed (tree : FileTree) (d : Discovery) (a : UnitId) (r : Resource) : Prop :=
  ∃ b, d.find? tree r = some b ∧ (a ≠ b → d.graph.DependsOn a b)

def Explored (resolver : Resolver) (tree : FileTree) (d : Discovery) (a : UnitId) : Prop :=
  a ∈ d.graph.units ∧ ∀ r, d.units.Leads resolver tree a r → d.Followed tree a r

theorem Followed.grow (h : d.Grows resolver tree d') (hr : d.Followed tree a r) :
    d'.Followed tree a r := by
  obtain ⟨b, hb, hab⟩ := hr
  exact ⟨b, Units.find?_of_all h.units.all hb, fun hne => h.edges a b (hab hne)⟩

theorem Explored.grow (h : d.Grows resolver tree d') (hknown : (d.get? a).isSome)
    (ha : d.Explored resolver tree a) : d'.Explored resolver tree a :=
  ⟨h.nodes ha.1, fun r hr => (ha.2 r (hr.fewer h.units.all hknown)).grow h⟩

/-- Discovery from `starts`, with the units `busy` being looked into. -/
structure Consistent (resolver : Resolver) (tree : FileTree) (starts busy : List UnitId)
    (d : Discovery) : Prop where
  wellFormed : d.WellFormed
  queued : ∀ a, a ∈ d.seen ↔ a ∈ d.order
  pending : d.pending ⊆ d.seen
  nodes : d.graph.units ⊆ d.seen
  mirrored : d.graph.Mirrored
  edges : ∀ a b, d.graph.DependsOn a b → d.Includes resolver tree a b
  begun : starts ⊆ d.seen
  reached : ∀ a ∈ d.seen, ∃ s ∈ starts, ReflTransGen (d.Includes resolver tree) s a
  explored : ∀ a ∈ d.seen, a ∈ d.pending ∨ a ∈ busy ∨ d.Explored resolver tree a

namespace Consistent

variable (h : d.Consistent resolver tree starts busy)
include h

theorem known (ha : a ∈ d.seen) : (d.get? a).isSome :=
  h.wellFormed.queued a ((h.queued a).mp ha)

theorem debug (message : String) : (d.debug message).Consistent resolver tree starts busy :=
  ⟨h.wellFormed, h.queued, h.pending, h.nodes, h.mirrored, h.edges, h.begun, h.reached, h.explored⟩

theorem explored_grow (hgrows : d.Grows resolver tree d') (hpending : d.pending ⊆ d'.pending)
    (ha : a ∈ d.seen) : a ∈ d'.pending ∨ a ∈ busy ∨ d'.Explored resolver tree a := by
  rcases h.explored a ha with hwaiting | hbusy | hdone
  · exact .inl (hpending hwaiting)
  · exact .inr (.inl hbusy)
  · exact .inr (.inr (hdone.grow hgrows (h.known ha)))

/-- The graph may get more nodes, of units that have been on the pile, and more edges,
of includes. -/
theorem withGraph {g : Graph} (hmirrored : g.Mirrored)
    (hnodes : d.graph.units ⊆ g.units) (hseen : g.units ⊆ d.seen)
    (hedges : ∀ x y, d.graph.DependsOn x y → g.DependsOn x y)
    (hincludes : ∀ x y, g.DependsOn x y → d.Includes resolver tree x y) :
    { d with graph := g }.Consistent resolver tree starts busy ∧
      d.Grows resolver tree { d with graph := g } := by
  have hgrows : d.Grows resolver tree { d with graph := g } :=
    ⟨Units.Gains.refl _, hnodes, hedges, List.Subset.refl _, Nat.le_refl _⟩
  refine ⟨⟨h.wellFormed, h.queued, h.pending, hseen, hmirrored, hincludes, h.begun, h.reached,
    fun x hx => ?_⟩, hgrows⟩
  exact h.explored_grow hgrows (List.Subset.refl _) hx

theorem queue (ha : a ∈ d.seen) (hr : d.units.Leads resolver tree a r)
    (hb : (d.findOrAdd tree r).1 = b) (hnew : b ∉ d.seen) :
    { d with units := (d.findOrAdd tree r).2, seen := b :: d.seen,
             pending := b :: d.pending }.Consistent resolver tree starts busy ∧
      d.Grows resolver tree { d with units := (d.findOrAdd tree r).2, seen := b :: d.seen,
                                     pending := b :: d.pending } := by
  have ⟨_, _, _, _, _, _, hresolve⟩ := hr
  have hgains := d.units.gains_findOrAdd hresolve
  have hall := hgains.all
  have horder : (d.findOrAdd tree r).2.order = d.order ++ [b] := by
    rw [h.wellFormed.order_findOrAdd, hb, insertNew, if_neg fun hin => hnew ((h.queued b).mpr hin)]
  have hgrows : d.Grows resolver tree { d with
      units := (d.findOrAdd tree r).2, seen := b :: d.seen, pending := b :: d.pending } := by
    refine ⟨hgains, List.Subset.refl _, fun _ _ => id, subset_cons_self _ _, ?_⟩
    have hload := @Units.load_findOrAdd d.units { resolver } tree _ _ r h.wellFormed hresolve
    simp only [horder, length_cons, length_append, length_nil] at hload ⊢
    omega
  have hreach : ∀ x ∈ d.seen, ∃ s ∈ starts,
      ReflTransGen ((d.findOrAdd tree r).2.Includes resolver tree) s x := by
    intro x hx
    obtain ⟨s, hs, hsx⟩ := h.reached x hx
    exact ⟨s, hs, ReflTransGen.mono (fun _ _ hedge => Units.Includes.more hall hedge) s x hsx⟩
  refine ⟨⟨h.wellFormed.findOrAdd tree r, fun x => ?_, ?_, ?_, h.mirrored, fun x y hxy => ?_, ?_,
    fun x hx => ?_, fun x hx => ?_⟩, hgrows⟩
  · rw [horder, mem_cons, mem_append, mem_singleton, h.queued, or_comm]
  · exact cons_subset_cons b h.pending
  · exact subset_cons_of_subset b h.nodes
  · exact (h.edges x y hxy).more hall
  · exact subset_cons_of_subset b h.begun
  · rcases mem_cons.mp hx with rfl | hx
    · obtain ⟨s, hs, hsa⟩ := hreach a ha
      refine ⟨s, hs, hsa.tail ⟨fun hax => hnew (hax ▸ ha), r, hr.more hall, ?_⟩⟩
      rw [Units.find?_findOrAdd, hb]
    · exact hreach x hx
  · rcases mem_cons.mp hx with rfl | hx
    · exact .inl mem_cons_self
    · exact h.explored_grow hgrows (subset_cons_self _ _) hx

theorem link (ha : a ∈ d.seen) (hb : b ∈ d.seen) (hab : d.Includes resolver tree a b) :
    { d with graph := d.graph.addDependency a b }.Consistent resolver tree starts busy ∧
      d.Grows resolver tree { d with graph := d.graph.addDependency a b } := by
  have hunits : ∀ x, x ∈ (d.graph.addDependency a b).units ↔
      (x ∈ d.graph.units ∨ x = a) ∨ x = b := by
    intro x
    rw [Graph.units_addDependency, Units.mem_insertNew, Units.mem_insertNew]
  refine h.withGraph (h.mirrored.addDependency a b) (fun x hx => ?_) (fun x hx => ?_)
    (fun x y hxy => ?_) (fun x y hxy => ?_)
  · exact (hunits x).mpr (.inl (.inl hx))
  · rcases (hunits x).mp hx with (hx | rfl) | rfl
    · exact h.nodes hx
    · exact ha
    · exact hb
  · exact Graph.dependsOn_addDependency.mpr (.inl hxy)
  · rcases Graph.dependsOn_addDependency.mp hxy with hxy | ⟨rfl, rfl⟩
    · exact h.edges x y hxy
    · exact hab

end Consistent

/-! ### Steps -/

/-- **Following an include.** -/
theorem follow_consistent {text path : String} (h : d.Consistent resolver tree starts busy)
    (hunit : unit.id ∈ d.seen) (hget : d.get? unit.id = some unit)
    (hread : unit.resource.readText tree = .ok text)
    (hpath : path ∈ (scanSource text).includes.map Prod.fst) :
    (d.follow resolver tree unit path).Consistent resolver tree starts busy ∧
      d.Grows resolver tree (d.follow resolver tree unit path) ∧
      ∀ r, resolver.resolve tree path (some unit.resource) = .ok r →
        (d.follow resolver tree unit path).Followed tree unit.id r := by
  unfold follow
  cases hresolve : resolver.resolve tree path (some unit.resource) with
  | error e =>
    refine ⟨h.debug _, ?_, fun r hr => by cases hr⟩
    exact ⟨Units.Gains.refl _, List.Subset.refl _, fun _ _ => id, List.Subset.refl _, Nat.le_refl _⟩
  | ok r =>
    obtain ⟨b, us, hfound⟩ : ∃ b us, d.findOrAdd tree r = (b, us) := ⟨_, _, rfl⟩
    have hfind : us.find? tree r = some b := by
      have hfind := d.units.find?_findOrAdd tree r
      rwa [hfound] at hfind
    have hleads : d.units.Leads resolver tree unit.id r :=
      ⟨unit, text, path, hget, hread, hpath, hresolve⟩
    simp only [hfound, Except.ok.injEq, forall_eq']
    by_cases hseen : b ∈ d.seen
    · obtain rfl : us = d.units := h.wellFormed.findOrAdd_of_mem hfound ((h.queued b).mp hseen)
      by_cases hself : b = unit.id
      · rw [if_pos hself]
        exact ⟨h, Grows.refl d, b, hfind, fun hne => absurd hself.symm hne⟩
      · rw [if_neg hself, if_pos hseen]
        have hlinked := h.link hunit hseen ⟨Ne.symm hself, r, hleads, hfind⟩
        refine ⟨hlinked.1, hlinked.2, b, hfind, fun _ => ?_⟩
        exact Graph.dependsOn_addDependency.mpr (.inr ⟨rfl, rfl⟩)
    · have hself : b ≠ unit.id := fun he => hseen (he ▸ hunit)
      rw [if_neg hself, if_neg hseen]
      obtain ⟨hqueued, hgrows⟩ := h.queue hunit hleads (congrArg Prod.fst hfound) hseen
      simp only [hfound] at hqueued hgrows
      have hlinked := hqueued.link (hgrows.seen hunit) mem_cons_self
        ⟨Ne.symm hself, r, hleads.more hgrows.units.all, hfind⟩
      refine ⟨hlinked.1, hgrows.trans hlinked.2, b, hfind, fun _ => ?_⟩
      exact Graph.dependsOn_addDependency.mpr (.inr ⟨rfl, rfl⟩)

theorem foldl_follow_consistent {text : String} (paths : List String)
    (h : d.Consistent resolver tree starts busy) (hunit : unit.id ∈ d.seen)
    (hget : d.get? unit.id = some unit) (hread : unit.resource.readText tree = .ok text)
    (hpaths : paths ⊆ (scanSource text).includes.map Prod.fst) :
    (paths.foldl (follow resolver tree unit) d).Consistent resolver tree starts busy ∧
      d.Grows resolver tree (paths.foldl (follow resolver tree unit) d) ∧
      ∀ path ∈ paths, ∀ r, resolver.resolve tree path (some unit.resource) = .ok r →
        (paths.foldl (follow resolver tree unit) d).Followed tree unit.id r := by
  induction paths generalizing d with
  | nil => exact ⟨h, Grows.refl d, fun path hpath => by cases hpath⟩
  | cons first paths ih =>
    obtain ⟨hfirst, hrest⟩ := cons_subset.mp hpaths
    obtain ⟨hstep, hgrows, hfollowed⟩ := follow_consistent h hunit hget hread hfirst
    obtain ⟨hend, hgrows', hfollowed'⟩ :=
      ih hstep (hgrows.seen hunit) (Units.get?_of_all hgrows.units.all hget) hrest
    refine ⟨hend, hgrows.trans hgrows', fun path hpath r hr => ?_⟩
    rcases mem_cons.mp hpath with rfl | hpath
    · exact (hfollowed r hr).grow hgrows'
    · exact hfollowed' path hpath r hr

theorem Consistent.close (h : d.Consistent resolver tree starts [a])
    (ha : d.Explored resolver tree a) : d.Consistent resolver tree starts [] := by
  refine ⟨h.wellFormed, h.queued, h.pending, h.nodes, h.mirrored, h.edges, h.begun, h.reached,
    fun x hx => ?_⟩
  rcases h.explored x hx with hpending | hbusy | hdone
  · exact .inl hpending
  · exact .inr (.inr (mem_singleton.mp hbusy ▸ ha))
  · exact .inr (.inr hdone)

/-- **Looking into a unit.** -/
theorem explore_consistent (h : d.Consistent resolver tree starts [unit.id])
    (hunit : unit.id ∈ d.seen) (hget : d.get? unit.id = some unit) :
    (d.explore resolver tree unit).Consistent resolver tree starts [] ∧
      d.Grows resolver tree (d.explore resolver tree unit) := by
  have hnode : ∀ g : Graph, g.Mirrored → g.units = insertNew d.graph.units unit.id →
      (∀ x y, g.DependsOn x y ↔ d.graph.DependsOn x y) →
      { d with graph := g }.Consistent resolver tree starts [unit.id] ∧
        d.Grows resolver tree { d with graph := g } ∧ unit.id ∈ g.units := by
    intro g hg hunits hedges
    have hmem : ∀ x, x ∈ g.units ↔ x ∈ d.graph.units ∨ x = unit.id :=
      fun x => hunits ▸ Units.mem_insertNew _ _ _
    have hwith := h.withGraph hg (fun x hx => (hmem x).mpr (.inl hx))
      (fun x hx => ((hmem x).mp hx).elim (fun hx => h.nodes hx) fun hx => hx ▸ hunit)
      (fun x y => (hedges x y).mpr) (fun x y hxy => h.edges x y ((hedges x y).mp hxy))
    exact ⟨hwith.1, hwith.2, (hmem _).mpr (.inr rfl)⟩
  unfold explore
  cases hread : unit.resource.readText tree with
  | error e =>
    obtain ⟨hadded, hgrows, hin⟩ := hnode _ (h.mirrored.addNode unit.id)
      (Graph.units_addNode _ _) fun x y => by
        rw [Graph.dependsOn_iff, Graph.dependsOn_iff,
          Graph.notes_addNode fun _ => rfl]
    refine ⟨(hadded.debug _).close ⟨hin, fun r hr => ?_⟩, ?_⟩
    · -- what cannot be read leads nowhere
      obtain ⟨u, text, path, hu, htext, -⟩ := hr
      obtain rfl : unit = u := Option.mem_unique hget hu
      rw [hread] at htext
      cases htext
    · exact ⟨hgrows.units, hgrows.nodes, hgrows.edges, hgrows.seen, hgrows.load⟩
  | ok text =>
    obtain ⟨hstarted, hgrows, hin⟩ := hnode _
      (h.mirrored.setStart unit.id ((scanSource text).origin.getD 0))
      (Graph.units_setStart _ _ _) fun x y => by
        rw [Graph.dependsOn_iff, Graph.dependsOn_iff,
          Graph.notes_setStart (fun _ => rfl) _ fun _ => rfl]
    obtain ⟨hend, hgrows', hfollowed⟩ := foldl_follow_consistent
      ((scanSource text).includes.map Prod.fst) hstarted hunit hget hread (List.Subset.refl _)
    refine ⟨hend.close ⟨hgrows'.nodes hin, fun r hr => ?_⟩, hgrows.trans hgrows'⟩
    obtain ⟨u, text', path, hu, htext, hpath, hresolve⟩ := hr
    have hget' := Units.get?_of_all hgrows'.units.all hget
    obtain rfl : unit = u := Option.mem_unique hget' hu
    obtain rfl : text = text' := Except.ok.inj (hread.symm.trans htext)
    exact hfollowed path hpath r hresolve

/-! ### Runs -/

/-- Discovery has come to its end. -/
structure Complete (resolver : Resolver) (tree : FileTree) (starts : List UnitId)
    (d : Discovery) : Prop where
  consistent : d.Consistent resolver tree starts []
  finished : d.pending = []

/-- **A run** with enough steps comes to its end. -/
theorem run_complete (steps : ℕ) (h : d.Consistent resolver tree starts [])
    (hsteps : d.load (resolver.targets tree) + d.pending.length ≤
      d.order.length + steps) :
    ∃ d', run resolver tree steps d = (.ok d'.graph, d') ∧
      d'.Complete resolver tree starts ∧ d.units.Gains resolver tree d'.units := by
  induction steps generalizing d with
  | zero =>
    have hload := Units.order_le_load d.units (resolver.targets tree)
    have hnone : d.pending = [] := eq_nil_of_length_eq_zero (by omega)
    exact ⟨d, rfl, ⟨h, hnone⟩, Units.Gains.refl _⟩
  | succ steps ih =>
    rw [run]
    cases hpending : d.pending with
    | nil => exact ⟨d, rfl, ⟨h, hpending⟩, Units.Gains.refl _⟩
    | cons id pending =>
      have hseen : id ∈ d.seen := h.pending (hpending ▸ mem_cons_self)
      obtain ⟨unit, hget⟩ := Option.isSome_iff_exists.mp (h.known hseen)
      obtain rfl : unit.id = id := h.wellFormed.numbered id unit hget
      have htaken : { d with pending }.Consistent resolver tree starts [unit.id] := by
        refine ⟨h.wellFormed, h.queued, fun x hx => ?_, h.nodes, h.mirrored, h.edges, h.begun,
          h.reached, fun x hx => ?_⟩
        · exact h.pending (hpending ▸ mem_cons_of_mem _ hx)
        · rcases h.explored x hx with hx | hx | hx
          · rw [hpending] at hx
            rcases mem_cons.mp hx with rfl | hx
            · exact .inr (.inl (mem_singleton_self _))
            · exact .inl hx
          · cases hx
          · exact .inr (.inr hx)
      obtain ⟨hexplored, hgrows⟩ := explore_consistent htaken hseen hget
      have hload := hgrows.load
      rw [hpending, length_cons] at hsteps
      obtain ⟨d', hrun, hcomplete, hgains⟩ := ih hexplored (by simp only at hload ⊢; omega)
      refine ⟨d', ?_, hcomplete, hgrows.units.trans hgains⟩
      simp only [hget]
      exact hrun

namespace Complete

variable (h : d.Complete resolver tree starts)
include h

theorem explored (ha : a ∈ d.order) : d.Explored resolver tree a := by
  rcases h.consistent.explored a ((h.consistent.queued a).mpr ha) with hx | hx | hx
  · rw [h.finished] at hx
    cases hx
  · cases hx
  · exact hx

theorem mem_nodes : a ∈ d.graph.units ↔ a ∈ d.order :=
  ⟨fun ha => (h.consistent.queued a).mp (h.consistent.nodes ha), fun ha => (h.explored ha).1⟩

/-- **The edges** are the includes. -/
theorem dependsOn_iff (ha : a ∈ d.order) :
    d.graph.DependsOn a b ↔ d.Includes resolver tree a b := by
  refine ⟨h.consistent.edges a b, fun ⟨hne, r, hr, hb⟩ => ?_⟩
  obtain ⟨c, hc, hdepends⟩ := (h.explored ha).2 r hr
  obtain rfl : b = c := Option.mem_unique hb hc
  exact hdepends hne

theorem mem_order_of_includes (ha : a ∈ d.order)
    (hab : d.Includes resolver tree a b) : b ∈ d.order :=
  h.mem_nodes.mp (h.consistent.mirrored.mem_units_of_dependsOn ((h.dependsOn_iff ha).mpr hab))

theorem mem_order_of_reaches (ha : a ∈ d.order)
    (hab : ReflTransGen (d.Includes resolver tree) a b) : b ∈ d.order := by
  induction hab with
  | refl => exact ha
  | tail _ hedge ih => exact h.mem_order_of_includes ih hedge

/-- **The nodes** are the units that can be reached. -/
theorem mem_order : a ∈ d.order ↔
    ∃ s ∈ starts, ReflTransGen (d.Includes resolver tree) s a := by
  constructor
  · exact fun ha => h.consistent.reached a ((h.consistent.queued a).mpr ha)
  · rintro ⟨s, hs, hsa⟩
    exact h.mem_order_of_reaches ((h.consistent.queued s).mp (h.consistent.begun hs)) hsa

/-- **The roots** are the nodes that no unit includes. -/
theorem mem_roots : a ∈ d.graph.roots ↔
    a ∈ d.order ∧ ∀ b ∈ d.order, ¬ d.Includes resolver tree b a := by
  rw [h.consistent.mirrored.mem_roots, h.mem_nodes]
  refine and_congr_right fun _ => ⟨fun hfree b hb hedge => ?_, fun hfree b hedge => ?_⟩
  · exact hfree b ((h.dependsOn_iff hb).mpr hedge)
  · have hnode : b ∈ d.graph.units :=
      Graph.mem_units_of_dependencies (ne_nil_of_mem hedge)
    exact hfree b (h.mem_nodes.mp hnode) (h.consistent.edges b a hedge)

theorem reflTransGen_iff (ha : a ∈ d.order) :
    ReflTransGen d.graph.DependsOn a b ↔ ReflTransGen (d.Includes resolver tree) a b := by
  constructor
  · exact ReflTransGen.mono h.consistent.edges a b
  · intro hab
    induction hab using ReflTransGen.head_induction_on with
    | refl => exact .refl
    | head hedge _ ih =>
      exact .head ((h.dependsOn_iff ha).mpr hedge) (ih (h.mem_order_of_includes ha hedge))

end Complete

end Discovery

/-- **Discovery** from the queued units. -/
theorem discover_complete {resolver : Resolver} {tree : FileTree} {us : Units}
    (hw : us.WellFormed) :
    ∃ d, discover resolver tree us = (.ok d.graph, d) ∧
      d.Complete resolver tree us.order ∧ us.Gains resolver tree d.units := by
  refine Discovery.run_complete _ ?_ ?_
  · refine ⟨hw, fun _ => Iff.rfl, reverse_subset.mpr (List.Subset.refl _),
      nil_subset _, Graph.Mirrored.empty, fun a b hab => ?_, List.Subset.refl _,
      fun a ha => ⟨a, ha, .refl⟩, fun a ha => .inl (mem_reverse.mpr ha)⟩
    cases hab
  · have hload := us.load_le (resolver.targets tree)
    have hreach := resolver.length_targets tree
    simp only [length_reverse]
    omega

end WordAsm
