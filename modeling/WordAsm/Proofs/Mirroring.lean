/-
# Compilations side by side

Two compilations of the same sources may start from different remains: markers have been
numbered and stores have been counted before. One program mirrors another if it is the
same up to the numbers of markers and stores (`Program.Mirrors`).

The second program may also be ahead of the first (`Program.Ahead`): it has units in its
queue already that the first one is still to find, and they are untouched. What is found
is settled by the sources, so if the first program ends with these units in this order,
the two meet at the end (`Program.Ahead.mirrors`).
-/
import WordAsm.Proofs.Renumbering
import WordAsm.Proofs.StableOrder

namespace WordAsm

open List

/-! ### Units -/

/-- The marker without its number. -/
def Marker.bare (m : Marker) : Marker := { m with id := 0 }

/-- The unit `u'` is `u` with its stores renumbered by `f`, and its markers numbered
anyhow. -/
structure SourceUnit.Mirrors (f : StoreId → StoreId) (u u' : SourceUnit) : Prop where
  id : u'.id = u.id
  resource : u'.resource = u.resource
  tree : u'.tree = u.tree.map (List.map (Node.renumber f))
  markers : u'.markers.map Marker.bare = u.markers.map Marker.bare
  start : u'.start = u.start
  stop : u'.stop = u.stop
  relocation : u'.relocation = u.relocation
  dependencies : u'.dependencies = u.dependencies
  code : u'.code = u.code
  lines : u'.lines = u.lines

namespace SourceUnit

variable {f : StoreId → StoreId} {u u' : SourceUnit}

theorem markers_markAll (u : SourceUnit) (ms : List Marker) :
    (u.markAll ms).markers.map Marker.bare = u.markers.map Marker.bare ++ ms.map Marker.bare := by
  unfold markAll
  induction ms generalizing u with
  | nil => simp
  | cons m ms ih =>
    rw [foldl_cons, ih]
    simp [mark, Marker.bare]

theorem Mirrors.identifier (h : u.Mirrors f u') : u'.identifier = u.identifier :=
  congrArg Resource.identifier h.resource

theorem Mirrors.hasErrors (h : u.Mirrors f u') : u'.hasErrors = u.hasErrors := by
  have hbare : ∀ ms : List Marker, ms.any Marker.isError =
      (ms.map Marker.bare).any Marker.isError := fun ms => by rw [any_map]; rfl
  unfold SourceUnit.hasErrors
  rw [hbare, hbare u.markers, h.markers]

theorem Mirrors.markAll (h : u.Mirrors f u') (ms : List Marker) :
    (u.markAll ms).Mirrors f (u'.markAll ms) := by
  have hmarkers : (u'.markAll ms).markers.map Marker.bare =
      (u.markAll ms).markers.map Marker.bare := by
    rw [markers_markAll, markers_markAll, h.markers]
  obtain ⟨added, next, heq, -⟩ := u.markAll_eq ms
  obtain ⟨added', next', heq', -⟩ := u'.markAll_eq ms
  rw [heq, heq'] at hmarkers ⊢
  exact ⟨h.id, h.resource, h.tree, hmarkers, h.start, h.stop, h.relocation, h.dependencies,
    h.code, h.lines⟩

theorem Mirrors.withTree (h : u.Mirrors f u') (nodes : SyntaxTree) :
    SourceUnit.Mirrors f { u with tree := some nodes }
      { u' with tree := some (nodes.map (Node.renumber f)) } :=
  ⟨h.id, h.resource, rfl, h.markers, h.start, h.stop, h.relocation, h.dependencies, h.code, h.lines⟩

theorem mirrors_of_reset (hu : u.reset = u) (hu' : u'.reset = u') (hid : u'.id = u.id)
    (hresource : u'.resource = u.resource) : u.Mirrors f u' := by
  rw [← hu, ← hu']
  exact ⟨hid, hresource, rfl, rfl, rfl, rfl, rfl, rfl, rfl, rfl⟩

end SourceUnit

/-! ### Sources that are still to be found -/

/-- The sources of `us` and their order are the first of those of `vs`. -/
structure Units.Within (us vs : Units) : Prop where
  order : us.order <+: vs.order
  sources : us.sources <+: vs.sources

namespace Units

variable {us vs ws : Units}

theorem Within.refl (us : Units) : us.Within us := ⟨prefix_refl _, prefix_refl _⟩

theorem Within.trans (h : us.Within vs) (h' : vs.Within ws) : us.Within ws :=
  ⟨h.order.trans h'.order, h.sources.trans h'.sources⟩

theorem SameSources.within (h : us.SameSources vs) : us.Within vs :=
  ⟨h.order ▸ prefix_refl _, h.sources ▸ prefix_refl _⟩

theorem Within.sameSources (h : us.Within vs) (h' : vs.Within us) : us.SameSources vs :=
  ⟨h'.order.eq_of_length_le h.order.length_le, h'.sources.eq_of_length_le h.sources.length_le⟩

theorem length_sources (us : Units) : us.sources.length = us.all.length := length_map _

theorem getElem?_sources (us : Units) (i : ℕ) :
    us.sources[i]? = (us.get? i).map fun u => (u.id, u.resource) := getElem?_map

end Units

theorem Program.Grows.within {p q : Program} (h : p.Grows q) : p.units.Within q.units := by
  refine ⟨h.order, prefix_iff_getElem?.mpr fun i hi => ?_⟩
  have hi' : i < p.all.length := p.units.length_sources ▸ hi
  obtain ⟨v, hv, huv⟩ := h.units i p.all[i] (getElem?_eq_getElem hi')
  rw [Units.getElem?_sources, hv]
  simp [Units.sources, huv.id, huv.resource]

/-! ### Programs -/

/-- The program `p'` is `p` with its stores renumbered by `f`, and its markers numbered
anyhow. -/
structure Program.Mirrors (f : StoreId → StoreId) (p p' : Program) : Prop where
  order : p'.order = p.order
  units : List.Forall₂ (SourceUnit.Mirrors f) p.all p'.all
  symbols : p'.symbols = p.symbols.renumber f

/-- The same, but `p'` may have units already that `p` is still to find. Nothing has been
done with them. -/
structure Program.Ahead (f : StoreId → StoreId) (p p' : Program) : Prop where
  order : p.order <+: p'.order
  units : ∃ front rest, p'.all = front ++ rest ∧
    List.Forall₂ (SourceUnit.Mirrors f) p.all front ∧ ∀ u ∈ rest, u.reset = u
  symbols : p'.symbols = p.symbols.renumber f

theorem modify_append_of_lt {α : Type} {xs : List α} {i : ℕ} (h : i < xs.length) (ys : List α)
    (g : α → α) : (xs ++ ys).modify i g = xs.modify i g ++ ys := by
  induction xs generalizing i with
  | nil => cases h
  | cons x xs ih =>
    cases i with
    | zero => rfl
    | succ i => exact congrArg (x :: ·) (ih (Nat.lt_of_succ_lt_succ h))

namespace Program.Mirrors

variable {f : StoreId → StoreId} {p p' : Program} (h : p.Mirrors f p')

include h

theorem get? (i : UnitId) : Option.Rel (SourceUnit.Mirrors f) (p.get? i) (p'.get? i) :=
  forall₂_getElem? h.units i

theorem hasErrors : p'.hasErrors = p.hasErrors :=
  forall₂_any h.units fun _ _ hu => hu.hasErrors.symm

theorem modifyUnit (i : UnitId) {g g' : SourceUnit → SourceUnit}
    (hg : ∀ u u' : SourceUnit, u.Mirrors f u' → (g u).Mirrors f (g' u')) :
    (p.modifyUnit i g).Mirrors f (p'.modifyUnit i g') :=
  ⟨h.order, forall₂_modify h.units hg i, h.symbols⟩

theorem mark (i : UnitId) (ms : List Marker) : (p.mark i ms).Mirrors f (p'.mark i ms) :=
  h.modifyUnit i fun _ _ hu => hu.markAll ms

theorem withSymbols (t : Table) :
    Program.Mirrors f { p with symbols := t } { p' with symbols := t.renumber f } :=
  ⟨h.order, h.units, rfl⟩

end Program.Mirrors

namespace Program.Ahead

variable {i : UnitId} {f : StoreId → StoreId} {p p' : Program}

theorem sources_front {us : List SourceUnit} {front : List SourceUnit}
    (h : Forall₂ (SourceUnit.Mirrors f) us front) :
    front.map (fun u => (u.id, u.resource)) = us.map fun u => (u.id, u.resource) := by
  induction h with
  | nil => rfl
  | cons hu _ ih => rw [map_cons, map_cons, ih, hu.id, hu.resource]

variable (h : p.Ahead f p')

include h

theorem get? {u : SourceUnit} (hu : p.get? i = some u) :
    ∃ u', p'.get? i = some u' ∧ u.Mirrors f u' := by
  obtain ⟨front, rest, hall, hfront, -⟩ := h.units
  obtain ⟨u', hu', huu⟩ := rel_some (forall₂_getElem? hfront i) hu
  refine ⟨u', ?_, huu⟩
  unfold Units.get?
  rw [hall, getElem?_append_left (List.getElem?_eq_some_iff.mp hu').1]
  exact hu'

theorem hasErrors : p'.hasErrors = p.hasErrors := by
  obtain ⟨front, rest, hall, hfront, hrest⟩ := h.units
  have hnone : rest.any SourceUnit.hasErrors = false := by
    refine any_eq_false.mpr fun u hu => ?_
    rw [← hrest u hu]
    simp [SourceUnit.hasErrors, SourceUnit.reset]
  unfold Program.hasErrors Units.hasErrors
  rw [hall, any_append, hnone, Bool.or_false]
  exact forall₂_any hfront fun _ _ hu => hu.hasErrors.symm

theorem modifyUnit (hi : i < p.all.length) {g g' : SourceUnit → SourceUnit}
    (hg : ∀ u u' : SourceUnit, u.Mirrors f u' → (g u).Mirrors f (g' u')) :
    (p.modifyUnit i g).Ahead f (p'.modifyUnit i g') := by
  obtain ⟨front, rest, hall, hfront, hrest⟩ := h.units
  refine ⟨h.order, ⟨front.modify i g', rest, ?_, forall₂_modify hfront hg i, hrest⟩, h.symbols⟩
  unfold Program.modifyUnit Units.modify
  rw [hall, modify_append_of_lt (hfront.length_eq ▸ hi)]

theorem mark (hi : i < p.all.length) (ms : List Marker) :
    (p.mark i ms).Ahead f (p'.mark i ms) :=
  h.modifyUnit hi fun _ _ hu => hu.markAll ms

theorem withSymbols (t : Table) :
    Program.Ahead f { p with symbols := t } { p' with symbols := t.renumber f } :=
  ⟨h.order, h.units, rfl⟩

theorem within : p.units.Within p'.units := by
  obtain ⟨front, rest, hall, hfront, -⟩ := h.units
  refine ⟨h.order, ?_⟩
  unfold Units.sources
  rw [hall, map_append, sources_front hfront]
  exact prefix_append _ _

/-- **A program that is not ahead any more** mirrors the other. -/
theorem mirrors (hback : p'.units.Within p.units) : p.Mirrors f p' := by
  obtain ⟨front, rest, hall, hfront, -⟩ := h.units
  have hsame := h.within.sameSources hback
  refine ⟨hsame.order, ?_, h.symbols⟩
  have hlength : p'.all.length = p.all.length := by
    rw [← Units.length_sources, ← Units.length_sources, hsame.sources]
  rw [hall, length_append, hfront.length_eq] at hlength
  obtain rfl : rest = [] := eq_nil_of_length_eq_zero (by omega)
  rw [hall, append_nil]
  exact hfront

end Program.Ahead

/-- Programs of the same sources mirror each other once they are reset, if `f` keeps their
supplies in step. -/
theorem ahead_reset {f : StoreId → StoreId} {p p' : Program} (h : p.units.Within p'.units)
    (hsupply : p'.symbols.supply = f p.symbols.supply) : p.reset.Ahead f p'.reset := by
  have hreset : ∀ us : List SourceUnit, ∀ u ∈ us.map SourceUnit.reset, u.reset = u := by
    intro us u hu
    obtain ⟨v, -, rfl⟩ := mem_map.mp hu
    rfl
  obtain ⟨rest, hrest⟩ := h.sources
  have hlength := congrArg List.length hrest
  refine ⟨h.order, ⟨(p'.all.take p.all.length).map SourceUnit.reset,
    (p'.all.drop p.all.length).map SourceUnit.reset, ?_, ?_, hreset _⟩, ?_⟩
  · rw [← map_append, take_append_drop]
    rfl
  · have htake : (p'.all.take p.all.length).map (fun u => (u.id, u.resource)) =
        p.all.map fun u => (u.id, u.resource) := by
      rw [map_take]
      show p'.sources.take _ = p.sources
      rw [← hrest, ← Units.length_sources, take_left]
    show Forall₂ _ (p.all.map SourceUnit.reset) _
    rw [forall₂_map_left_iff, forall₂_map_right_iff]
    have hpairs := forall₂_map_left_iff.mp
      (forall₂_map_right_iff.mp (forall₂_eq_eq_eq.symm ▸ htake.symm))
    refine hpairs.imp fun u u' huu => ?_
    exact SourceUnit.mirrors_of_reset rfl rfl (congrArg Prod.fst huu).symm
      (congrArg Prod.snd huu).symm
  · simp [Program.reset, Table.clear, Table.renumber, hsupply]

end WordAsm
