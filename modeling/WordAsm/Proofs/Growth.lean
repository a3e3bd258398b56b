/-
# What a build keeps

Nothing that works on a program removes a unit, a marker or a queued number:
programs grow. `Program.Grows p q` says so, and every change that a phase makes
is an instance of it. Since markers stay, a program without errors has never
had any, which is what lets a successful compilation be read backwards.

Units are numbered by their positions, and only known units are queued
(`Units.WellFormed`). That is how programs are made, and every change keeps it.
-/
import WordAsm.Build.Build
import Mathlib.Data.List.Basic

namespace WordAsm

open List

variable {i id : UnitId} {us : Units} {u : SourceUnit} {p q : Program}

namespace Units

variable {α : Type}

/-- Units are numbered by their positions, and only known units are queued. -/
structure WellFormed (us : Units) : Prop where
  numbered : ∀ i u, us.get? i = some u → u.id = i
  queued : ∀ i ∈ us.order, (us.get? i).isSome

theorem WellFormed.exists_get? (h : us.WellFormed) (hi : i ∈ us.order) :
    ∃ u, us.get? i = some u ∧ u.id = i := by
  obtain ⟨u, hu⟩ := Option.isSome_iff_exists.mp (h.queued i hi)
  exact ⟨u, hu, h.numbered i u hu⟩

theorem get?_modify (us : Units) (id i : UnitId) (f : SourceUnit → SourceUnit) :
    (us.modify id f).get? i = if id = i then (us.get? i).map f else us.get? i := by
  unfold modify get?
  rw [getElem?_modify]
  split
  · rfl
  · cases us.all[i]? <;> rfl

theorem get?_modify_self (us : Units) (id : UnitId) (f : SourceUnit → SourceUnit) :
    (us.modify id f).get? id = (us.get? id).map f := by
  rw [get?_modify, if_pos rfl]

theorem get?_modify_of_ne (us : Units) (f : SourceUnit → SourceUnit) (h : id ≠ i) :
    (us.modify id f).get? i = us.get? i := by
  rw [get?_modify, if_neg h]

@[simp] theorem order_modify (us : Units) (id : UnitId) (f : SourceUnit → SourceUnit) :
    (us.modify id f).order = us.order := rfl

@[simp] theorem length_all_modify (us : Units) (id : UnitId) (f : SourceUnit → SourceUnit) :
    (us.modify id f).all.length = us.all.length := by
  simp [modify]

theorem get?_lt (h : us.get? id = some u) : id < us.all.length :=
  (List.getElem?_eq_some_iff.mp h).1

theorem mem_all_iff : u ∈ us.all ↔ ∃ i, us.get? i = some u :=
  mem_iff_getElem?

theorem mem_ordered_iff : u ∈ us.ordered ↔ ∃ id ∈ us.order, us.get? id = some u :=
  mem_filterMap

theorem get?_add_of_lt (us : Units) (r : Resource) (h : i < us.all.length) :
    (us.add r).2.get? i = us.get? i := by
  unfold add get?
  rw [getElem?_append_left h]

theorem get?_add_new (us : Units) (r : Resource) :
    (us.add r).2.get? us.all.length = some { id := us.all.length, resource := r } := by
  unfold add get?
  rw [getElem?_append_right (Nat.le_refl _), Nat.sub_self, getElem?_cons_zero]

theorem get?_add (us : Units) (r : Resource) (i : UnitId) :
    (us.add r).2.get? i =
      if i = us.all.length then some { id := us.all.length, resource := r } else us.get? i := by
  split
  · rename_i h
    rw [h, get?_add_new]
  · rename_i h
    rcases Nat.lt_or_gt_of_ne h with hlt | hgt
    · exact get?_add_of_lt us r hlt
    · unfold add get?
      rw [getElem?_eq_none (by simp only [length_append, length_singleton]; omega),
        getElem?_eq_none (by omega)]

theorem prefix_insertNew [DecidableEq α] (xs : List α) (a : α) : xs <+: insertNew xs a := by
  unfold insertNew
  split
  · exact prefix_refl xs
  · exact prefix_append xs [a]

theorem mem_insertNew [DecidableEq α] (xs : List α) (a b : α) :
    b ∈ insertNew xs a ↔ b ∈ xs ∨ b = a := by
  unfold insertNew
  split
  · constructor
    · exact .inl
    · rintro (h | rfl)
      · exact h
      · assumption
  · rw [mem_append, mem_singleton]

theorem findOrAdd_cases (us : Units) (tree : FileTree) (r : Resource) :
    (∃ u ∈ us.all, u.resource.same tree r = true ∧ us.findOrAdd tree r = (u.id, us.enqueue u.id)) ∨
    ((∀ u ∈ us.all, u.resource.same tree r = false) ∧ us.findOrAdd tree r = us.add r) := by
  unfold findOrAdd find?
  cases h : us.all.find? fun unit => unit.resource.same tree r with
  | none =>
    refine .inr ⟨fun u hu => ?_, rfl⟩
    have hne := List.find?_eq_none.mp h u hu
    simpa using hne
  | some u =>
    refine .inl ⟨u, mem_of_find?_eq_some h, ?_, rfl⟩
    have hs := find?_some h
    exact hs

end Units

namespace SourceUnit

variable {v : SourceUnit}

/-- A unit that still is the same source, with its markers and perhaps more. -/
structure Grows (u v : SourceUnit) : Prop where
  id : v.id = u.id
  resource : v.resource = u.resource
  markers : u.markers <+: v.markers

theorem Grows.refl (u : SourceUnit) : u.Grows u := ⟨rfl, rfl, prefix_refl _⟩

theorem Grows.trans {w : SourceUnit} (h : u.Grows v) (h' : v.Grows w) : u.Grows w :=
  ⟨h'.id.trans h.id, h'.resource.trans h.resource, h.markers.trans h'.markers⟩

theorem Grows.hasErrors (h : u.Grows v) (hu : u.hasErrors = true) : v.hasErrors = true := by
  obtain ⟨m, hm, he⟩ := any_eq_true.mp hu
  exact any_eq_true.mpr ⟨m, h.markers.subset hm, he⟩

theorem grows_mark (u : SourceUnit) (m : Marker) : u.Grows (u.mark m) :=
  ⟨rfl, rfl, prefix_append _ _⟩

theorem grows_markAll (u : SourceUnit) (ms : List Marker) : u.Grows (u.markAll ms) := by
  induction ms generalizing u with
  | nil => exact Grows.refl u
  | cons m ms ih => exact (grows_mark u m).trans (ih (u.mark m))

theorem markAll_eq (u : SourceUnit) (ms : List Marker) :
    ∃ added next, u.markAll ms = { u with markers := u.markers ++ added, nextMarker := next } ∧
      ∀ a ∈ added, ∃ m ∈ ms, a.kind = m.kind := by
  unfold markAll
  induction ms generalizing u with
  | nil => exact ⟨[], u.nextMarker, by simp, by simp⟩
  | cons m ms ih =>
    obtain ⟨added, next, h, hkind⟩ := ih (u.mark m)
    refine ⟨{ m with id := u.nextMarker } :: added, next, ?_, ?_⟩
    · rw [foldl_cons, h]
      simp [mark]
    · intro a ha
      rcases mem_cons.mp ha with rfl | ha
      · exact ⟨m, mem_cons_self, rfl⟩
      · obtain ⟨m', hm', hk⟩ := hkind a ha
        exact ⟨m', mem_cons_of_mem _ hm', hk⟩

theorem hasErrors_markAll (u : SourceUnit) (ms : List Marker) :
    (u.markAll ms).hasErrors = (u.hasErrors || ms.any Marker.isError) := by
  unfold markAll
  induction ms generalizing u with
  | nil => simp
  | cons m ms ih =>
    rw [foldl_cons, ih (u.mark m), any_cons, ← Bool.or_assoc]
    congr 1
    simp [hasErrors, mark, Marker.isError]

theorem noErrors_of_markAll {ms : List Marker} (h : (u.markAll ms).hasErrors = false) :
    ∀ m ∈ ms, m.isError = false := by
  rw [hasErrors_markAll, Bool.or_eq_false_iff, any_eq_false] at h
  exact fun m hm => by simpa using h.2 m hm

end SourceUnit

namespace Program

variable {r : Resource} {f : SourceUnit → SourceUnit} {ms : List Marker} {tree : FileTree}
  {k : UnitId}

/-- A program that still has the units, the queue and the markers it had. -/
structure Grows (p q : Program) : Prop where
  order : p.order <+: q.order
  units : ∀ i u, p.get? i = some u → ∃ v, q.get? i = some v ∧ u.Grows v
  wellFormed : p.WellFormed → q.WellFormed

theorem Grows.refl (p : Program) : p.Grows p :=
  ⟨prefix_refl _, fun _ u h => ⟨u, h, SourceUnit.Grows.refl u⟩, id⟩

theorem Grows.trans {r : Program} (h : p.Grows q) (h' : q.Grows r) : p.Grows r := by
  refine ⟨h.order.trans h'.order, fun i u hu => ?_, fun hw => h'.wellFormed (h.wellFormed hw)⟩
  obtain ⟨v, hv, huv⟩ := h.units i u hu
  obtain ⟨w, hw, hvw⟩ := h'.units i v hv
  exact ⟨w, hw, huv.trans hvw⟩

theorem Grows.known (h : p.Grows q) (hi : (p.get? i).isSome) : (q.get? i).isSome := by
  obtain ⟨u, hu⟩ := Option.isSome_iff_exists.mp hi
  obtain ⟨v, hv, -⟩ := h.units i u hu
  exact Option.isSome_iff_exists.mpr ⟨v, hv⟩

theorem Grows.ordered (h : p.Grows q) (hu : u ∈ p.ordered) :
    ∃ v ∈ q.ordered, u.Grows v := by
  obtain ⟨id, hid, hget⟩ := Units.mem_ordered_iff.mp hu
  obtain ⟨v, hv, huv⟩ := h.units id u hget
  exact ⟨v, Units.mem_ordered_iff.mpr ⟨id, h.order.subset hid, hv⟩, huv⟩

theorem noErrors_get? (hp : p.hasErrors = false) (hu : p.get? i = some u) :
    u.hasErrors = false := by
  unfold hasErrors Units.hasErrors at hp
  rw [any_eq_false] at hp
  simpa using hp u (Units.mem_all_iff.mpr ⟨i, hu⟩)

theorem Grows.noErrors (h : p.Grows q) (hq : q.hasErrors = false) : p.hasErrors = false := by
  rw [Bool.eq_false_iff]
  intro hp
  obtain ⟨u, hu, he⟩ := any_eq_true.mp hp
  obtain ⟨i, hi⟩ := Units.mem_all_iff.mp hu
  obtain ⟨v, hv, huv⟩ := h.units i u hi
  exact absurd ((noErrors_get? hq hv).symm.trans (huv.hasErrors he)) Bool.false_ne_true

theorem hasErrors_of_get? (hu : p.get? i = some u) (he : u.hasErrors = true) :
    p.hasErrors = true := by
  exact any_eq_true.mpr ⟨u, Units.mem_all_iff.mpr ⟨i, hu⟩, he⟩

theorem grows_of_units_eq (h : q.units = p.units) : p.Grows q := by
  obtain ⟨us, t⟩ := q
  subst h
  exact ⟨prefix_refl _, fun _ u h => ⟨u, h, SourceUnit.Grows.refl u⟩, id⟩

theorem get?_modifyUnit_cases {w : SourceUnit} (h : (p.modifyUnit id f).get? i = some w) :
    (i = id ∧ ∃ v, p.get? id = some v ∧ w = f v) ∨ (i ≠ id ∧ p.get? i = some w) := by
  unfold modifyUnit at h
  rw [Units.get?_modify] at h
  split at h
  · rename_i hid
    subst hid
    obtain ⟨v, hv, rfl⟩ := Option.map_eq_some_iff.mp h
    exact .inl ⟨rfl, v, hv, rfl⟩
  · rename_i hid
    exact .inr ⟨Ne.symm hid, h⟩

theorem grows_modifyUnit (p : Program) (id : UnitId) (hf : ∀ u : SourceUnit, u.Grows (f u)) :
    p.Grows (p.modifyUnit id f) := by
  have hunits : ∀ i u, p.get? i = some u →
      ∃ v, (p.modifyUnit id f).get? i = some v ∧ u.Grows v := by
    intro i u hu
    unfold modifyUnit
    rw [Units.get?_modify]
    split
    · exact ⟨f u, by rw [hu]; rfl, hf u⟩
    · exact ⟨u, hu, SourceUnit.Grows.refl u⟩
  refine ⟨prefix_refl _, hunits, fun hw => ⟨fun i u hu => ?_, fun i hi => ?_⟩⟩
  · rcases get?_modifyUnit_cases hu with ⟨rfl, v, hv, rfl⟩ | ⟨-, hu⟩
    · rw [(hf v).id]
      exact hw.numbered _ v hv
    · exact hw.numbered i u hu
  · obtain ⟨u, hu, -⟩ := hw.exists_get? hi
    obtain ⟨v, hv, -⟩ := hunits i u hu
    exact Option.isSome_iff_exists.mpr ⟨v, hv⟩

theorem grows_mark (p : Program) (id : UnitId) (ms : List Marker) : p.Grows (p.mark id ms) :=
  grows_modifyUnit p id fun u => SourceUnit.grows_markAll u ms

theorem grows_add (p : Program) (r : Resource) : p.Grows { p with units := (p.add r).2 } := by
  refine ⟨prefix_append _ _, fun i u hu => ⟨u, ?_, SourceUnit.Grows.refl u⟩,
    fun hw => ⟨fun i u hu => ?_, fun i hi => ?_⟩⟩
  · exact (Units.get?_add_of_lt _ _ (Units.get?_lt hu)).trans hu
  · rw [Units.get?_add] at hu
    split at hu
    · rename_i h
      rw [← Option.some.inj hu, h]
    · exact hw.numbered i u hu
  · rw [Units.get?_add]
    split
    · rfl
    · rename_i hne
      rcases mem_append.mp hi with hi | hi
      · exact hw.queued i hi
      · exact absurd (mem_singleton.mp hi) hne

theorem grows_enqueue (p : Program) (hu : u ∈ p.all) :
    p.Grows { p with units := p.enqueue u.id } := by
  refine ⟨Units.prefix_insertNew _ _, fun _ u hu => ⟨u, hu, SourceUnit.Grows.refl u⟩,
    fun hw => ⟨hw.numbered, fun i hi => ?_⟩⟩
  rcases (Units.mem_insertNew _ _ _).mp hi with hi | rfl
  · exact hw.queued i hi
  · obtain ⟨k, hk⟩ := Units.mem_all_iff.mp hu
    rw [hw.numbered k u hk]
    exact Option.isSome_iff_exists.mpr ⟨u, hk⟩

theorem grows_findOrAdd (p : Program) (tree : FileTree) (r : Resource) :
    p.Grows { p with units := (p.findOrAdd tree r).2 } := by
  rcases p.units.findOrAdd_cases tree r with ⟨u, hu, _, h⟩ | ⟨_, h⟩
  · rw [h]
    exact grows_enqueue p hu
  · rw [h]
    exact grows_add p r

theorem get?_mark (hu : p.get? id = some u) (ms : List Marker) :
    (p.mark id ms).get? id = some (u.markAll ms) :=
  (Units.get?_modify_self ..).trans (congrArg _ hu)

theorem hasErrors_mark (hu : p.get? id = some u) {m : Marker} (hm : m.isError = true) :
    (p.mark id [m]).hasErrors = true := by
  refine hasErrors_of_get? (get?_mark hu [m]) ?_
  rw [SourceUnit.hasErrors_markAll]
  simp [hm]

theorem noErrors_of_mark (hu : p.get? id = some u) (h : (p.mark id ms).hasErrors = false) :
    ∀ m ∈ ms, m.isError = false :=
  SourceUnit.noErrors_of_markAll (noErrors_get? h (get?_mark hu ms))

/-! ### Work on one unit -/

/-- The program `q` is `p` after some work on what the unit `i` declares: the unit
has got markers and dependencies, there may be new units, and all else about
units is as it was. -/
structure Extends (i : UnitId) (p q : Program) : Prop where
  grows : p.Grows q
  others : ∀ k u, k ≠ i → p.get? k = some u → q.get? k = some u
  self : ∀ u, p.get? i = some u → ∃ added next dependencies, q.get? i = some
      { u with markers := u.markers ++ added, nextMarker := next, dependencies } ∧
    ∀ m ∈ added, m.kind ≠ .genericError
  fresh : ∀ k u, k ≠ i → p.get? k = none → q.get? k = some u →
    u = { id := k, resource := u.resource }

theorem extends_of_units_eq (i : UnitId) (h : q.units = p.units) : Extends i p q := by
  refine ⟨grows_of_units_eq h, fun k u _ hu => by rw [h, hu], fun u hu => ?_, fun k u _ hp hq => ?_⟩
  · exact ⟨[], u.nextMarker, u.dependencies, by simp [h, hu], by simp⟩
  · rw [h, hp] at hq
    cases hq

theorem Extends.trans {r : Program} (h : Extends i p q) (h' : Extends i q r) : Extends i p r := by
  refine ⟨h.grows.trans h'.grows, fun k u hk hu => h'.others k u hk (h.others k u hk hu),
    fun u hu => ?_, fun k u hk hp hr => ?_⟩
  · obtain ⟨added, next, deps, hq, hkind⟩ := h.self u hu
    obtain ⟨added', next', deps', hr, hkind'⟩ := h'.self _ hq
    refine ⟨added ++ added', next', deps', ?_, fun m hm => ?_⟩
    · rw [hr]
      simp
    · rcases mem_append.mp hm with hm | hm
      · exact hkind m hm
      · exact hkind' m hm
  · cases hq : q.get? k with
    | none => exact h'.fresh k u hk hq hr
    | some v =>
      rw [h'.others k v hk hq] at hr
      cases hr
      exact h.fresh k _ hk hp hq

theorem extends_mark (p : Program) (i : UnitId) (hm : ∀ m ∈ ms, m.kind ≠ .genericError) :
    Extends i p (p.mark i ms) := by
  refine ⟨grows_mark p i ms, fun k u hk hu => ?_, fun u hu => ?_, fun k u hk hp hq => ?_⟩
  · exact (Units.get?_modify_of_ne _ _ (Ne.symm hk)).trans hu
  · obtain ⟨added, next, heq, hkind⟩ := u.markAll_eq ms
    refine ⟨added, next, u.dependencies, ?_, fun a ha => ?_⟩
    · rw [← heq]
      exact get?_mark hu ms
    · obtain ⟨m, hmem, hk⟩ := hkind a ha
      rw [hk]
      exact hm m hmem
  · have hnone : (p.mark i ms).get? k = none :=
      (Units.get?_modify_of_ne _ _ (Ne.symm hk)).trans hp
    rw [hnone] at hq
    cases hq

theorem get?_findOrAdd (hu : us.get? k = some u) : (us.findOrAdd tree r).2.get? k = some u := by
  rcases us.findOrAdd_cases tree r with ⟨v, _, _, h⟩ | ⟨_, h⟩
  · rw [h]
    exact hu
  · rw [h]
    exact (Units.get?_add_of_lt _ _ (Units.get?_lt hu)).trans hu

theorem fresh_findOrAdd (hp : us.get? k = none) (hq : (us.findOrAdd tree r).2.get? k = some u) :
    u = { id := k, resource := u.resource } := by
  rcases us.findOrAdd_cases tree r with ⟨v, _, _, h⟩ | ⟨_, h⟩
  · rw [h] at hq
    exact absurd (hp.symm.trans hq) (by simp)
  · rw [h, Units.get?_add] at hq
    split at hq
    · rename_i hk
      rw [← Option.some.inj hq, hk]
    · exact absurd (hp.symm.trans hq) (by simp)

/-- The program after an include of `resource` was followed from `unit`. -/
def including (p : Program) (tree : FileTree) (unit : UnitId) (resource : Resource) : Program :=
  { p with units := (p.findOrAdd tree resource).2 }.modifyUnit unit
    (·.addDependency (p.findOrAdd tree resource).1)

theorem extends_including (p : Program) (tree : FileTree) (i : UnitId) (r : Resource) :
    Extends i p (p.including tree i r) := by
  have hgrows : ∀ target, ∀ u : SourceUnit, u.Grows (u.addDependency target) :=
    fun _ _ => ⟨rfl, rfl, prefix_refl _⟩
  refine ⟨(grows_findOrAdd p tree r).trans (grows_modifyUnit _ i (hgrows _)),
    fun k u hk hu => ?_, fun u hu => ?_, fun k u hk hp hq => ?_⟩
  · exact (Units.get?_modify_of_ne _ _ (Ne.symm hk)).trans (get?_findOrAdd hu)
  · refine ⟨[], u.nextMarker, insertNew u.dependencies (p.findOrAdd tree r).1, ?_, by simp⟩
    refine (Units.get?_modify_self _ _ _).trans ?_
    rw [get?_findOrAdd hu]
    simp [SourceUnit.addDependency]
  · have hq' : (p.findOrAdd tree r).2.get? k = some u :=
      (Units.get?_modify_of_ne _ _ (Ne.symm hk)).symm.trans hq
    exact fresh_findOrAdd hp hq'

end Program

/-! ### How programs are made -/

theorem Program.wellFormed_ofResources (resources : List Resource) :
    (ofResources resources).WellFormed := by
  have h : ∀ us : Units, us.WellFormed →
      (resources.foldl (fun us r => (us.add r).2) us).WellFormed := by
    induction resources with
    | nil => exact fun _ h => h
    | cons r resources ih =>
      exact fun us h => ih _ ((grows_add { units := us } r).wellFormed h)
  exact h {} ⟨fun _ _ h => (nomatch h), fun _ h => (nomatch h)⟩

theorem Units.WellFormed.setOrder {us' : Units} {order : List UnitId} (h : us.WellFormed)
    (hok : us.setOrder order = .ok us') : us'.WellFormed := by
  unfold Units.setOrder at hok
  split at hok
  · cases hok
  · rename_i hnone
    cases hok
    refine ⟨h.numbered, fun i hi => ?_⟩
    have hlt : i < us.all.length := by simpa using List.find?_eq_none.mp hnone i hi
    exact Option.isSome_iff_exists.mpr ⟨_, getElem?_eq_getElem hlt⟩

end WordAsm
