/-
# Which circles are reported

The check for circular equations reports whole circles, and no two of them share an
equation. It meets every circle of the table, but a circle that it meets in an
equation already reported is passed over: cutting the first has cut the second. So
an equation is sure to be reported if the circles through it touch no others
(`Table.Apart`). Where two circles cross, an equation of the second may keep
its expression and get no marker (`checkAll_passes_over_crossing`).
-/
import WordAsm.Proofs.CycleCheck

namespace WordAsm

open List
open Relation (TransGen ReflTransGen)

namespace Table

variable {a id : SymbolId} {t : Table}

/-! ### Ways without repeats -/

theorem exists_nodup_path {b : SymbolId} (h : ReflTransGen t.Refers a b) :
    ∃ path : List SymbolId, path.IsChain t.Refers ∧ path.Nodup ∧
      path.head? = some a ∧ path.getLast? = some b := by
  induction h using ReflTransGen.head_induction_on with
  | refl => exact ⟨[b], isChain_singleton b, pairwise_singleton _ b, rfl, rfl⟩
  | head hac hcb ih =>
    rename_i a c
    obtain ⟨path, hchain, hnodup, hhead, hlast⟩ := ih
    by_cases ha : a ∈ path
    · -- the way comes by `a` again, and may as well start there
      obtain ⟨front, back, rfl⟩ := append_of_mem ha
      refine ⟨a :: back, hchain.right_of_append, (nodup_append.mp hnodup).2.1, rfl, ?_⟩
      rw [getLast?_append_of_ne_nil _ (cons_ne_nil a back)] at hlast
      exact hlast
    · obtain ⟨rest, rfl⟩ := head?_eq_some_iff.mp hhead
      refine ⟨a :: c :: rest, isChain_cons_cons.mpr ⟨hac, hchain⟩,
        nodup_cons.mpr ⟨ha, hnodup⟩, rfl, ?_⟩
      exact hlast

/-- **A way back to an equation** has a circle in it. -/
theorem exists_circle (h : TransGen t.Refers id id) : ∃ others, t.Circle id others := by
  obtain ⟨next, hnext, hback⟩ := TransGen.head'_iff.mp h
  obtain ⟨path, hchain, hnodup, hhead, hlast⟩ := exists_nodup_path hback
  obtain ⟨others, rfl⟩ := getLast?_eq_some_iff.mp hlast
  refine ⟨others, ?_, ?_⟩
  · refine isChain_cons.mpr ⟨fun y hy => ?_, hchain⟩
    have hy' : some next = some y := hhead.symm.trans hy
    cases hy'
    exact hnext
  · exact (perm_append_singleton id others).nodup_iff.mp hnodup

/-! ### Circles that touch no others -/

def Apart (t : Table) (id : SymbolId) : Prop :=
  ∀ others, t.Circle id others → ∀ x ∈ id :: others,
    ∀ round round', t.Circle x round → t.Circle x round' → round = round'

theorem eq_of_isChain (hone : ∀ a b b', t.Refers a b → t.Refers a b' → b = b') {stop : SymbolId}
    {others others' : List SymbolId} (h : (a :: others ++ [stop]).IsChain t.Refers)
    (h' : (a :: others' ++ [stop]).IsChain t.Refers) (hstop : stop ∉ others)
    (hstop' : stop ∉ others') : others = others' := by
  induction others generalizing a others' with
  | nil =>
    cases others' with
    | nil => rfl
    | cons b' others' =>
      have hb : stop = b' :=
        hone a _ _ (isChain_pair.mp h) (isChain_cons_cons.mp h').1
      exact absurd (hb ▸ mem_cons_self) hstop'
  | cons b others ih =>
    obtain ⟨hab, hrest⟩ := isChain_cons_cons.mp h
    cases others' with
    | nil =>
      have hb : stop = b := hone a _ _ (isChain_pair.mp h') hab
      exact absurd (hb ▸ mem_cons_self) hstop
    | cons b' others' =>
      obtain ⟨hab', hrest'⟩ := isChain_cons_cons.mp h'
      obtain rfl : b = b' := hone a _ _ hab hab'
      rw [ih hrest hrest' (fun hin => hstop (.tail _ hin)) fun hin => hstop' (.tail _ hin)]

/-- **Where every equation refers to one at most**, circles do not touch. -/
theorem apart_of_refers (hone : ∀ a b b', t.Refers a b → t.Refers a b' → b = b')
    (id : SymbolId) : t.Apart id := by
  intro others _ x _ round round' h h'
  exact eq_of_isChain hone h.1 h'.1 (nodup_cons.mp h.2).1 (nodup_cons.mp h'.2).1

/-- One circle of two that meet, if they are apart from all others, is as large as the
other. -/
theorem Apart.mem_of_meets {others rest : List SymbolId} {first x : SymbolId} (h : t.Apart id)
    (hid : t.Circle id others) (hfirst : t.Circle first rest)
    (hx : x ∈ id :: others) (hx' : x ∈ first :: rest) : id ∈ first :: rest := by
  obtain ⟨front, back, hsplit⟩ := append_of_mem hx
  obtain ⟨front', back', hsplit'⟩ := append_of_mem hx'
  have hround : back ++ front = back' ++ front' :=
    h others hid x hx _ _ (hid.rotate hsplit) (hfirst.rotate hsplit')
  have hmem : id ∈ x :: (back ++ front) := by
    have hin : id ∈ front ++ x :: back := hsplit ▸ mem_cons_self
    simp only [mem_append, mem_cons] at hin ⊢
    tauto
  rw [hround] at hmem
  rw [hsplit']
  simp only [mem_append, mem_cons] at hmem ⊢
  tauto

end Table

namespace CycleSearch

variable {others : List SymbolId} {t : Table} {s : CycleSearch} {id : SymbolId}

/-! ### Whole circles, over a run -/

/-- **One more unit** adds whole circles to what is reported. -/
theorem Checked.circles_checkNext (h : s.Checked t []) (unit : UnitId)
    (hcircles : ∃ circles, t.Circles circles ∧ s.poisoned = circles.flatten.reverse) :
    ∃ circles, t.Circles circles ∧ (s.checkNext unit).poisoned = circles.flatten.reverse := by
  obtain ⟨circles, hall, hpoisoned⟩ := hcircles
  obtain ⟨hsearch, -⟩ := checkUnit_search (t := t) h.nodup unit
  rw [← h.table] at hsearch
  obtain ⟨more, hmore, hnew⟩ := hsearch.circles
  refine ⟨circles ++ more, forall_mem_append.mpr ⟨hall, hmore⟩, ?_⟩
  calc (s.checkNext unit).poisoned
      = more.flatten.reverse ++ s.poisoned := hnew
    _ = (circles ++ more).flatten.reverse := by rw [hpoisoned]; simp

/-- **Over a run** of checks, what is reported is made up of whole circles. -/
theorem Checked.circles_foldl (ht : t.Sound) (units : List UnitId) (h : s.Checked t [])
    (hcircles : ∃ circles, t.Circles circles ∧ s.poisoned = circles.flatten.reverse) :
    ∃ circles, t.Circles circles ∧
      (units.foldl checkNext s).poisoned = circles.flatten.reverse := by
  induction units generalizing s with
  | nil => exact hcircles
  | cons unit units ih =>
    have hnext : (s.checkNext unit).Checked t [] := (h.foldl_checkNext ht [unit]).1
    exact ih hnext (h.circles_checkNext unit hcircles)

theorem transGen_of_unreported (htable : s.table = t.cleared s.poisoned) (h : t.Circle id others)
    (hnone : ∀ x ∈ id :: others, x ∉ s.poisoned) : TransGen s.table.Refers id id := by
  have hkept : ∀ a ∈ id :: others ++ [id], a ∉ s.poisoned := by
    intro a ha
    rcases mem_append.mp ha with ha | ha
    · exact hnone a ha
    · exact mem_singleton.mp ha ▸ hnone id mem_cons_self
  have hchain : (id :: others ++ [id]).IsChain (t.cleared s.poisoned).Refers :=
    h.1.imp_of_mem_imp fun a b ha _ hab => Table.refers_cleared.mpr ⟨hkept a ha, hab⟩
  rw [htable]
  exact Table.transGen_of_isChain hchain

/-- **Every circle is met**: something on it is reported. -/
theorem meets_circle (ht : t.Sound) {units : List UnitId}
    (hunits : ∀ store ∈ t.stores, store.unit ∈ units) (h : t.Circle id others) :
    ∃ x ∈ id :: others, x ∈ (checkAll t units).poisoned := by
  have hchecked : (checkAll t units).Checked t [] := ((checked_new t).foldl_checkNext ht units).1
  by_contra hnone
  exact checkAll_acyclic ht hunits id
    (transGen_of_unreported hchecked.table h fun x hx hin => hnone ⟨x, hx, hin⟩)

end CycleSearch

open CycleSearch in
/-- **Circles are reported whole.** Units are checked in any order, any number of times,
and none is left out. Then what is reported is one circle after another, with no
equation twice and one marker for each equation; every circle of the table meets a
reported one; and an equation on a circle that touches no other has lost its expression
and has its marker. -/
theorem checkAll_reports_whole_circles {t : Table} (ht : t.Sound)
    {units : List UnitId} (hunits : ∀ store ∈ t.stores, store.unit ∈ units) :
    let after := checkAll t units
    (∃ circles, t.Circles circles ∧ after.poisoned.reverse = circles.flatten ∧
      circles.flatten.Nodup ∧ List.Forall₂ t.Flagged circles.flatten after.markers) ∧
    (∀ id others, t.Circle id others → ∃ x ∈ id :: others, x ∈ after.poisoned) ∧
    ∀ id, TransGen t.Refers id id → t.Apart id →
      (∃ x e context, t.symbol? id = some x ∧ x.kind = .equation (some e) context ∧
        after.table.symbol? id = some { x with kind := .equation none context }) ∧
      ∃ marker ∈ after.markers, t.Flagged id marker := by
  have hchecked : (checkAll t units).Checked t [] := ((checked_new t).foldl_checkNext ht units).1
  obtain ⟨circles, hall, hpoisoned⟩ :=
    (checked_new t).circles_foldl ht units ⟨[], by simp [Table.Circles], rfl⟩
  change (checkAll t units).poisoned = circles.flatten.reverse at hpoisoned
  have hreverse : (checkAll t units).poisoned.reverse = circles.flatten := by
    rw [hpoisoned, reverse_reverse]
  have hnodup : circles.flatten.Nodup :=
    hreverse ▸ (reverse_perm _).nodup_iff.mpr hchecked.nodup
  have hflagged : Forall₂ t.Flagged circles.flatten (checkAll t units).markers :=
    hreverse ▸ hchecked.forall₂_flagged
  refine ⟨⟨circles, hall, hreverse, hnodup, hflagged⟩, fun id others => meets_circle ht hunits, ?_⟩
  intro id hround hapart
  -- the circle meets a reported one, and is that one
  obtain ⟨others, hcircle⟩ := Table.exists_circle hround
  obtain ⟨x, hx, hreported⟩ := meets_circle ht hunits hcircle
  rw [hpoisoned, mem_reverse, mem_flatten] at hreported
  obtain ⟨c, hc, hxc⟩ := hreported
  obtain ⟨first, rest, rfl, hfirst⟩ := hall c hc
  have hid : id ∈ circles.flatten :=
    mem_flatten.mpr ⟨first :: rest, hc, hapart.mem_of_meets hcircle hfirst hx hxc⟩
  constructor
  · refine hchecked.mem_poisoned_iff.mp ?_
    rw [hpoisoned]
    exact mem_reverse.mpr hid
  · obtain ⟨i, hi⟩ := mem_iff_getElem?.mp hid
    obtain ⟨marker, hmarker, hflag⟩ := rel_some (forall₂_getElem? hflagged i) hi
    exact ⟨marker, mem_of_getElem? hmarker, hflag⟩

/-- A circle through two units, an equation that is a circle by itself, and one that
leads to it. -/
def rings : Table :=
  let equations : List (String × UnitId × Expr) :=
    [("a", 0, .ident "b"), ("b", 1, .binary .add (.ident "a") (.number 1)),
      ("c", 1, .unary .neg (.ident "c")), ("d", 0, .ident "c")]
  equations.foldl (fun t (name, unit, e) =>
    (t.define (.equation name unit ⟨0, 0, 0, 1⟩ e none)).2) {}

theorem sound_rings : rings.Sound :=
  ((((Table.sound_of_nil rfl).define _).define _).define _).define _

theorem refers_rings (a b b' : SymbolId) (h : rings.Refers a b) (h' : rings.Refers a b') :
    b = b' := by
  have hone : ∀ id ∈ rings.handles, ∀ next ∈ (rings.references? id).getD [],
      ∀ next' ∈ (rings.references? id).getD [], next = next' := by
    decide +kernel
  obtain ⟨references, hreferences, hb⟩ := Table.refers_iff.mp h
  obtain ⟨references', hreferences', hb'⟩ := Table.refers_iff.mp h'
  obtain ⟨x, -, -, hx, -⟩ := h
  refine hone a (Table.mem_handles_of_symbol? hx) b ?_ b' ?_
  · rw [hreferences]
    exact hb
  · rw [hreferences']
    exact hb'

/-- The three equations on the circles of `rings` are reported, with their circles. -/
theorem checkAll_reports_whole_circles_rings :
    (CycleSearch.checkAll rings [0, 1]).markers.map (fun (unit, m) => (unit, m.message)) =
      [(0, "Circular equation: a <-> b <-> a"), (1, "Circular equation: b <-> a <-> b"),
        (1, "Circular equation: c <-> c")] ∧
    ∀ id, TransGen rings.Refers id id →
      ∃ marker ∈ (CycleSearch.checkAll rings [0, 1]).markers, rings.Flagged id marker := by
  have hunits : ∀ store ∈ rings.stores, store.unit ∈ [0, 1] := by decide +kernel
  obtain ⟨-, -, hreported⟩ := checkAll_reports_whole_circles sound_rings hunits
  refine ⟨by decide +kernel, fun id hround => ?_⟩
  exact (hreported id hround (Table.apart_of_refers refers_rings id)).2

/-- **Where circles cross**, one of them is passed over: in `crossing`, the equation `c` is
on a circle with `a`, but keeps its expression and has no marker. -/
theorem checkAll_passes_over_crossing :
    ∃ a c, crossing.nameOf a = "a" ∧ crossing.nameOf c = "c" ∧ crossing.Circle c [a] ∧
      c ∉ (CycleSearch.checkAll crossing [0, 1]).poisoned ∧
      (CycleSearch.checkAll crossing [0, 1]).table.symbol? c = crossing.symbol? c ∧
      (CycleSearch.checkAll crossing [0, 1]).markers.map (fun (unit, m) => (unit, m.message)) =
        [(0, "Circular equation: a <-> b <-> a"), (0, "Circular equation: b <-> a <-> b")] := by
  refine ⟨⟨1, 0⟩, ⟨2, 0⟩, by decide +kernel, by decide +kernel, ⟨?_, by decide⟩,
    by decide +kernel, ?_, by decide +kernel⟩
  · have hout : crossing.Refers ⟨2, 0⟩ ⟨1, 0⟩ :=
      Table.refers_iff.mpr ⟨[⟨1, 0⟩], by decide +kernel, by decide⟩
    have hback : crossing.Refers ⟨1, 0⟩ ⟨2, 0⟩ :=
      Table.refers_iff.mpr ⟨[⟨1, 1⟩, ⟨2, 0⟩], by decide +kernel, by decide⟩
    exact .cons_cons hout (.cons_cons hback (.singleton _))
  · have htable := ((CycleSearch.checked_new crossing).foldl_checkNext sound_crossing
      [0, 1]).1.table
    have hkept : (⟨2, 0⟩ : SymbolId) ∉ (CycleSearch.checkAll crossing [0, 1]).poisoned := by
      decide +kernel
    rw [CycleSearch.checkAll, htable]
    exact crossing.symbol?_cleared_of_notMem hkept

end WordAsm
