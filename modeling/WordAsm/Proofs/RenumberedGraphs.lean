/-
# Include graphs under other numbers

Two graphs say the same of their units if these correspond one to one, and units that
correspond include units that correspond, in the same order, and start at the same address
(`Graph.Matched`). Numbers, and the order in which nodes came to be, may differ.

A walk goes by the lists of dependencies alone, so walks from corresponding units come to
corresponding ones (`Matched.visit`). Roots are found in the order of the nodes, which may
differ, but sorting forgets it: start addresses that all differ leave only one way to put the
roots in order, and start addresses that do not differ are the same on both sides
(`Matched.rootsByStart`). So the graphs ask for corresponding orders, or for none, for the
same reason (`Matched.order`).
-/
import Mathlib.Data.List.Perm.Basic
import WordAsm.Proofs.IncludeGraph
import WordAsm.Proofs.TablePairs

namespace WordAsm

open List
open Relator (BiUnique)

/-! ### Lists of things that correspond -/

section Lists

variable {α β : Type} {R : α → β → Prop} {xs : List α} {ys : List β}

theorem exists_forall₂ (h : ∀ x ∈ xs, ∃ y ∈ ys, R x y) : ∃ zs, zs ⊆ ys ∧ Forall₂ R xs zs := by
  induction xs with
  | nil => exact ⟨[], nil_subset _, .nil⟩
  | cons x xs ih =>
    obtain ⟨y, hy, hxy⟩ := h x mem_cons_self
    obtain ⟨zs, hzs, hrest⟩ := ih fun z hz => h z (mem_cons_of_mem _ hz)
    exact ⟨y :: zs, cons_subset.mpr ⟨hy, hzs⟩, .cons hxy hrest⟩

theorem exists_perm_forall₂ (hR : BiUnique R) (hxs : xs.Nodup) (hys : ys.Nodup)
    (hleft : ∀ x ∈ xs, ∃ y ∈ ys, R x y) (hright : ∀ y ∈ ys, ∃ x ∈ xs, R x y) :
    ∃ zs, Forall₂ R xs zs ∧ zs.Perm ys := by
  obtain ⟨zs, hsub, hzs⟩ := exists_forall₂ hleft
  have hnodup : zs.Nodup := (rel_nodup hR hzs).mp hxs
  refine ⟨zs, hzs, (perm_ext_iff_of_nodup hnodup hys).mpr fun y => ⟨fun hy => hsub hy, ?_⟩⟩
  intro hy
  obtain ⟨x, hx, hxy⟩ := hright y hy
  exact (rel_mem hR hxy hzs).mp hx

theorem forall₂_of_common {γ : Type} {P : γ → α → Prop} {Q : γ → β → Prop} {zs : List γ}
    (hxs : Forall₂ P zs xs) (hys : Forall₂ Q zs ys)
    (hR : ∀ z x y, z ∈ zs → P z x → Q z y → R x y) : Forall₂ R xs ys := by
  induction hxs generalizing ys with
  | nil =>
    cases hys
    exact .nil
  | cons hzx _ ih =>
    cases hys with
    | cons hzy hrest =>
      refine .cons (hR _ _ _ mem_cons_self hzx hzy) (ih hrest fun z x y hz => ?_)
      exact hR z x y (mem_cons_of_mem _ hz)

theorem forall₂_insertNew [DecidableEq α] [DecidableEq β] (hR : BiUnique R) (h : Forall₂ R xs ys)
    {x : α} {y : β} (hxy : R x y) : Forall₂ R (insertNew xs x) (insertNew ys y) := by
  have hmem : x ∈ xs ↔ y ∈ ys := rel_mem hR hxy h
  unfold insertNew
  by_cases hx : x ∈ xs
  · rw [if_pos hx, if_pos (hmem.mp hx)]
    exact h
  · rw [if_neg hx, if_neg (mt hmem.mpr hx)]
    exact rel_append h (.cons hxy .nil)

end Lists

/-! ### Neighbours with the same key -/

section Neighbours

variable {α : Type} {key : α → Address} {xs : List α}

theorem equalNeighbours?_keys (key : α → Address) (xs : List α) :
    (equalNeighbours? key xs).map (fun pair => key pair.1) =
      (equalNeighbours? id (xs.map key)).map Prod.fst := by
  fun_induction equalNeighbours? key xs with
  | case1 a b rest hkey => simp [equalNeighbours?, hkey]
  | case2 a b rest hkey ih => simpa [equalNeighbours?, hkey] using ih
  | case3 xs hshort =>
    match xs, hshort with
    | [], _ => rfl
    | [a], _ => rfl
    | a :: b :: rest, hshort => exact absurd rfl (hshort a b rest)

theorem pairwise_lt_of_equalNeighbours?
    (hsorted : xs.Pairwise fun a b => (key a).toNat ≤ (key b).toNat)
    (hnone : equalNeighbours? key xs = none) :
    xs.Pairwise fun a b => (key a).toNat < (key b).toNat := by
  fun_induction equalNeighbours? key xs with
  | case1 a b rest hkey => cases hnone
  | case2 a b rest hkey ih =>
    obtain ⟨hfirst, hrest⟩ := pairwise_cons.mp hsorted
    have hlt := ih hrest hnone
    have hab : (key a).toNat < (key b).toNat := by
      have hle := hfirst b mem_cons_self
      have hne : (key a).toNat ≠ (key b).toNat := fun he => hkey (UInt16.toNat_inj.mp he)
      omega
    refine pairwise_cons.mpr ⟨fun c hc => ?_, hlt⟩
    rcases mem_cons.mp hc with rfl | hc
    · exact hab
    · exact Nat.lt_trans hab ((pairwise_cons.mp hlt).1 c hc)
  | case3 xs hshort =>
    match xs, hshort with
    | [], _ => exact .nil
    | [a], _ => exact pairwise_singleton _ a
    | a :: b :: rest, hshort => exact absurd rfl (hshort a b rest)

end Neighbours

/-- Two answers to the same question for an order: results that are related, or faults of the
same kind. A circle is one among the same names, and roots that cannot be told apart start at
the same address. -/
inductive SameAnswer {α β : Type} (R : α → β → Prop) : Except Error α → Except Error β → Prop
  | order {x : α} {y : β} (h : R x y) : SameAnswer R (.ok x) (.ok y)
  | circular {names names' : List String} (h : names.Perm names') :
    SameAnswer R (.error (.circularInclude names)) (.error (.circularInclude names'))
  | ambiguous (a b a' b' : String) (start : Address) :
    SameAnswer R (.error (.ambiguousOrder a b start)) (.error (.ambiguousOrder a' b' start))

theorem SameAnswer.map {α β γ δ : Type} {R : α → β → Prop} {S : γ → δ → Prop}
    {x : Except Error α} {y : Except Error β} {f : α → γ} {f' : β → δ} (h : SameAnswer R x y)
    (hf : ∀ a b, R a b → S (f a) (f' b)) : SameAnswer S (x.map f) (y.map f') := by
  cases h with
  | order hxy => exact .order (hf _ _ hxy)
  | circular hnames => exact .circular hnames
  | ambiguous a b a' b' start => exact .ambiguous a b a' b' start

namespace Units

variable {R : UnitId → UnitId → Prop} {us us' : Units} {xs ys : List UnitId}

def NamedAlike (R : UnitId → UnitId → Prop) (us us' : Units) : Prop :=
  ∀ a a', R a a' →
    (us.get? a).map SourceUnit.identifier = (us'.get? a').map SourceUnit.identifier

theorem NamedAlike.names_eq (h : us.NamedAlike R us') (hxs : Forall₂ R xs ys) :
    (xs.filterMap us.get?).map SourceUnit.identifier =
      (ys.filterMap us'.get?).map SourceUnit.identifier := by
  rw [map_filterMap, map_filterMap]
  induction hxs with
  | nil => rfl
  | cons ha _ ih => rw [filterMap_cons, filterMap_cons, h _ _ ha, ih]

end Units

namespace Graph

variable {R : UnitId → UnitId → Prop} {g g' : Graph} {a a' : UnitId}

theorem Mirrored.nodup_roots (h : g.Mirrored) : g.roots.Nodup :=
  h.nodup.sublist (filter_sublist.map _)

/-- Graphs that say the same of the units that `R` relates. -/
structure Matched (R : UnitId → UnitId → Prop) (g g' : Graph) : Prop where
  mirrored : g.Mirrored
  mirrored' : g'.Mirrored
  unique : BiUnique R
  left : ∀ a ∈ g.units, ∃ a' ∈ g'.units, R a a'
  right : ∀ a' ∈ g'.units, ∃ a ∈ g.units, R a a'
  nodes : ∀ a a', R a a' → (a ∈ g.units ↔ a' ∈ g'.units)
  dependencies : ∀ a a', R a a' → Forall₂ R (g.dependencies a) (g'.dependencies a')
  starts : ∀ a a', R a a' → g.startOf a = g'.startOf a'

def SortedByStart (g : Graph) (xs : List UnitId) : Prop :=
  xs.Pairwise fun a b => (g.startOf a).toNat ≤ (g.startOf b).toNat

theorem sortedByStart_mergeSort (g : Graph) (xs : List UnitId) :
    g.SortedByStart (xs.mergeSort fun a b => (g.startOf a).toNat ≤ (g.startOf b).toNat) := by
  have hpairs : (xs.mergeSort fun a b => (g.startOf a).toNat ≤ (g.startOf b).toNat).Pairwise
      fun a b => decide ((g.startOf a).toNat ≤ (g.startOf b).toNat) = true := by
    refine pairwise_mergeSort (fun a b c hab hbc => ?_) (fun a b => ?_) xs
    · simp only [decide_eq_true_eq] at hab hbc ⊢
      omega
    · simp only [Bool.or_eq_true, decide_eq_true_eq]
      omega
  exact hpairs.imp of_decide_eq_true

theorem order_byStart (g : Graph) (units : Units) (tree : FileTree) :
    g.order units tree .byStart =
      if g.units = [] then .ok []
      else if g.roots = [] then
        .error (.circularInclude ((g.units.filterMap units.get?).map SourceUnit.identifier))
      else (g.rootsByStart units g.roots).map g.linearizeAll := by
  have hunits : g.units = [] ↔ g.nodes = [] := map_eq_nil_iff
  unfold order
  split
  · rename_i hnodes
    rw [if_pos (hunits.mpr hnodes)]
  · rename_i hroots hnodes
    rw [if_neg (mt hunits.mp hnodes), if_pos hroots]
  · rename_i root hroots hnodes
    rw [if_neg (mt hunits.mp hnodes), if_neg (by simp [hroots]), hroots]
    simp [rootsByStart, equalNeighbours?, Except.map]
  · rename_i hnodes hroots hroot
    rw [if_neg (mt hunits.mp hnodes), if_neg hroots]

/-- Walks that have come to corresponding units, and left corresponding ones. -/
structure Walk.Matched (R : UnitId → UnitId → Prop) (w w' : Walk) : Prop where
  visited : Forall₂ R w.visited w'.visited
  order : Forall₂ R w.order w'.order

namespace Matched

variable (h : g.Matched R g')
include h

/-! ### Walks -/

/-- **A visit.** By induction on the units that are left, which correspond as well. -/
theorem visit (remaining remaining' : List UnitId)
    (hremaining : ∀ a a', R a a' → (a ∈ remaining ↔ a' ∈ remaining')) {w w' : Walk}
    (hw : w.Matched R w') (ha : R a a') :
    (g.visit remaining a w).Matched R (g'.visit remaining' a' w') := by
  induction hn : remaining.length using Nat.strongRecOn
    generalizing remaining remaining' a a' w w' with
  | ind n ih =>
    have hvisited : a ∈ w.visited ↔ a' ∈ w'.visited := rel_mem h.unique ha hw.visited
    rw [Graph.visit, Graph.visit]
    by_cases hold : a ∈ w.visited
    · rw [if_pos hold, if_pos (hvisited.mp hold)]
      exact hw
    · rw [if_neg hold, if_neg (mt hvisited.mpr hold)]
      have hentered : Walk.Matched R { w with visited := a :: w.visited }
          { w' with visited := a' :: w'.visited } := ⟨.cons ha hw.visited, hw.order⟩
      have hleave : ∀ v v' : Walk, v.Matched R v' →
          Walk.Matched R { v with order := v.order ++ [a] } { v' with order := v'.order ++ [a'] } :=
        fun v v' hv => ⟨hv.visited, rel_append hv.order (.cons ha .nil)⟩
      by_cases hleft : a ∈ remaining
      · have hleft' : a' ∈ remaining' := (hremaining a a' ha).mp hleft
        simp only [dif_pos hleft, dif_pos hleft']
        apply hleave
        have hwithout : ∀ b b', R b b' →
            (b ∈ without remaining a ↔ b' ∈ without remaining' a') := by
          intro b b' hb
          have hself : b = a ↔ b' = a' := Relator.rel_eq h.unique hb ha
          simp [without, hremaining b b' hb, hself]
        refine rel_foldl (P := Walk.Matched R) (fun v v' hv b b' hb => ?_) hentered
          (h.dependencies a a' ha)
        exact ih _ (hn ▸ length_without_lt hleft) _ _ hwithout hv hb rfl
      · have hleft' : a' ∉ remaining' := mt (hremaining a a' ha).mpr hleft
        simp only [dif_neg hleft, dif_neg hleft']
        exact hleave _ _ hentered

/-- **What corresponding units reach** is listed in the same order. -/
theorem linearizeAll {starts starts' : List UnitId} (hstarts : Forall₂ R starts starts') :
    Forall₂ R (g.linearizeAll starts) (g'.linearizeAll starts') := by
  have hwalk : Walk.Matched R (starts.foldl (fun w root => g.visit g.units root w) {})
      (starts'.foldl (fun w root => g'.visit g'.units root w) {}) := by
    refine rel_foldl (P := Walk.Matched R) (fun w w' hw a a' ha => ?_) ⟨.nil, .nil⟩ hstarts
    exact h.visit g.units g'.units h.nodes hw ha
  exact hwalk.order

/-! ### Roots -/

theorem dependsOn_iff {b b' : UnitId} (ha : R a a') (hb : R b b') :
    g.DependsOn a b ↔ g'.DependsOn a' b' :=
  rel_mem h.unique hb (h.dependencies a a' ha)

theorem mem_roots_iff (ha : R a a') : a ∈ g.roots ↔ a' ∈ g'.roots := by
  rw [h.mirrored.mem_roots, h.mirrored'.mem_roots, h.nodes a a' ha]
  refine and_congr_right fun _ => ⟨fun hfree b' hedge => ?_, fun hfree b hedge => ?_⟩
  · obtain ⟨b, -, hb⟩ := h.right b' (mem_units_of_dependencies (ne_nil_of_mem hedge))
    exact hfree b ((h.dependsOn_iff hb ha).mpr hedge)
  · obtain ⟨b', -, hb⟩ := h.left b (mem_units_of_dependencies (ne_nil_of_mem hedge))
    exact hfree b' ((h.dependsOn_iff hb ha).mp hedge)

theorem exists_units : ∃ zs, Forall₂ R g.units zs ∧ zs.Perm g'.units :=
  exists_perm_forall₂ h.unique h.mirrored.nodup h.mirrored'.nodup h.left h.right

/-- **Roots correspond**, though they may be found in another order. -/
theorem exists_roots : ∃ zs, Forall₂ R g.roots zs ∧ zs.Perm g'.roots := by
  refine exists_perm_forall₂ h.unique h.mirrored.nodup_roots h.mirrored'.nodup_roots
    (fun a ha => ?_) fun a' ha' => ?_
  · obtain ⟨a', -, haa'⟩ := h.left a (h.mirrored.mem_roots.mp ha).1
    exact ⟨a', (h.mem_roots_iff haa').mp ha, haa'⟩
  · obtain ⟨a, -, haa'⟩ := h.right a' (h.mirrored'.mem_roots.mp ha').1
    exact ⟨a, (h.mem_roots_iff haa').mpr ha', haa'⟩

/-! ### The order -/

theorem starts_eq {sorted zs sorted' : List UnitId} (hzs : Forall₂ R sorted zs)
    (hperm : zs.Perm sorted')
    (hsorted : g.SortedByStart sorted) (hsorted' : g'.SortedByStart sorted') :
    sorted.map g.startOf = zs.map g'.startOf ∧ zs.map g'.startOf = sorted'.map g'.startOf := by
  have hsame : sorted.map g.startOf = zs.map g'.startOf :=
    forall₂_eq_eq_eq ▸ rel_map h.starts hzs
  refine ⟨hsame, ?_⟩
  have hkeys : (zs.map g'.startOf).Pairwise fun a b => a.toNat ≤ b.toNat := by
    rw [← hsame]
    exact pairwise_map.mpr hsorted
  refine List.Perm.eq_of_pairwise (fun a b _ _ hab hba => ?_) hkeys
    (pairwise_map.mpr hsorted') (hperm.map _)
  exact UInt16.toNat_inj.mp (Nat.le_antisymm hab hba)

theorem forall₂_of_sorted {sorted zs sorted' : List UnitId} (hzs : Forall₂ R sorted zs)
    (hperm : zs.Perm sorted') (hsorted : g.SortedByStart sorted)
    (hsorted' : g'.SortedByStart sorted') (hnone : equalNeighbours? g'.startOf sorted' = none) :
    Forall₂ R sorted sorted' := by
  obtain ⟨hsame, hkeys⟩ := h.starts_eq hzs hperm hsorted hsorted'
  have hlt' := pairwise_lt_of_equalNeighbours? hsorted' hnone
  have hlt : zs.Pairwise fun a b => (g'.startOf a).toNat < (g'.startOf b).toNat := by
    have hmapped : (sorted'.map g'.startOf).Pairwise fun x y => x.toNat < y.toNat :=
      pairwise_map.mpr hlt'
    rwa [← hkeys, pairwise_map] at hmapped
  have hzs' : zs = sorted' :=
    List.Perm.eq_of_pairwise (fun a b _ _ hab hba => absurd hab (Nat.lt_asymm hba)) hlt hlt' hperm
  exact hzs' ▸ hzs

/-- **The roots by start address** correspond one by one, or neither side can tell two of
them apart. -/
theorem rootsByStart {units units' : Units} {roots zs roots' : List UnitId}
    (hroots : Forall₂ R roots zs) (hperm : zs.Perm roots') :
    SameAnswer (Forall₂ R) (g.rootsByStart units roots) (g'.rootsByStart units' roots') := by
  obtain ⟨ms, hms, hmszs⟩ := perm_comp_forall₂ (mergeSort_perm roots
    fun a b => (g.startOf a).toNat ≤ (g.startOf b).toNat) hroots
  have hms' := hmszs.trans (hperm.trans (mergeSort_perm roots'
    fun a b => (g'.startOf a).toNat ≤ (g'.startOf b).toNat).symm)
  have hsorted := g.sortedByStart_mergeSort roots
  have hsorted' := g'.sortedByStart_mergeSort roots'
  unfold Graph.rootsByStart
  simp only
  generalize (roots.mergeSort _) = sorted at hms hsorted ⊢
  generalize (roots'.mergeSort _) = sorted' at hms' hsorted' ⊢
  have hkeys : (equalNeighbours? g.startOf sorted).map (fun pair => g.startOf pair.1) =
      (equalNeighbours? g'.startOf sorted').map fun pair => g'.startOf pair.1 := by
    obtain ⟨hsame, hsame'⟩ := h.starts_eq hms hms' hsorted hsorted'
    rw [equalNeighbours?_keys, equalNeighbours?_keys, hsame, hsame']
  cases hright : equalNeighbours? g'.startOf sorted' with
  | none =>
    rw [hright, Option.map_none, Option.map_eq_none_iff] at hkeys
    rw [hkeys]
    exact .order (h.forall₂_of_sorted hms hms' hsorted hsorted' hright)
  | some pair' =>
    rw [hright, Option.map_some, Option.map_eq_some_iff] at hkeys
    obtain ⟨pair, hleft, hstart⟩ := hkeys
    rw [hleft]
    simp only [hstart]
    exact .ambiguous ..

/-- **Matched graphs ask for corresponding orders**, or for none, for the same reason. -/
theorem order {units units' : Units} {tree : FileTree} (hnames : units.NamedAlike R units') :
    SameAnswer (Forall₂ R) (g.order units tree .byStart) (g'.order units' tree .byStart) := by
  obtain ⟨ids, hids, hidsperm⟩ := h.exists_units
  obtain ⟨zs, hzs, hzsperm⟩ := h.exists_roots
  rw [order_byStart, order_byStart]
  have hempty : g.units = [] ↔ g'.units = [] := by
    rw [← length_eq_zero_iff, ← length_eq_zero_iff, hids.length_eq, hidsperm.length_eq]
  have hrootless : g.roots = [] ↔ g'.roots = [] := by
    rw [← length_eq_zero_iff, ← length_eq_zero_iff, hzs.length_eq, hzsperm.length_eq]
  by_cases hunits : g.units = []
  · rw [if_pos hunits, if_pos (hempty.mp hunits)]
    exact .order .nil
  · rw [if_neg hunits, if_neg (mt hempty.mpr hunits)]
    by_cases hroots : g.roots = []
    · rw [if_pos hroots, if_pos (hrootless.mp hroots)]
      refine .circular ?_
      rw [hnames.names_eq hids]
      exact (hidsperm.filterMap _).map _
    · rw [if_neg hroots, if_neg (mt hrootless.mpr hroots)]
      exact (h.rootsByStart hzs hzsperm).map fun _ _ => h.linearizeAll

end Matched

end Graph

end WordAsm
