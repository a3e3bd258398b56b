/-
# Walks through an include graph

A unit is put into the working order after the units it includes, and what is put
there is what the walk comes to: exactly the units that can be reached from its starting
points (`Graph.mem_linearizeAll`). The walk meets units on the way again where
includes go in circles, so what it keeps is said of the units it newly comes to: their
dependencies are come to as well (`Walked.closed`).

The graph is built up edge by edge, in both directions: a unit is among the dependents
of exactly those that are among its dependencies (`Graph.Mirrored`).
-/
import Mathlib.Data.List.Nodup
import Mathlib.Logic.Relation
import WordAsm.Depend.Order
import WordAsm.Proofs.Growth

namespace WordAsm

open List
open Relation (ReflTransGen)

namespace Graph

variable {starts : List UnitId} {x : UnitId} {f : DependencyNode → DependencyNode}
  {g : Graph} {w w' : Walk}

def DependsOn (g : Graph) (a b : UnitId) : Prop := b ∈ g.dependencies a

/-! ### Walks -/

/-- What a walk that goes on from `starts` adds: the starting points, whatever they
depend on, and nothing that cannot be reached from them. All of that is put into the
order. -/
structure Walked (g : Graph) (starts : List UnitId) (w w' : Walk) : Prop where
  visited : w.visited ⊆ w'.visited
  begun : starts ⊆ w'.visited
  closed : ∀ x ∈ w'.visited, x ∉ w.visited → ∀ y, g.DependsOn x y → y ∈ w'.visited
  reached : ∀ x ∈ w'.visited, x ∈ w.visited ∨ ∃ s ∈ starts, ReflTransGen g.DependsOn s x
  order : ∀ x, x ∈ w'.order ↔ x ∈ w.order ∨ (x ∈ w'.visited ∧ x ∉ w.visited)

theorem Walked.refl (w : Walk) : g.Walked [] w w where
  visited := List.Subset.refl _
  begun := nil_subset _
  closed _ hx hnew := absurd hx hnew
  reached _ hx := .inl hx
  order _ := ⟨.inl, fun h => h.elim id fun hx => absurd hx.1 hx.2⟩

theorem Walked.cons {start : UnitId} {w'' : Walk} (h : g.Walked [start] w w')
    (h' : g.Walked starts w' w'') :
    g.Walked (start :: starts) w w'' where
  visited := List.Subset.trans h.visited h'.visited
  begun := cons_subset.mpr ⟨h'.visited (h.begun (mem_singleton_self _)), h'.begun⟩
  closed x hx hnew y hxy := by
    by_cases hx' : x ∈ w'.visited
    · exact h'.visited (h.closed x hx' hnew y hxy)
    · exact h'.closed x hx hx' y hxy
  reached x hx := by
    rcases h'.reached x hx with hx | ⟨s, hs, hsx⟩
    · rcases h.reached x hx with hx | ⟨s, hs, hsx⟩
      · exact .inl hx
      · exact .inr ⟨s, mem_singleton.mp hs ▸ mem_cons_self, hsx⟩
    · exact .inr ⟨s, mem_cons_of_mem _ hs, hsx⟩
  order x := by
    have hsub := @h.visited x
    have hsub' := @h'.visited x
    rw [h'.order, h.order]
    tauto

theorem foldl_walked {step : Walk → UnitId → Walk} {P : Walk → Prop}
    (hstep : ∀ w next, P w → g.Walked [next] w (step w next))
    (hP : ∀ w w', P w → w.visited ⊆ w'.visited → P w') (starts : List UnitId) (h : P w) :
    g.Walked starts w (starts.foldl step w) := by
  induction starts generalizing w with
  | nil => exact Walked.refl w
  | cons start starts ih =>
    have hfirst := hstep w start h
    exact hfirst.cons (ih (hP _ _ h hfirst.visited))

theorem Walked.leave {unit : UnitId} (hunit : unit ∉ w.visited)
    (h : g.Walked (g.dependencies unit) { w with visited := unit :: w.visited } w') :
    g.Walked [unit] w { w' with order := w'.order ++ [unit] } where
  visited := List.Subset.trans (subset_cons_self unit w.visited) h.visited
  begun := cons_subset.mpr ⟨h.visited mem_cons_self, nil_subset _⟩
  closed x hx hnew y hxy := by
    by_cases hx' : x = unit
    · exact h.begun (hx' ▸ hxy)
    · refine h.closed x hx (fun hin => ?_) y hxy
      rcases mem_cons.mp hin with hin | hin
      · exact hx' hin
      · exact hnew hin
  reached x hx := by
    rcases h.reached x hx with hx | ⟨s, hs, hsx⟩
    · rcases mem_cons.mp hx with rfl | hx
      · exact .inr ⟨x, mem_singleton_self x, .refl⟩
      · exact .inl hx
    · exact .inr ⟨unit, mem_singleton_self unit, .head hs hsx⟩
  order x := by
    have hunit' : unit ∈ w'.visited := h.visited mem_cons_self
    have horder := h.order x
    simp only [mem_cons] at horder
    simp only [mem_append, mem_singleton]
    by_cases hx : x = unit
    · subst hx
      simp [hunit, hunit']
    · tauto

/-- **A visit.** By induction on the units that are left; those that depend on anything
and are not left have been come to. -/
theorem visit_walked (remaining : List UnitId) (unit : UnitId) (w : Walk)
    (hremaining : ∀ x, g.dependencies x ≠ [] → x ∉ remaining → x ∈ w.visited) :
    g.Walked [unit] w (g.visit remaining unit w) := by
  induction hn : remaining.length using Nat.strongRecOn generalizing remaining unit w with
  | ind n ih =>
    rw [visit]
    split
    · rename_i hvisited
      have hstay := Walked.refl (g := g) w
      refine ⟨hstay.visited, ?_, hstay.closed, fun x hx => .inl hx, hstay.order⟩
      exact cons_subset.mpr ⟨hvisited, nil_subset _⟩
    · rename_i hnew
      refine Walked.leave hnew ?_
      split
      · rename_i hleft
        refine foldl_walked
          (P := fun w => ∀ x, g.dependencies x ≠ [] → x ∉ without remaining unit → x ∈ w.visited)
          (fun w next hw => ?_) (fun w w' hw hsub x hx hout => hsub (hw x hx hout)) _ ?_
        · exact ih _ (hn ▸ length_without_lt hleft) _ next w hw rfl
        · intro x hx hout
          by_cases hxu : x = unit
          · exact hxu ▸ mem_cons_self
          · refine mem_cons_of_mem _ (hremaining x hx fun hin => hout ?_)
            exact mem_filter.mpr ⟨hin, decide_eq_true hxu⟩
      · rename_i hgone
        have hnothing : g.dependencies unit = [] := by
          by_contra hdeps
          exact hnew (hremaining unit hdeps hgone)
        rw [hnothing]
        exact Walked.refl _

theorem mem_units_of_node? {n : DependencyNode} (h : g.node? x = some n) : x ∈ g.units := by
  have hunit : n.unit = x := by simpa using find?_some h
  exact hunit ▸ mem_map_of_mem (mem_of_find?_eq_some h)

theorem mem_units_of_dependencies (h : g.dependencies x ≠ []) : x ∈ g.units := by
  unfold dependencies at h
  split at h
  · rename_i n hn
    exact mem_units_of_node? hn
  · exact absurd rfl h

/-- **What is linearized** is what can be reached. -/
theorem mem_linearizeAll :
    x ∈ g.linearizeAll starts ↔ ∃ s ∈ starts, ReflTransGen g.DependsOn s x := by
  have hwalked : g.Walked starts {} (starts.foldl (fun w root => g.visit g.units root w) {}) :=
    foldl_walked (P := fun _ => True)
      (fun w next _ => visit_walked g.units next w fun x hx hout =>
        absurd (mem_units_of_dependencies hx) hout)
      (fun _ _ _ _ => trivial) starts trivial
  unfold linearizeAll
  rw [hwalked.order]
  constructor
  · rintro (hx | ⟨hx, -⟩)
    · cases hx
    · exact (hwalked.reached x hx).resolve_left (not_mem_nil)
  · rintro ⟨s, hs, hsx⟩
    refine .inr ⟨?_, not_mem_nil⟩
    induction hsx with
    | refl => exact hwalked.begun hs
    | tail _ hyz ih => exact hwalked.closed _ ih not_mem_nil _ hyz

/-! ### The working order -/

/-- **The working order** is what some of the roots reach; by start addresses, all of them. -/
theorem order_eq {units : Units} {tree : FileTree} {selector : RootSelector} {order : List UnitId}
    (h : g.order units tree selector = .ok order) :
    ∃ chosen, order = g.linearizeAll chosen ∧ chosen ⊆ g.roots ∧
      (selector = .byStart → g.roots ⊆ chosen) := by
  unfold Graph.order at h
  split at h
  · rename_i hnodes
    cases h
    refine ⟨[], rfl, nil_subset _, fun _ => ?_⟩
    rw [roots, hnodes]
    exact nil_subset _
  · cases h
  · rename_i root hroots _
    cases h
    exact ⟨[root], rfl, by rw [hroots]; exact ⟨List.Subset.refl _, fun _ => List.Subset.refl _⟩⟩
  · cases selector with
    | byStart =>
      simp only [rootsByStart] at h
      split at h
      · cases h
      · cases h
        refine ⟨_, rfl, fun x hx => ?_, fun _ x hx => ?_⟩
        · exact mem_mergeSort.mp hx
        · exact mem_mergeSort.mpr hx
    | byRoot root =>
      simp only [rootIncluding] at h
      split at h
      · rename_i found hfound
        cases h
        obtain ⟨target, -, hroot⟩ := Option.bind_eq_some_iff.mp hfound
        refine ⟨[found], rfl, ?_, fun hsel => by cases hsel⟩
        exact cons_subset.mpr ⟨mem_of_find?_eq_some hroot, nil_subset _⟩
      · cases h

/-! ### Building a graph -/

def Notes (g : Graph) (list : DependencyNode → List UnitId) (a b : UnitId) : Prop :=
  ∃ n, g.node? a = some n ∧ b ∈ list n

theorem dependsOn_iff {a b : UnitId} :
    g.DependsOn a b ↔ g.Notes DependencyNode.dependencies a b := by
  unfold DependsOn dependencies Notes
  cases g.node? a with
  | none | some => simp

theorem node?_addNode (g : Graph) (unit x : UnitId) : (g.addNode unit).node? x =
      if x = unit then some ((g.node? unit).getD { unit }) else g.node? x := by
  unfold addNode
  split
  · rename_i hin
    split
    · rename_i hx
      subst hx
      obtain ⟨n, hn, hunit⟩ := mem_map.mp hin
      have hsome : (g.node? x).isSome :=
        find?_isSome.mpr ⟨n, hn, by simpa using hunit⟩
      obtain ⟨m, hm⟩ := Option.isSome_iff_exists.mp hsome
      rw [hm, Option.getD_some]
    · rfl
  · rename_i hout
    have hnone : g.node? unit = none := by
      refine List.find?_eq_none.mpr fun n hn hunit => hout ?_
      exact mem_map.mpr ⟨n, hn, by simpa using hunit⟩
    unfold node? at hnone ⊢
    rw [List.find?_append, hnone]
    split
    · rename_i hx
      subst hx
      rw [hnone]
      simp
    · rename_i hx
      have hne : unit ≠ x := fun he => hx he.symm
      simp [hne]

theorem node?_modify (hf : ∀ n, (f n).unit = n.unit) (g : Graph) (unit x : UnitId) :
    (g.modify unit f).node? x = if x = unit then (g.node? x).map f else g.node? x := by
  have hsame : ((fun n : DependencyNode => n.unit == x) ∘ fun n => if n.unit = unit then f n else n)
      = fun n => n.unit == x := by
    funext n
    simp only [Function.comp]
    split <;> simp [hf]
  unfold modify node?
  rw [find?_map, hsame]
  cases hn : g.nodes.find? fun n => n.unit == x with
  | none => simp
  | some n =>
    have hunit : n.unit = x := by simpa using find?_some hn
    simp only [Option.map_some, hunit]
    split <;> rfl

theorem units_modify (hf : ∀ n, (f n).unit = n.unit) (g : Graph) (unit : UnitId) :
    (g.modify unit f).units = g.units := by
  unfold modify units
  rw [map_map]
  refine map_congr_left fun n _ => ?_
  simp only [Function.comp]
  split <;> simp [hf]

theorem units_addNode (g : Graph) (unit : UnitId) :
    (g.addNode unit).units = insertNew g.units unit := by
  unfold addNode insertNew
  split
  · rfl
  · simp [units]

section Lists

variable {f : DependencyNode → DependencyNode} {list : DependencyNode → List UnitId}
  {unit a b : UnitId}

theorem notes_addNode (hnew : ∀ unit, list { unit } = []) :
    (g.addNode unit).Notes list a b ↔ g.Notes list a b := by
  unfold Notes
  rw [node?_addNode]
  split
  · rename_i ha
    subst ha
    cases g.node? a with
    | none => simp [hnew]
    | some n => simp
  · rfl

theorem notes_modify_of_eq (hf : ∀ n, (f n).unit = n.unit) (hlist : ∀ n, list (f n) = list n) :
    (g.modify unit f).Notes list a b ↔ g.Notes list a b := by
  unfold Notes
  rw [node?_modify hf]
  split
  · cases g.node? a with
    | none => simp
    | some n => simp [hlist]
  · rfl

theorem notes_modify_insertNew {c : UnitId} (hf : ∀ n, (f n).unit = n.unit)
    (hlist : ∀ n, list (f n) = insertNew (list n) c) :
    ((g.addNode unit).modify unit f).Notes list a b ↔
      (g.addNode unit).Notes list a b ∨ (a = unit ∧ b = c) := by
  unfold Notes
  rw [node?_modify hf, node?_addNode]
  by_cases ha : a = unit
  · simp [ha, hlist, Units.mem_insertNew]
  · simp [ha]

end Lists

section Steps

variable {unit on a b : UnitId}

theorem notes_setStart {list : DependencyNode → List UnitId} (hnew : ∀ unit, list { unit } = [])
    (start : Address) (hlist : ∀ n : DependencyNode, list { n with start } = list n) :
    (g.setStart unit start).Notes list a b ↔ g.Notes list a b :=
  Iff.trans (notes_modify_of_eq (fun _ => rfl) hlist) (notes_addNode hnew)

theorem dependsOn_addDependency :
    (g.addDependency unit on).DependsOn a b ↔ g.DependsOn a b ∨ (a = unit ∧ b = on) := by
  rw [dependsOn_iff, dependsOn_iff]
  refine Iff.trans (notes_modify_of_eq (fun _ => rfl) fun _ => rfl) ?_
  refine Iff.trans (notes_addNode fun _ => rfl) ?_
  refine Iff.trans (notes_modify_insertNew (fun _ => rfl) fun _ => rfl) (or_congr_left ?_)
  exact notes_addNode fun _ => rfl

theorem dependents_addDependency :
    (g.addDependency unit on).Notes DependencyNode.dependents a b ↔
      g.Notes DependencyNode.dependents a b ∨ (a = on ∧ b = unit) := by
  refine Iff.trans (notes_modify_insertNew (fun _ => rfl) fun _ => rfl) (or_congr_left ?_)
  refine Iff.trans (notes_addNode fun _ => rfl) ?_
  refine Iff.trans (notes_modify_of_eq (fun _ => rfl) fun _ => rfl) ?_
  exact notes_addNode fun _ => rfl

theorem units_setStart (g : Graph) (unit : UnitId) (start : Address) :
    (g.setStart unit start).units = insertNew g.units unit := by
  unfold setStart
  rw [units_modify, units_addNode]
  exact fun _ => rfl

theorem units_addDependency (g : Graph) (unit on : UnitId) :
    (g.addDependency unit on).units = insertNew (insertNew g.units unit) on := by
  simp only [addDependency]
  rw [units_modify, units_addNode, units_modify, units_addNode]
  · exact fun _ => rfl
  · exact fun _ => rfl

end Steps

/-- A graph with one node for each of its units, whose edges are noted at both ends. -/
structure Mirrored (g : Graph) : Prop where
  nodup : g.units.Nodup
  edges : ∀ a b, g.Notes DependencyNode.dependents b a ↔ g.DependsOn a b

namespace Mirrored

theorem nodup_insertNew {xs : List UnitId} (h : xs.Nodup) (x : UnitId) :
    (insertNew xs x).Nodup := by
  unfold insertNew
  split
  · exact h
  · rename_i hout
    exact concat_eq_append ▸ h.concat hout

theorem empty : ({} : Graph).Mirrored := by
  refine ⟨nodup_nil, fun a b => ?_⟩
  rw [dependsOn_iff]
  exact iff_of_false (fun ⟨n, hn, _⟩ => by cases hn) fun ⟨n, hn, _⟩ => by cases hn

theorem addNode (h : g.Mirrored) (unit : UnitId) : (g.addNode unit).Mirrored := by
  refine ⟨units_addNode g unit ▸ nodup_insertNew h.nodup unit, fun a b => ?_⟩
  have hedge := h.edges a b
  rw [dependsOn_iff] at hedge ⊢
  rw [notes_addNode fun _ => rfl, notes_addNode fun _ => rfl, hedge]

theorem setStart (h : g.Mirrored) (unit : UnitId) (start : Address) :
    (g.setStart unit start).Mirrored := by
  refine ⟨units_setStart g unit start ▸ nodup_insertNew h.nodup unit, fun a b => ?_⟩
  have hedge := h.edges a b
  rw [dependsOn_iff] at hedge ⊢
  rw [notes_setStart (fun _ => rfl) start fun _ => rfl,
    notes_setStart (fun _ => rfl) start fun _ => rfl, hedge]

theorem addDependency (h : g.Mirrored) (unit on : UnitId) : (g.addDependency unit on).Mirrored := by
  refine ⟨?_, fun a b => ?_⟩
  · rw [units_addDependency]
    exact nodup_insertNew (nodup_insertNew h.nodup unit) on
  · rw [dependents_addDependency, dependsOn_addDependency, h.edges, and_comm]

theorem mem_units_of_dependsOn (h : g.Mirrored) {a b : UnitId} (hab : g.DependsOn a b) :
    b ∈ g.units := by
  obtain ⟨n, hn, -⟩ := (h.edges a b).mpr hab
  exact mem_units_of_node? hn

/-- **Roots** are the units that nothing in the graph depends on. -/
theorem mem_roots (h : g.Mirrored) {unit : UnitId} :
    unit ∈ g.roots ↔ unit ∈ g.units ∧ ∀ a, ¬ g.DependsOn a unit := by
  -- with one node for each unit, a node is found under its number
  have hfind : ∀ n ∈ g.nodes, g.node? n.unit = some n := by
    intro n hn
    obtain ⟨m, hm⟩ := Option.isSome_iff_exists.mp
      (find?_isSome.mpr ⟨n, hn, beq_self_eq_true n.unit⟩ :
        (g.nodes.find? fun k => k.unit == n.unit).isSome)
    have hunit : m.unit = n.unit := by simpa using find?_some hm
    have hsame : m = n :=
      inj_on_of_nodup_map h.nodup (mem_of_find?_eq_some hm) hn hunit
    exact hsame ▸ hm
  constructor
  · intro hroot
    obtain ⟨n, hn, rfl⟩ := mem_map.mp hroot
    obtain ⟨hn, hempty⟩ := mem_filter.mp hn
    refine ⟨mem_map_of_mem hn, fun a ha => ?_⟩
    obtain ⟨m, hm, hin⟩ := (h.edges a n.unit).mpr ha
    obtain rfl : n = m := Option.some.inj ((hfind n hn).symm.trans hm)
    rw [List.isEmpty_iff.mp hempty] at hin
    cases hin
  · rintro ⟨hunit, hnone⟩
    obtain ⟨n, hn, rfl⟩ := mem_map.mp hunit
    refine mem_map.mpr ⟨n, mem_filter.mpr ⟨hn, ?_⟩, rfl⟩
    rw [List.isEmpty_iff, eq_nil_iff_forall_not_mem]
    exact fun a ha => hnone a ((h.edges a n.unit).mp ⟨n, hfind n hn, ha⟩)

end Mirrored

end Graph

end WordAsm
