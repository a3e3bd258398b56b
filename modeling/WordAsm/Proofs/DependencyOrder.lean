/-
# Dependencies come first

However a graph was put together, the order it asks for has each unit that the chosen roots
reach, once, and a unit behind the units it includes, as far as circular includes allow that
(`Graph.OrderedFrom`).

In a circle there is no telling which unit should come first, and the walk decides it by
where it enters the circle. The units that it has come to but not left are those that it is
on the way from: each of them reaches the unit at hand (`Walk.Tidy`). So when a unit is left,
a unit that it includes has been left too, or leads back to it.

Whether one unit reaches another is found by a search of its own, which goes through the
graph in another order and stops early. Both agree with the edges (`contains_iff`,
`mem_linearizeAll`).
-/
import Mathlib.Data.List.Induction
import Mathlib.Data.List.Permutation
import Mathlib.Data.Set.Insert
import WordAsm.Proofs.RenumberedGraphs

namespace WordAsm

open List
open Relation (ReflTransGen)

/-! ### Graphs, edit by edit -/

/-- What can be noted in a graph: a unit, with the address where it starts if that is known,
or that a unit includes another one. -/
inductive GraphEdit
  | node (unit : UnitId) (start : Option Address)
  | dependency (unit on : UnitId)
  deriving DecidableEq

namespace Graph

variable {seen : Set UnitId} {root unit : UnitId} {g : Graph} {w : Walk}
  {pending remaining roots stack : List UnitId}

def edit (g : Graph) : GraphEdit → Graph
  | .node unit none => g.addNode unit
  | .node unit (some start) => g.setStart unit start
  | .dependency unit on => g.addDependency unit on

def ofEdits (edits : List GraphEdit) : Graph := edits.foldl edit {}

theorem Mirrored.edit (h : g.Mirrored) (e : GraphEdit) : (g.edit e).Mirrored := by
  match e with
  | .node unit none => exact h.addNode unit
  | .node unit (some start) => exact h.setStart unit start
  | .dependency unit on => exact h.addDependency unit on

theorem mirrored_ofEdits (edits : List GraphEdit) : (ofEdits edits).Mirrored :=
  List.foldlRecOn (motive := Mirrored) edits _ Mirrored.empty fun _ h e _ => h.edit e

/-! ### The search for a unit -/

theorem exists_of_reaches (h : g.reaches unit remaining pending = true) :
    ∃ s ∈ pending, ReflTransGen g.DependsOn s unit := by
  fun_induction reaches g unit remaining pending with
  | case1 => cases h
  | case2 => exact ⟨_, mem_cons_self, .refl⟩
  | case3 remaining current pending _ _ ih =>
    obtain ⟨s, hs, hsu⟩ := ih h
    rcases mem_append.mp hs with hs | hs
    · exact ⟨current, mem_cons_self, .head hs hsu⟩
    · exact ⟨s, mem_cons_of_mem _ hs, hsu⟩
  | case4 remaining current pending _ _ ih =>
    obtain ⟨s, hs, hsu⟩ := ih h
    exact ⟨s, mem_cons_of_mem _ hs, hsu⟩

/-- A search for `unit` that has been through the units `seen`. -/
structure Searched (g : Graph) (unit : UnitId) (remaining pending : List UnitId)
    (seen : Set UnitId) : Prop where
  missed : unit ∉ seen
  closed : ∀ x ∈ seen, ∀ y, g.DependsOn x y → y ∈ seen ∨ y ∈ pending
  rest : ∀ x, g.dependencies x ≠ [] → x ∈ remaining ∨ x ∈ seen

theorem Searched.next {current : UnitId} {remaining' : List UnitId} {pending' : List UnitId}
    (h : g.Searched unit remaining (current :: pending) seen) (hne : current ≠ unit)
    (hpending : pending ⊆ pending')
    (hfollowed : ∀ y, g.DependsOn current y → y ∈ seen ∨ y ∈ pending' ∨ y = current)
    (hrest : ∀ x ∈ remaining, x ∈ remaining' ∨ x = current) :
    g.Searched unit remaining' pending' (insert current seen) where
  missed hin := hin.elim (fun he => hne he.symm) h.missed
  closed x hx y hxy := by
    rcases hx with rfl | hx
    · rcases hfollowed y hxy with hy | hy | rfl
      · exact .inl (.inr hy)
      · exact .inr hy
      · exact .inl (.inl rfl)
    · rcases h.closed x hx y hxy with hy | hy
      · exact .inl (.inr hy)
      · rcases mem_cons.mp hy with rfl | hy
        · exact .inl (.inl rfl)
        · exact .inr (hpending hy)
  rest x hx := by
    rcases h.rest x hx with hin | hin
    · rcases hrest x hin with hin | rfl
      · exact .inl hin
      · exact .inr (.inl rfl)
    · exact .inr (.inr hin)

/-- **A search that fails** has been through all that can be reached. -/
theorem not_reached_of_reaches (h : g.reaches unit remaining pending = false)
    (hseen : g.Searched unit remaining pending seen) {s : UnitId} (hs : s ∈ seen ∨ s ∈ pending) :
    ¬ ReflTransGen g.DependsOn s unit := by
  fun_induction reaches g unit remaining pending generalizing seen with
  | case1 remaining =>
    intro hsu
    have hclosed : ∀ x, ReflTransGen g.DependsOn s x → x ∈ seen := by
      intro x hx
      induction hx with
      | refl => exact hs.resolve_right not_mem_nil
      | tail _ hyz ih => exact (hseen.closed _ ih _ hyz).resolve_right not_mem_nil
    exact hseen.missed (hclosed unit hsu)
  | case2 => cases h
  | case3 remaining current pending hne hleft ih =>
    refine ih h (hseen.next hne (subset_append_right ..) (fun y hy => ?_) fun x hx => ?_) ?_
    · exact .inr (.inl (mem_append_left _ hy))
    · by_cases he : x = current
      · exact .inr he
      · exact .inl (mem_filter.mpr ⟨hx, decide_eq_true he⟩)
    · rcases hs with hs | hs
      · exact .inl (.inr hs)
      · rcases mem_cons.mp hs with rfl | hs
        · exact .inl (.inl rfl)
        · exact .inr (mem_append_right _ hs)
  | case4 remaining current pending hne hgone ih =>
    refine ih h (hseen.next hne (List.Subset.refl _) (fun y hy => ?_) fun x hx => .inl hx) ?_
    · -- a unit that is not left has been seen before, or includes nothing
      have hdeps : g.dependencies current ≠ [] := ne_nil_of_mem hy
      have hold : current ∈ seen := (hseen.rest current hdeps).resolve_left hgone
      rcases hseen.closed current hold y hy with hin | hin
      · exact .inl hin
      · exact .inr ((mem_cons.mp hin).symm)
    · rcases hs with hs | hs
      · exact .inl (.inr hs)
      · rcases mem_cons.mp hs with rfl | hs
        · exact .inl (.inl rfl)
        · exact .inr hs

/-- **The search finds what can be reached.** -/
theorem contains_iff : g.contains root unit = true ↔ ReflTransGen g.DependsOn root unit := by
  constructor
  · intro h
    obtain ⟨s, hs, hsu⟩ := exists_of_reaches h
    exact mem_singleton.mp hs ▸ hsu
  · intro h
    by_contra hnot
    have hstart : g.Searched unit g.units [root] ∅ :=
      ⟨Set.notMem_empty _, fun _ hx => hx.elim, fun x hx => .inl (mem_units_of_dependencies hx)⟩
    refine not_reached_of_reaches (Bool.eq_false_iff.mpr hnot) hstart ?_ h
    exact .inr (mem_singleton_self root)

/-! ### Walks leave dependencies first -/

/-- A walk on the way from the units of `stack`: it has come to those and to the units it
has left, and a unit that it has left is behind the units it includes, unless they lead back
to it. -/
structure Walk.Tidy (g : Graph) (stack : List UnitId) (w : Walk) : Prop where
  nodup : w.order.Nodup
  visited : ∀ x, x ∈ w.visited ↔ x ∈ w.order ∨ x ∈ stack
  apart : ∀ x ∈ stack, x ∉ w.order
  behind : ∀ x ∈ w.order, ∀ y, g.DependsOn x y →
    [y, x].Sublist w.order ∨ ReflTransGen g.DependsOn y x

theorem Walk.Tidy.empty : ({} : Walk).Tidy g [] where
  nodup := nodup_nil
  visited _ := ⟨fun h => .inl h, fun h => h.elim id id⟩
  apart _ h := absurd h not_mem_nil
  behind _ h := absurd h not_mem_nil

theorem Walk.Tidy.enter (h : w.Tidy g stack) (hnew : unit ∉ w.visited) :
    Walk.Tidy g (unit :: stack) { w with visited := unit :: w.visited } where
  nodup := h.nodup
  visited x := by
    simp only [mem_cons, h.visited x]
    tauto
  apart x hx hin := by
    rcases mem_cons.mp hx with rfl | hx
    · exact hnew ((h.visited x).mpr (.inl hin))
    · exact h.apart x hx hin
  behind := h.behind

theorem Walk.Tidy.leave (h : w.Tidy g (unit :: stack)) (hfresh : unit ∉ stack)
    (hstack : ∀ s ∈ stack, ReflTransGen g.DependsOn s unit)
    (hbegun : ∀ y, g.DependsOn unit y → y ∈ w.visited) :
    Walk.Tidy g stack { w with order := w.order ++ [unit] } where
  nodup := by
    have hout := h.apart unit mem_cons_self
    exact concat_eq_append ▸ h.nodup.concat hout
  visited x := by
    simp only [h.visited x, mem_cons, mem_append, not_mem_nil, or_false]
    tauto
  apart x hx hin := by
    rcases mem_append.mp hin with hin | hin
    · exact h.apart x (mem_cons_of_mem _ hx) hin
    · exact hfresh (mem_singleton.mp hin ▸ hx)
  behind x hx y hxy := by
    rcases mem_append.mp hx with hx | hx
    · exact (h.behind x hx y hxy).imp_left fun hsub => hsub.trans (sublist_append_left ..)
    · obtain rfl := mem_singleton.mp hx
      rcases (h.visited y).mp (hbegun y hxy) with hy | hy
      · exact .inl ((singleton_sublist.mpr hy).append (List.Sublist.refl [x]))
      · rcases mem_cons.mp hy with rfl | hy
        · exact .inr .refl
        · exact .inr (hstack y hy)

/-- **A visit** leaves what it comes to. By induction on the units that are left, as in
`visit_walked`. -/
theorem visit_tidy (remaining : List UnitId) (unit : UnitId) (w : Walk)
    (hremaining : ∀ x, g.dependencies x ≠ [] → x ∉ remaining → x ∈ w.visited) (hw : w.Tidy g stack)
    (hstack : ∀ s ∈ stack, ReflTransGen g.DependsOn s unit) :
    (g.visit remaining unit w).Tidy g stack := by
  induction hn : remaining.length using Nat.strongRecOn generalizing remaining unit w stack with
  | ind n ih =>
    have hclosed := (visit_walked remaining unit w hremaining).closed unit
    have hbegun := (visit_walked remaining unit w hremaining).begun (mem_singleton_self unit)
    rw [visit] at hclosed hbegun ⊢
    split
    · exact hw
    · rename_i hnew
      rw [if_neg hnew] at hclosed hbegun
      have hfresh : unit ∉ stack := fun hin => hnew ((hw.visited unit).mpr (.inr hin))
      have hentered := hw.enter hnew
      refine Walk.Tidy.leave ?_ hfresh hstack (hclosed hbegun hnew)
      split
      · rename_i hleft
        -- below the unit, the way goes on from it
        have hbelow : ∀ y ∈ g.dependencies unit, ∀ s ∈ unit :: stack,
            ReflTransGen g.DependsOn s y := by
          intro y hy s hs
          rcases mem_cons.mp hs with rfl | hs
          · exact .single hy
          · exact (hstack s hs).tail hy
        refine (List.foldlRecOn (motive := fun v : Walk => v.Tidy g (unit :: stack) ∧
          ∀ x, g.dependencies x ≠ [] → x ∉ without remaining unit → x ∈ v.visited)
          (g.dependencies unit) _ ⟨hentered, fun x hx hout => ?_⟩ fun v hv y hy => ?_).1
        · by_cases hxu : x = unit
          · exact hxu ▸ mem_cons_self
          · refine mem_cons_of_mem _ (hremaining x hx fun hin => hout ?_)
            exact mem_filter.mpr ⟨hin, decide_eq_true hxu⟩
        · refine ⟨ih _ (hn ▸ length_without_lt hleft) _ y v hv.2 hv.1 (hbelow y hy) rfl, ?_⟩
          exact fun x hx hout => (visit_walked _ y v hv.2).visited (hv.2 x hx hout)
      · exact hentered

theorem order_prefix_visit (remaining : List UnitId) (unit : UnitId) (w : Walk) :
    w.order <+: (g.visit remaining unit w).order := by
  induction hn : remaining.length using Nat.strongRecOn generalizing remaining unit w with
  | ind n ih =>
    rw [visit]
    split
    · exact prefix_rfl
    · refine List.IsPrefix.trans ?_ (prefix_append ..)
      split
      · rename_i hleft
        refine List.foldlRecOn (motive := fun v : Walk => w.order <+: v.order)
          (g.dependencies unit) _ prefix_rfl fun v hv y _ => ?_
        exact hv.trans (ih _ (hn ▸ length_without_lt hleft) _ y v rfl)
      · exact prefix_rfl

theorem order_prefix_foldl (remaining starts : List UnitId) (w : Walk) :
    w.order <+: (starts.foldl (fun w next => g.visit remaining next w) w).order :=
  List.foldlRecOn (motive := fun v : Walk => w.order <+: v.order) starts _ prefix_rfl
    fun v hv next _ => hv.trans (order_prefix_visit remaining next v)

theorem order_visit_of_new (remaining : List UnitId) (h : unit ∉ w.visited) :
    ∃ between, (g.visit remaining unit w).order = w.order ++ between ++ [unit] := by
  rw [visit, if_neg h]
  dsimp only
  split
  · obtain ⟨between, hbetween⟩ := g.order_prefix_foldl (without remaining unit)
      (g.dependencies unit) { w with visited := unit :: w.visited }
    exact ⟨between, by rw [← hbetween]⟩
  · exact ⟨[], by simp⟩

/-! ### The units that some roots reach -/

/-- `order` has what `roots` reach, each unit once and behind the units it includes, unless
these lead back to it. -/
structure OrderedFrom (g : Graph) (roots order : List UnitId) : Prop where
  nodup : order.Nodup
  mem : ∀ u, u ∈ order ↔ ∃ r ∈ roots, g.contains r u = true
  behind : ∀ u ∈ order, ∀ v, g.DependsOn u v → g.contains v u = false → [v, u].Sublist order

theorem tidy_of_roots (g : Graph) (roots : List UnitId) :
    Walk.Tidy g [] (roots.foldl (fun w root => g.visit g.units root w) {}) := by
  refine List.foldlRecOn (motive := fun w : Walk => w.Tidy g []) roots _ .empty ?_
  intro w hw root _
  refine visit_tidy g.units root w (fun x hx hout => ?_) hw fun s hs => ?_
  · exact absurd (mem_units_of_dependencies hx) hout
  · exact absurd hs not_mem_nil

/-- **What is linearized** is in order. -/
theorem orderedFrom_linearizeAll (g : Graph) (roots : List UnitId) :
    g.OrderedFrom roots (g.linearizeAll roots) := by
  have htidy := g.tidy_of_roots roots
  refine ⟨htidy.nodup, fun u => ?_, fun u hu v huv hback => ?_⟩
  · rw [mem_linearizeAll]
    simp only [contains_iff]
  · refine (htidy.behind u hu v huv).resolve_right fun hvu => ?_
    exact Bool.eq_false_iff.mp hback (contains_iff.mpr hvu)

theorem linearizeAll_prefix (g : Graph) (roots roots' : List UnitId) :
    g.linearizeAll roots <+: g.linearizeAll (roots ++ roots') := by
  unfold linearizeAll
  rw [foldl_append]
  exact order_prefix_foldl ..

theorem linearizeAll_concat (h : root ∉ g.linearizeAll roots) :
    ∃ between, g.linearizeAll (roots ++ [root]) = g.linearizeAll roots ++ between ++ [root] := by
  have hnew : root ∉ (roots.foldl (fun w root => g.visit g.units root w) {}).visited := by
    intro hin
    exact h (((g.tidy_of_roots roots).visited root).mp hin |>.resolve_right not_mem_nil)
  unfold linearizeAll
  rw [foldl_append]
  exact order_visit_of_new g.units hnew

theorem sublist_linearizeAll (hnodup : roots.Nodup) (hroots : ∀ r ∈ roots, ∀ a, ¬ g.DependsOn a r) :
    roots.Sublist (g.linearizeAll roots) := by
  induction roots using List.reverseRecOn with
  | nil => exact nil_sublist _
  | append_singleton roots root ih =>
    obtain ⟨hfirst, -, hapart⟩ := nodup_append.mp hnodup
    have hlast : root ∈ [root] := mem_singleton_self root
    have hout : root ∉ g.linearizeAll roots := by
      intro hin
      obtain ⟨r, hr, hreach⟩ := mem_linearizeAll.mp hin
      rcases hreach.cases_tail with rfl | ⟨a, -, ha⟩
      · exact hapart root hr root hlast rfl
      · exact hroots root (mem_append_right _ hlast) a ha
    obtain ⟨between, hbetween⟩ := linearizeAll_concat hout
    have hbefore := ih hfirst fun r hr => hroots r (mem_append_left _ hr)
    rw [hbetween]
    exact (hbefore.trans (sublist_append_left ..)).append (List.Sublist.refl [root])

/-! ### The choice of roots -/

/-- The roots that a selector chooses: all of them by ascending start address, or, if there
are several, the first one that includes a given source. -/
def Selects (g : Graph) (units : Units) (tree : FileTree) (chosen : List UnitId) :
    RootSelector → Prop
  | .byStart =>
    chosen.Perm g.roots ∧ chosen.Pairwise fun a b => (g.startOf a).toNat < (g.startOf b).toNat
  | .byRoot source =>
    (g.roots.length ≤ 1 ∧ chosen = g.roots) ∨
      1 < g.roots.length ∧ ∃ target root, units.find? tree source = some target ∧
        g.roots.find? (g.contains · target) = some root ∧ chosen = [root]

theorem sublist_of_equalNeighbours? {α κ : Type} [DecidableEq κ] {key : α → κ} {xs : List α}
    {a b : α} (h : equalNeighbours? key xs = some (a, b)) :
    key a = key b ∧ [a, b].Sublist xs := by
  fun_induction equalNeighbours? key xs with
  | case1 c d rest hkey =>
    cases h
    exact ⟨hkey, sublist_append_left [a, b] rest⟩
  | case2 c d rest _ ih => exact ⟨(ih h).1, (ih h).2.cons c⟩
  | case3 => cases h

/-- **Roots by start address**: they can be sorted, or two of them start at one address. -/
theorem rootsByStart_cases (g : Graph) (units : Units) (hnodup : roots.Nodup) :
    (∃ chosen, g.rootsByStart units roots = .ok chosen ∧ chosen.Perm roots ∧
      chosen.Pairwise fun a b => (g.startOf a).toNat < (g.startOf b).toNat) ∨
    ∃ a ∈ roots, ∃ b ∈ roots, a ≠ b ∧ g.startOf a = g.startOf b ∧ g.rootsByStart units roots =
        .error (.ambiguousOrder (units.nameOf a) (units.nameOf b) (g.startOf a)) := by
  have hperm := mergeSort_perm roots fun a b => (g.startOf a).toNat ≤ (g.startOf b).toNat
  have hsorted := g.sortedByStart_mergeSort roots
  unfold rootsByStart
  dsimp only
  split
  · rename_i a b hequal
    obtain ⟨hstart, hsub⟩ := sublist_of_equalNeighbours? hequal
    have hne : a ≠ b := by simpa using (hperm.nodup_iff.mpr hnodup).sublist hsub
    have hmem : ∀ x ∈ [a, b], x ∈ roots := fun x hx => hperm.mem_iff.mp (hsub.subset hx)
    exact .inr ⟨a, hmem a (by simp), b, hmem b (by simp), hne, hstart, rfl⟩
  · rename_i hnone
    exact .inl ⟨_, rfl, hperm, pairwise_lt_of_equalNeighbours? hsorted hnone⟩

theorem roots_eq_nil_iff : g.roots = [] ↔ ∀ n ∈ g.nodes, n.dependents ≠ [] := by
  simp [roots, filter_eq_nil_iff]

theorem order_byRoot (g : Graph) (units : Units) (tree : FileTree) (source : Resource) :
    g.order units tree (.byRoot source) =
      if g.nodes = [] then .ok []
      else if g.roots = [] then
        .error (.circularInclude ((g.units.filterMap units.get?).map SourceUnit.identifier))
      else if g.roots.length = 1 then .ok (g.linearizeAll g.roots)
      else (g.rootIncluding units tree source g.roots).map g.linearizeAll := by
  unfold order
  split
  · rename_i hnodes
    rw [if_pos hnodes]
  · rename_i hroots hnodes
    rw [if_neg hnodes, if_pos hroots]
  · rename_i root hroots hnodes
    rw [if_neg hnodes, hroots]
    rfl
  · rename_i hnodes hroots hroot
    have hone : g.roots.length ≠ 1 := fun hlength =>
      (length_eq_one_iff.mp hlength).elim fun root he => hroot root he
    rw [if_neg hnodes, if_neg hroots, if_neg hone]

section Selected

variable {units : Units} {tree : FileTree} {selector : RootSelector} {chosen order : List UnitId}

theorem Selects.subset_roots (h : g.Selects units tree chosen selector) : chosen ⊆ g.roots := by
  match selector, h with
  | .byStart, h => exact h.1.subset
  | .byRoot _, .inl ⟨_, h⟩ => exact h ▸ List.Subset.refl _
  | .byRoot _, .inr ⟨_, _, root, _, hroot, h⟩ =>
    exact h ▸ cons_subset.mpr ⟨mem_of_find?_eq_some hroot, nil_subset _⟩

theorem Selects.nodup (h : g.Selects units tree chosen selector) (hg : g.Mirrored) :
    chosen.Nodup := by
  match selector, h with
  | .byStart, h => exact h.1.nodup_iff.mpr hg.nodup_roots
  | .byRoot _, .inl ⟨_, h⟩ => exact h ▸ hg.nodup_roots
  | .byRoot _, .inr ⟨_, _, root, _, _, h⟩ => exact h ▸ nodup_singleton root

theorem selects_byStart (hg : g.Mirrored) (h : g.order units tree .byStart = .ok order) :
    ∃ chosen, g.Selects units tree chosen .byStart ∧ order = g.linearizeAll chosen := by
  rw [order_byStart] at h
  split at h
  · rename_i hunits
    cases h
    have hroots : g.roots = [] := by
      rw [roots, map_eq_nil_iff.mp hunits]
      rfl
    exact ⟨[], ⟨hroots ▸ List.Perm.refl _, .nil⟩, rfl⟩
  · split at h
    · cases h
    · rcases g.rootsByStart_cases units hg.nodup_roots with
        ⟨chosen, hchosen, hselects⟩ | ⟨_, _, _, _, _, _, herror⟩
      · rw [hchosen] at h
        cases h
        exact ⟨chosen, hselects, rfl⟩
      · rw [herror] at h
        cases h

theorem selects_byRoot {source : Resource} (h : g.order units tree (.byRoot source) = .ok order) :
    ∃ chosen, g.Selects units tree chosen (.byRoot source) ∧ order = g.linearizeAll chosen := by
  rw [order_byRoot] at h
  split at h
  · rename_i hnodes
    cases h
    have hroots : g.roots = [] := by
      rw [roots, hnodes]
      rfl
    exact ⟨[], .inl ⟨by simp [hroots], hroots.symm⟩, rfl⟩
  · split at h
    · cases h
    · split at h
      · rename_i hone
        cases h
        exact ⟨g.roots, .inl ⟨Nat.le_of_eq hone, rfl⟩, rfl⟩
      · rename_i hroots hone
        have hseveral : 1 < g.roots.length := by
          have hsome := length_pos_iff.mpr hroots
          omega
        simp only [rootIncluding] at h
        split at h
        · rename_i root hfound
          cases h
          obtain ⟨target, htarget, hroot⟩ := Option.bind_eq_some_iff.mp hfound
          exact ⟨[root], .inr ⟨hseveral, target, root, htarget, hroot, rfl⟩, rfl⟩
        · cases h

/-- **An order** is that of the roots that the selector chooses. -/
theorem selects_of_order (hg : g.Mirrored) (h : g.order units tree selector = .ok order) :
    ∃ chosen, g.Selects units tree chosen selector ∧ order = g.linearizeAll chosen := by
  cases selector with
  | byStart => exact selects_byStart hg h
  | byRoot source => exact selects_byRoot h

/-- **By start addresses, two things can go wrong.** -/
theorem error_byStart (hg : g.Mirrored) {e : Error}
    (h : g.order units tree .byStart = .error e) :
    (∃ names, e = .circularInclude names ∧ g.nodes ≠ [] ∧ g.roots = []) ∨
    ∃ r ∈ g.roots, ∃ s ∈ g.roots, r ≠ s ∧ g.startOf r = g.startOf s ∧
      e = .ambiguousOrder (units.nameOf r) (units.nameOf s) (g.startOf r) := by
  rw [order_byStart] at h
  split at h
  · cases h
  · rename_i hunits
    split at h
    · rename_i hroots
      cases h
      exact .inl ⟨_, rfl, fun hnodes => hunits (map_eq_nil_iff.mpr hnodes), hroots⟩
    · rcases g.rootsByStart_cases units hg.nodup_roots with
        ⟨chosen, hchosen, -⟩ | ⟨r, hr, s, hs, hne, hstart, herror⟩
      · rw [hchosen] at h
        cases h
      · rw [herror] at h
        cases h
        exact .inr ⟨r, hr, s, hs, hne, hstart, rfl⟩

theorem ambiguous_iff (hg : g.Mirrored) :
    (∃ a b start, g.order units tree .byStart = .error (.ambiguousOrder a b start)) ↔
      ∃ r ∈ g.roots, ∃ s ∈ g.roots, r ≠ s ∧ g.startOf r = g.startOf s := by
  constructor
  · rintro ⟨a, b, start, h⟩
    rcases error_byStart hg h with ⟨names, he, -⟩ | ⟨r, hr, s, hs, hne, hstart, -⟩
    · cases he
    · exact ⟨r, hr, s, hs, hne, hstart⟩
  · rintro ⟨r, hr, s, hs, hne, hstart⟩
    cases h : g.order units tree .byStart with
    | error e =>
      rcases error_byStart hg h with ⟨-, -, -, hnone⟩ | ⟨r, -, s, -, -, -, rfl⟩
      · exact absurd hr (hnone ▸ not_mem_nil)
      · exact ⟨_, _, _, rfl⟩
    | ok order =>
      -- the roots have been sorted, so they all start at other addresses
      obtain ⟨chosen, ⟨hperm, hsorted⟩, -⟩ := selects_byStart hg h
      have hdiffer : (chosen.map g.startOf).Nodup := pairwise_map.mpr <|
        hsorted.imp fun hlt he => absurd (congrArg UInt16.toNat he) (Nat.ne_of_lt hlt)
      refine absurd ?_ hne
      exact inj_on_of_nodup_map hdiffer (hperm.mem_iff.mpr hr) (hperm.mem_iff.mpr hs) hstart

theorem circular_iff (hg : g.Mirrored) :
    (∃ names, g.order units tree selector = .error (.circularInclude names)) ↔
      g.nodes ≠ [] ∧ ∀ n ∈ g.nodes, n.dependents ≠ [] := by
  rw [← roots_eq_nil_iff]
  constructor
  · rintro ⟨names, h⟩
    cases selector with
    | byStart =>
      rcases error_byStart hg h with ⟨-, -, hcircular⟩ | ⟨r, -, s, -, -, -, he⟩
      · exact hcircular
      · cases he
    | byRoot source =>
      rw [order_byRoot] at h
      split at h
      · cases h
      · split at h
        · exact ⟨‹_›, ‹_›⟩
        · split at h
          · cases h
          · simp only [rootIncluding] at h
            split at h <;> cases h
  · rintro ⟨hnodes, hroots⟩
    have hunits : g.units ≠ [] := mt map_eq_nil_iff.mp hnodes
    cases selector with
    | byStart => exact ⟨_, by rw [order_byStart, if_neg hunits, if_pos hroots]⟩
    | byRoot source => exact ⟨_, by rw [order_byRoot, if_neg hnodes, if_pos hroots]⟩

end Selected

end Graph

/-! ### The order of a graph -/

/-- **Dependencies come first.** A graph that has been put together in any way notes its edges
at both ends. An order that it gives has what the chosen roots reach, each unit once and behind
the units it includes, unless these lead back to it; roots are chosen as the selector says, and
come in that order, each behind all that earlier roots bring in. The same goes for what a single
unit reaches. By start addresses there is no order just if two roots start at one address, or
if all units of a graph are included by others, which is circular for every selector. -/
theorem order_puts_dependencies_first (edits : List GraphEdit) (units : Units) (tree : FileTree) :
    let g := Graph.ofEdits edits
    (∀ u v, g.Notes DependencyNode.dependencies u v ↔ g.Notes DependencyNode.dependents v u) ∧
    (∀ selector order, g.order units tree selector = .ok order →
      ∃ chosen, g.Selects units tree chosen selector ∧ g.OrderedFrom chosen order ∧
        chosen.Sublist order ∧
        ∀ first rest, chosen = first ++ rest → g.linearizeAll first <+: order) ∧
    (∀ root, g.OrderedFrom [root] (g.linearize root)) ∧
    ((∃ a b start, g.order units tree .byStart = .error (.ambiguousOrder a b start)) ↔
      ∃ r ∈ g.roots, ∃ s ∈ g.roots, r ≠ s ∧ g.startOf r = g.startOf s) ∧
    (∀ selector, (∃ names, g.order units tree selector = .error (.circularInclude names)) ↔
      g.nodes ≠ [] ∧ ∀ n ∈ g.nodes, n.dependents ≠ []) ∧
    ∀ e, g.order units tree .byStart = .error e →
      (∃ names, e = .circularInclude names) ∨ ∃ a b start, e = .ambiguousOrder a b start := by
  intro g
  have hg : g.Mirrored := Graph.mirrored_ofEdits edits
  refine ⟨fun u v => ?_, fun selector order h => ?_, fun root => g.orderedFrom_linearizeAll [root],
    Graph.ambiguous_iff hg, fun selector => Graph.circular_iff hg,
    fun e h => ?_⟩
  · rw [hg.edges, Graph.dependsOn_iff]
  · obtain ⟨chosen, hselects, rfl⟩ := Graph.selects_of_order hg h
    have hroots : ∀ r ∈ chosen, ∀ a, ¬ g.DependsOn a r := fun r hr =>
      (hg.mem_roots.mp (hselects.subset_roots hr)).2
    refine ⟨chosen, hselects, g.orderedFrom_linearizeAll chosen,
      Graph.sublist_linearizeAll (hselects.nodup hg) hroots, ?_⟩
    rintro first rest rfl
    exact g.linearizeAll_prefix first rest
  · rcases Graph.error_byStart hg h with ⟨names, he, -⟩ | ⟨r, -, s, -, -, -, he⟩
    · exact .inl ⟨names, he⟩
    · exact .inr ⟨_, _, _, he⟩

/-- Two units that start at different addresses, and that bring in a circle of two others from
different sides. -/
def sharedCircle : List GraphEdit :=
  [.node 0 (some 0x20), .node 1 (some 0x10), .dependency 0 2, .dependency 2 3, .dependency 3 2,
    .dependency 1 3]

/-- The unit that starts first brings in the circle, from its own side. -/
theorem order_puts_dependencies_first_circle :
    (Graph.ofEdits sharedCircle).order {} {} .byStart = .ok [2, 3, 1, 0] ∧
    ∃ chosen, (Graph.ofEdits sharedCircle).Selects {} {} chosen .byStart ∧
      (Graph.ofEdits sharedCircle).OrderedFrom chosen [2, 3, 1, 0] ∧
      chosen.Sublist [2, 3, 1, 0] ∧ ∀ first rest, chosen = first ++ rest →
        (Graph.ofEdits sharedCircle).linearizeAll first <+: [2, 3, 1, 0] := by
  have horder : (Graph.ofEdits sharedCircle).order {} {} .byStart = .ok [2, 3, 1, 0] := by
    cbv
  obtain ⟨-, hordered, -⟩ := order_puts_dependencies_first sharedCircle {} {}
  exact ⟨horder, hordered .byStart _ horder⟩

end WordAsm
