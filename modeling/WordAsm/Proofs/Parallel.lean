/-
# Programs side by side

A program is compared with the same program behind one unit more, which is worked
on first and pushes everything else up by a fixed distance. The unit may take any
number `j` among the units, so the others are renumbered around it (`skip`).

`Program.Parallel` is the relation between the two: unit by unit the sources
are the same, trees differ in addresses only, and symbols are found under the
same handles. Everything that happens to units and symbols while a program is
parsed and laid out keeps it, and so two passes of one phase keep what their
visits keep (`Passes.lockstep`).
-/
import WordAsm.Proofs.Phases

namespace WordAsm

open List

variable {p : Program} {j : UnitId} {tree : FileTree}

/-! ### Numbers around a new one -/

/-- The number `i` when the numbers from `j` on go up by one. -/
def skip (j i : ℕ) : ℕ := if i < j then i else i + 1

theorem skip_injective (j : ℕ) : Function.Injective (skip j) := by
  intro a b h
  unfold skip at h
  split at h <;> split at h <;> omega

theorem skip_ne (j i : ℕ) : skip j i ≠ j := by
  unfold skip
  split <;> omega

theorem eq_or_eq_skip (j k : ℕ) : k = j ∨ ∃ i, k = skip j i := by
  rcases Nat.lt_trichotomy k j with h | h | h
  · exact .inr ⟨k, (if_pos h).symm⟩
  · exact .inl h
  · refine .inr ⟨k - 1, ?_⟩
    rw [skip, if_neg (by omega)]
    omega

theorem skip_lt_skip {j a b : ℕ} : skip j a < skip j b ↔ a < b := by
  unfold skip
  split <;> split <;> omega

/-- The units with one more under the number `j`, ahead of the others in working
order. -/
def Units.withFirst (us : Units) (j : UnitId) (r : Resource) : Units where
  all := (us.all.map fun u => { u with id := skip j u.id }).insertIdx j { id := j, resource := r }
  order := j :: us.order.map (skip j)

/-- The program with one more unit under the number `j`, ahead of the others in
working order. -/
def Program.withFirst (p : Program) (j : UnitId) (r : Resource) : Program :=
  { p with units := p.units.withFirst j r }

theorem Units.get?_withFirst (us : Units) {j : ℕ} (hj : j ≤ us.all.length) (r : Resource) :
    (us.withFirst j r).get? j = some { id := j, resource := r } ∧
      ∀ i, (us.withFirst j r).get? (skip j i) =
        (us.get? i).map fun u => { u with id := skip j u.id } := by
  unfold withFirst get?
  refine ⟨?_, fun (i : ℕ) => ?_⟩
  · rw [getElem?_insertIdx_self, if_pos (by simpa using hj)]
  · unfold skip
    split
    · rw [getElem?_insertIdx_of_lt ‹_›, getElem?_map]
    · rw [getElem?_insertIdx_of_gt (by omega), Nat.add_sub_cancel, getElem?_map]

theorem Units.WellFormed.withFirst {us : Units} (h : us.WellFormed) (hj : j ≤ us.all.length)
    (r : Resource) : (us.withFirst j r).WellFormed := by
  obtain ⟨hself, hothers⟩ := us.get?_withFirst hj r
  refine ⟨fun k u hu => ?_, fun k hk => ?_⟩
  · rcases eq_or_eq_skip j k with rfl | ⟨i, rfl⟩
    · rw [hself] at hu
      cases hu
      rfl
    · rw [hothers] at hu
      obtain ⟨v, hv, rfl⟩ := Option.map_eq_some_iff.mp hu
      exact congrArg (skip j) (h.numbered i v hv)
  · rcases mem_cons.mp hk with rfl | hk
    · rw [hself]
      rfl
    · obtain ⟨i, hi, rfl⟩ := mem_map.mp hk
      rw [hothers, Option.isSome_map]
      exact h.queued i hi

/-! ### Units side by side -/

/-- Units that correspond by number, besides a unit `j` of the second program which
is worked on first. -/
structure Units.Parallel (j : UnitId) (R : SourceUnit → SourceUnit → Prop) (X : SourceUnit → Prop)
    (us us' : Units) : Prop where
  order : us'.order = j :: us.order.map (skip j)
  size : us'.all.length = us.all.length + 1
  place : j ≤ us.all.length
  units : ∀ i, Option.Rel R (us.get? i) (us'.get? (skip j i))
  extra : ∃ x, us'.get? j = some x ∧ X x

namespace Units.Parallel

variable {r : Resource} {tree : FileTree} {j : UnitId} {R : SourceUnit → SourceUnit → Prop}
  {X : SourceUnit → Prop} {us us' : Units} (h : us.Parallel j R X us')

include h

theorem mem_order {i : UnitId} : skip j i ∈ us'.order ↔ i ∈ us.order := by
  rw [h.order, mem_cons, mem_map_of_injective (skip_injective j)]
  exact or_iff_right (skip_ne j i)

theorem mem_all {u' : SourceUnit} (hu' : u' ∈ us'.all) : X u' ∨ ∃ u ∈ us.all, R u u' := by
  obtain ⟨k, hk⟩ := Units.mem_all_iff.mp hu'
  rcases eq_or_eq_skip j k with rfl | ⟨i, rfl⟩
  · obtain ⟨x, hx, hX⟩ := h.extra
    rw [hx] at hk
    cases hk
    exact .inl hX
  · have hrel := h.units i
    rw [hk] at hrel
    generalize hu : us.get? i = o at hrel
    cases hrel with
    | some hR => exact .inr ⟨_, Units.mem_all_iff.mpr ⟨i, hu⟩, hR⟩

theorem modify (i : UnitId) {f f' : SourceUnit → SourceUnit}
    (hf : ∀ u u', us.get? i = some u → us'.get? (skip j i) = some u' → R u u' → R (f u) (f' u')) :
    (us.modify i f).Parallel j R X (us'.modify (skip j i) f') := by
  refine ⟨h.order, by simp [h.size], by simp [h.place], fun k => ?_, ?_⟩
  · rw [Units.get?_modify, Units.get?_modify]
    by_cases hk : i = k
    · subst hk
      rw [if_pos rfl, if_pos rfl]
      cases hu : us.get? i with
      | none => rw [rel_none (h.units i) hu]; exact .none
      | some u =>
        obtain ⟨u', hu', hR⟩ := rel_some (h.units i) hu
        rw [hu']
        exact .some (hf u u' hu hu' hR)
    · rw [if_neg hk, if_neg fun heq => hk (skip_injective j heq)]
      exact h.units k
  · rw [Units.get?_modify_of_ne _ _ (skip_ne j i)]
    exact h.extra

theorem add (hnew : R { id := us.all.length, resource := r }
      { id := skip j us.all.length, resource := r }) :
    (us'.add r).1 = skip j (us.add r).1 ∧ (us.add r).2.Parallel j R X (us'.add r).2 := by
  have hid : us'.all.length = skip j us.all.length := by
    rw [h.size, skip, if_neg (Nat.not_lt.mpr h.place)]
  refine ⟨hid, ?_, ?_, ?_, fun i => ?_, ?_⟩
  · simp [Units.add, h.order, hid]
  · simp [Units.add, h.size]
  · exact Nat.le_trans h.place (by simp [Units.add])
  · rw [Units.get?_add, Units.get?_add, hid]
    by_cases hi : i = us.all.length
    · rw [if_pos hi, if_pos (congrArg _ hi)]
      exact .some hnew
    · rw [if_neg hi, if_neg fun heq => hi (skip_injective j heq)]
      exact h.units i
  · rw [Units.get?_add, if_neg fun heq => skip_ne j _ (heq.trans hid).symm]
    exact h.extra

theorem enqueue (i : UnitId) : (us.enqueue i).Parallel j R X (us'.enqueue (skip j i)) := by
  refine ⟨?_, h.size, h.place, h.units, h.extra⟩
  unfold Units.enqueue insertNew
  by_cases hi : i ∈ us.order
  · simp only [if_pos hi, if_pos (h.mem_order.mpr hi)]
    exact h.order
  · simp only [if_neg hi, if_neg fun hin => hi (h.mem_order.mp hin)]
    rw [h.order, map_append]
    rfl

/-- The first unit with a source is the same in both programs, unless it is the
one more. -/
theorem find? (hR : ∀ u u', R u u' → u'.resource = u.resource ∧ u'.id = skip j u.id)
    (hX : ∀ x, X x → x.resource.same tree r = false) :
    us'.find? tree r = (us.find? tree r).map (skip j) := by
  unfold Units.find?
  cases hfind : us.all.find? fun unit => unit.resource.same tree r with
  | none =>
    have hnone : us'.all.find? (fun unit => unit.resource.same tree r) = none := by
      refine List.find?_eq_none.mpr fun u' hu' => ?_
      rcases h.mem_all hu' with hx | ⟨u, hu, huu⟩
      · simp [hX u' hx]
      · rw [(hR u u' huu).1]
        exact List.find?_eq_none.mp hfind u hu
    rw [hnone]
    rfl
  | some u =>
    -- `u` comes first among its kind, and the units before its counterpart are
    -- counterparts of earlier ones
    obtain ⟨hsame, i, hi, hget, hfirst⟩ := find?_eq_some_iff_getElem.mp hfind
    have hu : us.get? i = some u := List.getElem?_eq_some_iff.mpr ⟨hi, hget⟩
    obtain ⟨u', hu', huu⟩ := rel_some (h.units i) hu
    have hfind' : us'.all.find? (fun unit => unit.resource.same tree r) = some u' := by
      obtain ⟨hlt, hget'⟩ := List.getElem?_eq_some_iff.mp hu'
      refine find?_eq_some_iff_getElem.mpr
        ⟨by rw [(hR u u' huu).1]; exact hsame, _, hlt, hget', fun k hk => ?_⟩
      rcases eq_or_eq_skip j k with rfl | ⟨i', rfl⟩
      · obtain ⟨x, hx, hXx⟩ := h.extra
        rw [(List.getElem?_eq_some_iff.mp hx).2, hX x hXx]
        rfl
      · have hi' : i' < i := skip_lt_skip.mp hk
        obtain ⟨v', hv', hvv⟩ := rel_some (h.units i')
          (getElem?_eq_getElem (Nat.lt_trans hi' hi))
        rw [(List.getElem?_eq_some_iff.mp hv').2, (hR _ v' hvv).1]
        exact hfirst i' hi'
    rw [hfind', Option.map_some, Option.map_some, (hR u u' huu).2]
    rfl

/-- **The unit of a source** is the same in both programs, unless it is the one
more. -/
theorem findOrAdd (hR : ∀ u u', R u u' → u'.resource = u.resource ∧ u'.id = skip j u.id)
    (hX : ∀ x, X x → x.resource.same tree r = false)
    (hnew : ∀ id, R { id, resource := r } { id := skip j id, resource := r }) :
    (us'.findOrAdd tree r).1 = skip j (us.findOrAdd tree r).1 ∧
      (us.findOrAdd tree r).2.Parallel j R X (us'.findOrAdd tree r).2 := by
  unfold Units.findOrAdd
  rw [h.find? hR hX]
  cases us.find? tree r with
  | none => exact h.add (hnew _)
  | some id => exact ⟨rfl, h.enqueue id⟩

end Units.Parallel

/-! ### Programs side by side -/

def Statement.isOrigin : Statement → Bool
  | origin _ => true
  | _ => false

/-- The same statement `d` words further up, where nothing is inlined. -/
structure Node.Parallel (d : ℕ) (n n' : Node) : Prop where
  statement : n'.statement = n.statement
  scope : n'.scope = n.scope
  symbol : n'.symbol = n.symbol
  address : Shifted d n.address n'.address
  plain : n.inlined = false ∧ n'.inlined = false
  floating : n.statement.isOrigin = false

/-- The same source `d` words further up, once it has a place. -/
structure SourceUnit.Parallel (j : UnitId) (d : ℕ) (u u' : SourceUnit) : Prop where
  id : u'.id = skip j u.id
  resource : u'.resource = u.resource
  tree : Option.Rel (List.Forall₂ (Node.Parallel d)) u.tree u'.tree
  stop : Option.Rel (fun s s' => s' = s + d) u.stop u'.stop
  start : ∀ s, u.stop = some s → ∃ a, u.start = startAddress a ∧ u'.start = startAddress (a + d)

/-- The same program `d` words further up, behind one unit more. -/
structure Program.Parallel (j : UnitId) (d : ℕ) (X : SourceUnit → Prop) (p p' : Program) : Prop
  where
  units : p.units.Parallel j (SourceUnit.Parallel j d) X p'.units
  symbols : TableAlike (skip j) (Shifted d) p.symbols p'.symbols

theorem SourceUnit.Parallel.withTree {d : ℕ} {u u' : SourceUnit} (h : u.Parallel j d u')
    {nodes nodes' : SyntaxTree} (hnodes : Forall₂ (Node.Parallel d) nodes nodes') :
    SourceUnit.Parallel j d { u with tree := some nodes } { u' with tree := some nodes' } :=
  ⟨h.id, h.resource, .some hnodes, h.stop, h.start⟩

theorem SourceUnit.Parallel.markAll {d : ℕ} {u u' : SourceUnit} (h : u.Parallel j d u')
    (ms ms' : List Marker) : (u.markAll ms).Parallel j d
      (u'.markAll ms') := by
  obtain ⟨added, next, heq, -⟩ := u.markAll_eq ms
  obtain ⟨added', next', heq', -⟩ := u'.markAll_eq ms'
  rw [heq, heq']
  exact ⟨h.id, h.resource, h.tree, h.stop, h.start⟩

namespace Program.Parallel

variable {f : SourceUnit → SourceUnit} {j : UnitId} {d : ℕ} {X : SourceUnit → Prop} {p p' : Program}
  (h : p.Parallel j d X p')

include h

theorem withSymbols {t t' : Table} (ht : TableAlike (skip j) (Shifted d) t t') :
    Program.Parallel j d X { p with symbols := t } { p' with symbols := t' } :=
  ⟨h.units, ht⟩

theorem modifyUnit (i : UnitId) {f' : SourceUnit → SourceUnit}
    (hf : ∀ u u', u.Parallel j d u' → (f u).Parallel j d (f' u')) :
    (p.modifyUnit i f).Parallel j d X (p'.modifyUnit (skip j i) f') :=
  ⟨h.units.modify i fun u u' _ _ => hf u u', h.symbols⟩

theorem mark (i : UnitId) (ms ms' : List Marker) :
    (p.mark i ms).Parallel j d X (p'.mark (skip j i) ms') :=
  h.modifyUnit i fun _ _ hu => hu.markAll ms ms'

theorem including (i : UnitId) {r : Resource} (hX : ∀ x, X x → x.resource.same tree r = false) :
    (p.including tree i r).Parallel j d X (p'.including tree (skip j i) r) := by
  have hfind := h.units.findOrAdd (fun _ _ hu => ⟨hu.resource, hu.id⟩) hX fun id =>
    ⟨rfl, rfl, .none, .none, fun _ hs => (nomatch hs)⟩
  have hunits : Program.Parallel j d X { p with units := (p.findOrAdd tree r).2 }
      { p' with units := (p'.findOrAdd tree r).2 } := ⟨hfind.2, h.symbols⟩
  exact hunits.modifyUnit i fun u u' hu => ⟨hu.id, hu.resource, hu.tree, hu.stop, hu.start⟩

end Program.Parallel

theorem Passes.first {cfg : Settings} {phase : Phase} {q : Program}
    (h : Passes cfg tree phase 0 p q) {rest : List UnitId} (ho : p.order = j :: rest)
    {x : SourceUnit} (hx : p.get? j = some x) :
    ∃ c, phase.run cfg x { program := p, tree } = (.ok (), c) ∧
      Passes cfg tree phase 1 c.program q := by
  have hfirst : p.order[0]? = some j := by rw [ho]; rfl
  cases h with
  | done hk _ =>
    rw [hfirst] at hk
    cases hk
  | visit hk hu _ hrun next =>
    rw [hfirst] at hk
    cases hk
    rw [hx] at hu
    cases hu
    exact ⟨_, hrun, next⟩

end WordAsm
