/-
# The working order

Ordering a program keeps what the roots reach: the units that no other unit includes, and
all they bring in. Whatever a unit of the order includes is in the order with it
(`orderUnits_closed`).

Where all roots count, a unit is left out only if no root reaches it, and then it is on a
circle of includes or brought in by one (`orderUnits_keeps_rooted`). A circle is an error
only in a program that has no root at all; beside a root, it is passed over
(`orderUnits_passes_over_circle`).
-/
import Mathlib.Data.Fintype.EquivFin
import Mathlib.Data.Fintype.Sets
import Mathlib.Order.WellFounded
import WordAsm.Proofs.IncludeDiscovery

namespace WordAsm

open Relation (ReflTransGen TransGen)

def Units.BroughtIn (resolver : Resolver) (tree : FileTree) (us : Units) (starts : List UnitId)
    (x : UnitId) : Prop :=
  ∃ s ∈ starts, ReflTransGen (us.Includes resolver tree) s x

/-- One of `starts` or what they bring in that nothing among these includes. -/
def Units.RootAmong (resolver : Resolver) (tree : FileTree) (us : Units) (starts : List UnitId)
    (root : UnitId) : Prop :=
  us.BroughtIn resolver tree starts root ∧
    ∀ a, us.BroughtIn resolver tree starts a → ¬ us.Includes resolver tree a root

/-- What the sources of queued units lead to is queued. -/
def Units.Closed (resolver : Resolver) (tree : FileTree) (us : Units) : Prop :=
  ∀ a ∈ us.order, ∀ r, us.Leads resolver tree a r → ∃ b ∈ us.order, us.find? tree r = some b

section Order

variable {resolver : Resolver} {tree : FileTree} {selector : RootSelector} {p q : Program}
  {log : List LogLine}

/-- **What ordering does** when it succeeds: it discovers, chooses among the roots and
lists what the chosen ones reach. -/
theorem orderUnits_ok (hw : p.WellFormed)
    (h : p.orderUnits resolver tree selector = (.ok (), q, log)) :
    ∃ (d : Discovery) (chosen : List UnitId), d.Complete resolver tree p.order ∧
      p.units.Gains resolver tree d.units ∧
      q.units = { d.units with order := d.graph.linearizeAll chosen } ∧ q.WellFormed ∧
      chosen ⊆ d.graph.roots ∧ (selector = .byStart → d.graph.roots ⊆ chosen) := by
  obtain ⟨d, hdiscover, hcomplete, hgains⟩ := @discover_complete resolver tree p.units hw
  unfold Program.orderUnits at h
  simp only [hdiscover, bind, Except.bind] at h
  cases horder : d.graph.order d.units tree selector with
  | error e =>
    simp only [horder] at h
    cases h
  | ok order =>
    obtain ⟨chosen, rfl, hroots, hall⟩ := Graph.order_eq horder
    cases hset : d.setOrder (d.graph.linearizeAll chosen) with
    | error e =>
      simp only [horder, hset] at h
      cases h
    | ok us =>
      simp only [horder, hset] at h
      cases h
      refine ⟨d, chosen, hcomplete, hgains, ?_, hcomplete.consistent.wellFormed.setOrder hset,
        hroots, hall⟩
      unfold Units.setOrder at hset
      split at hset
      · cases hset
      · exact (Except.ok.inj hset).symm

/-- **Whatever is in the order is there with all it includes.** -/
theorem orderUnits_closed (hw : p.WellFormed)
    (h : p.orderUnits resolver tree selector = (.ok (), q, log)) :
    q.units.Closed resolver tree := by
  obtain ⟨d, chosen, hcomplete, -, hunits, -, hroots, -⟩ := orderUnits_ok hw h
  rw [hunits]
  intro a ha r hr
  obtain ⟨s, hs, hsa⟩ := Graph.mem_linearizeAll.mp ha
  have hroot : s ∈ d.order := (hcomplete.mem_roots.mp (hroots hs)).1
  have hqueued : a ∈ d.order :=
    hcomplete.mem_order_of_reaches hroot ((hcomplete.reflTransGen_iff hroot).mp hsa)
  obtain ⟨b, hb, hedge⟩ := (hcomplete.explored hqueued).2 r hr
  refine ⟨b, ?_, hb⟩
  by_cases hself : a = b
  · exact hself ▸ ha
  · exact Graph.mem_linearizeAll.mpr ⟨s, hs, hsa.tail (hedge hself)⟩

/-! ### What is left out -/

/-- Among finitely many units, going back from one of them ends at a unit that nothing leads
to, or comes to a circle. -/
theorem exists_root_or_circle {R : UnitId → UnitId → Prop} {ids : List UnitId} {x : UnitId}
    (hx : x ∈ ids) :
    (∃ root ∈ ids, (∀ a ∈ ids, ¬ R a root) ∧ ReflTransGen R root x) ∨
      ∃ c, TransGen R c c ∧ ReflTransGen R c x := by
  by_contra hneither
  rw [not_or] at hneither
  obtain ⟨hroot, hcircle⟩ := hneither
  -- without circles, what leads to `x` is well-founded, and has a first element
  let Before := { y : { y // y ∈ ids } // ReflTransGen R y.1 x }
  let earlier : Before → Before → Prop := fun y z => TransGen R y.1.1 z.1.1
  have : Finite Before := Subtype.finite
  have : IsTrans Before earlier := ⟨fun _ _ _ hyz hzw => hyz.trans hzw⟩
  have : Std.Irrefl earlier := ⟨fun y hy => hcircle ⟨y.1.1, hy, y.2⟩⟩
  have hfounded : WellFounded earlier := Finite.wellFounded_of_trans_of_irrefl earlier
  obtain ⟨first, -, hfirst⟩ := hfounded.has_min Set.univ ⟨⟨⟨x, hx⟩, .refl⟩, trivial⟩
  refine hroot ⟨first.1.1, first.1.2, fun a ha hedge => ?_, first.2⟩
  exact hfirst ⟨⟨a, ha⟩, .head hedge first.2⟩ trivial (.single hedge)

/-- **What the default order keeps**: the roots among the units at hand and what they bring
in. What it leaves out comes from a circle of includes. -/
theorem orderUnits_keeps_rooted (hw : p.WellFormed)
    (h : p.orderUnits resolver tree .byStart = (.ok (), q, log)) :
    (∀ x, x ∈ q.order ↔ ∃ root, q.units.RootAmong resolver tree p.order root ∧
      ReflTransGen (q.Includes resolver tree) root x) ∧
    ∀ x, q.units.BroughtIn resolver tree p.order x → x ∉ q.order →
      ∃ c, TransGen (q.Includes resolver tree) c c ∧
        ReflTransGen (q.Includes resolver tree) c x := by
  obtain ⟨d, chosen, hcomplete, -, hunits, -, hroots, hall⟩ := orderUnits_ok hw h
  have hkept : ∀ x, x ∈ q.order ↔
      ∃ root ∈ d.order, (∀ a ∈ d.order, ¬ d.Includes resolver tree a root) ∧
        ReflTransGen (d.Includes resolver tree) root x := by
    intro x
    rw [hunits]
    show x ∈ d.graph.linearizeAll chosen ↔ _
    rw [Graph.mem_linearizeAll]
    constructor
    · rintro ⟨root, hroot, hreach⟩
      obtain ⟨hqueued, hfree⟩ := hcomplete.mem_roots.mp (hroots hroot)
      exact ⟨root, hqueued, hfree, (hcomplete.reflTransGen_iff hqueued).mp hreach⟩
    · rintro ⟨root, hqueued, hfree, hreach⟩
      refine ⟨root, hall rfl ?_, (hcomplete.reflTransGen_iff hqueued).mpr hreach⟩
      exact hcomplete.mem_roots.mpr ⟨hqueued, hfree⟩
  -- the order is not part of what units include
  have hincludes : q.Includes resolver tree = d.Includes resolver tree := by
    rw [hunits]
    rfl
  have hbrought : ∀ x, q.units.BroughtIn resolver tree p.order x ↔ x ∈ d.order := by
    intro x
    unfold Units.BroughtIn
    rw [hincludes]
    exact hcomplete.mem_order.symm
  simp only [Units.RootAmong, hbrought, hincludes, and_assoc]
  refine ⟨hkept, fun x hx hout => ?_⟩
  exact (exists_root_or_circle hx).resolve_left fun hroot => hout ((hkept x).mpr hroot)

end Order

/-! ### A root beside a circle -/

/-- Sources of which two include each other. -/
def circledTexts : List (String × String) :=
  [("lib", "lib: ret\n"), ("b", ".include \"c\"\n"), ("c", ".include \"lib\"\n.include \"b\"\n")]

/-- A root, and one of the two sources that include each other. -/
def circled : Program :=
  .ofResources [.text "main" ".include \"lib\"\nmain: nop\n", .text "b" ".include \"c\"\n"]

/-- The root of `circled` and its library are kept, and what is left out comes from a
circle. -/
theorem orderUnits_keeps_rooted_circled :
    ∃ q log, circled.orderUnits (.memory circledTexts) {} .byStart = (.ok (), q, log) ∧
      q.all.map SourceUnit.identifier = ["main", "b", "c", "lib"] ∧
      q.order.map q.nameOf = ["lib", "main"] ∧
      (∀ x, x ∈ q.order ↔
        ∃ root, q.units.RootAmong (.memory circledTexts) {} circled.order root ∧
          ReflTransGen (q.Includes (.memory circledTexts) {}) root x) ∧
      ∀ x, q.units.BroughtIn (.memory circledTexts) {} circled.order x → x ∉ q.order →
        ∃ c, TransGen (q.Includes (.memory circledTexts) {}) c c ∧
          ReflTransGen (q.Includes (.memory circledTexts) {}) c x := by
  have hordered : circled.orderUnits (.memory circledTexts) {} .byStart = (.ok (), _, _) :=
    Prod.ext (by decide +kernel) rfl
  refine ⟨_, _, hordered, by decide +kernel, by decide +kernel, ?_⟩
  exact orderUnits_keeps_rooted (Program.wellFormed_ofResources _) hordered

/-- **Beside a root, a circle is passed over**: of three sources the last two include each
other, and only the first one is kept. -/
theorem orderUnits_passes_over_circle :
    ∃ p q log, p = Program.ofResources [.text "main.rk" "main: nop\n",
        .text "b.rk" ".include \"c.rk\"\n", .text "c.rk" ".include \"b.rk\"\n"] ∧
      p.orderUnits (.memory [("main.rk", "main: nop\n"), ("b.rk", ".include \"c.rk\"\n"),
        ("c.rk", ".include \"b.rk\"\n")]) {} .byStart = (.ok (), q, log) ∧
      p.order = [0, 1, 2] ∧ q.order = [0] := by
  refine ⟨_, _, _, rfl, Prod.ext (?_ : _ = Except.ok ()) rfl, ?_, ?_⟩
  · decide +kernel
  · decide +kernel
  · decide +kernel

end WordAsm
