/-
# The order in which sources are listed

The working order of a program does not depend on the order in which its sources are given.
Units get other numbers if the sources are listed otherwise, includes are come to through
other units first, and the pile is worked off in another order. But a name stands for the
same source in both programs (`Discovery.Ends.resource_eq`), a source asks for the same
includes in the same order, and so the two graphs match (`Discovery.Ends.matched`).

What is left is the choice among roots, which goes by start addresses, and the order of
includes in each source. So the same names come out in the same order, or both programs are
refused for the same reason (`orderedNames_perm`).
-/
import WordAsm.Proofs.IncludeLists
import WordAsm.Proofs.RenumberedGraphs
import WordAsm.Proofs.WorkingOrder

namespace WordAsm

variable {d : Discovery} {tree : FileTree} {starts : List UnitId} {resolver : Resolver}

open List
open Relator (BiUnique)

namespace Units

variable {r : Resource} {us us' : Units} {a b a' : UnitId}

/-- Queued units of two programs that stand for the same source. -/
def SameSource (us us' : Units) (a a' : UnitId) : Prop :=
  a ∈ us.order ∧ a' ∈ us'.order ∧
    ∃ u u', us.get? a = some u ∧ us'.get? a' = some u' ∧ u.resource = u'.resource

theorem SameSource.symm (h : us.SameSource us' a a') : us'.SameSource us a' a := by
  obtain ⟨ha, ha', u, u', hu, hu', heq⟩ := h
  exact ⟨ha', ha, u', u, hu', hu, heq.symm⟩

theorem namedAlike_sameSource (us us' : Units) : us.NamedAlike (us.SameSource us') us' := by
  rintro a a' ⟨-, -, u, u', hu, hu', heq⟩
  rw [hu, hu', Option.map_some, Option.map_some, SourceUnit.identifier, SourceUnit.identifier, heq]

theorem Named.eq_of_identifier (h : us.Named) {u v : SourceUnit} (hu : us.get? a = some u)
    (hv : us.get? b = some v) (hname : u.identifier = v.identifier) : a = b := by
  have hname' : (us.all.map SourceUnit.identifier)[a]? =
      (us.all.map SourceUnit.identifier)[b]? := by
    rw [getElem?_map, getElem?_map, show us.all[a]? = some u from hu,
      show us.all[b]? = some v from hv, Option.map_some, Option.map_some, hname]
  refine (getElem?_inj ?_ h).mp hname'
  rw [length_map]
  exact get?_lt hu

theorem Named.eq_of_sameSource (h : us.Named) {c : UnitId} (hac : us.SameSource us' a c)
    (hbc : us.SameSource us' b c) : a = b := by
  obtain ⟨-, -, u, w, hu, hw, huw⟩ := hac
  obtain ⟨-, -, v, w', hv, hw', hvw⟩ := hbc
  obtain rfl : w = w' := Option.mem_unique hw hw'
  exact h.eq_of_identifier hu hv (congrArg Resource.identifier (huw.trans hvw.symm))

theorem Named.biUnique (h : us.Named) (h' : us'.Named) : BiUnique (us.SameSource us') :=
  ⟨fun _ _ _ hac hbc => h.eq_of_sameSource hac hbc,
    fun _ _ _ hab hac => h'.eq_of_sameSource hab.symm hac.symm⟩

theorem SameSource.resource_eq {u u' : SourceUnit} (h : us.SameSource us' a a')
    (hu : us.get? a = some u) (hu' : us'.get? a' = some u') : u.resource = u'.resource := by
  obtain ⟨-, -, v, v', hv, hv', heq⟩ := h
  rwa [Option.mem_unique hu hv, Option.mem_unique hu' hv']

theorem SameSource.leads (h : us.SameSource us' a a') (hr : us.Leads resolver tree a r) :
    us'.Leads resolver tree a' r := by
  obtain ⟨-, -, u, u', hu, hu', heq⟩ := h
  rw [leads_iff hu, heq] at hr
  exact (leads_iff hu').mpr hr

theorem WellFormed.get?_of_find? (hw : us.WellFormed)
    (hr : ∀ other : Resource, other.same tree r = (other.identifier == r.identifier))
    (hb : us.find? tree r = some b) : ∃ u, us.get? b = some u ∧ u.identifier = r.identifier := by
  obtain ⟨u, hu, rfl⟩ := Option.map_eq_some_iff.mp hb
  obtain ⟨i, hi⟩ := mem_all_iff.mp (mem_of_find?_eq_some hu)
  obtain rfl : u.id = i := hw.numbered i u hi
  have hsame := find?_some hu
  simp only [hr] at hsame
  exact ⟨u, hi, beq_iff_eq.mp hsame⟩

end Units

theorem forall₂_noted {R : UnitId → UnitId → Prop} (hR : BiUnique R) {a a' : UnitId}
    (ha : R a a') {bs bs' : List UnitId} (hbs : Forall₂ R bs bs') :
    Forall₂ R (noted a bs) (noted a' bs') := by
  refine rel_foldl (P := Forall₂ R) (fun ids ids' hids b b' hb => ?_) .nil hbs
  have hself : b = a ↔ b' = a' := Relator.rel_eq hR hb ha
  by_cases hba : b = a
  · rw [if_pos hba, if_pos (hself.mp hba)]
    exact hids
  · rw [if_neg hba, if_neg (mt hself.mpr hba)]
    exact forall₂_insertNew hR hids hb

namespace Discovery

variable {texts : List (String × String)} {tree : FileTree} {rs : List Resource}
  {starts starts' : List UnitId} {d d' : Discovery} {a b a' b' : UnitId} {r : Resource}

/-- Discovery from units for the sources `rs` has come to its end. -/
structure Ends (texts : List (String × String)) (tree : FileTree) (rs : List Resource)
    (starts : List UnitId) (d : Discovery) : Prop where
  complete : d.Complete (.memory texts) tree starts
  faithful : d.Faithful texts tree
  given : ∀ s ∈ starts, ∃ u, d.get? s = some u ∧ u.resource ∈ rs
  starts : ∀ r ∈ rs, ∃ s ∈ starts, ∃ u, d.get? s = some u ∧ u.resource = r
  sources : ∀ a u, d.get? a = some u → u.resource ∈ rs ∨
    ∃ name content, texts.lookup name = some content ∧ u.resource = .text name content

namespace Ends

variable (h : d.Ends texts tree rs starts) (h' : d'.Ends texts tree rs starts')
include h

theorem mem_order_of_start (ha : a ∈ starts) : a ∈ d.order :=
  (h.complete.consistent.queued a).mp (h.complete.consistent.begun ha)

theorem told (ha : a ∈ d.order) : d.Told (.memory texts) tree a := by
  refine h.faithful.told a ((h.complete.consistent.queued a).mpr ha) ?_
  rw [h.complete.finished]
  exact not_mem_nil

theorem mem_order_of_leads (ha : a ∈ d.order) (hr : d.units.Leads (.memory texts) tree a r)
    (hb : d.find? tree r = some b) : b ∈ d.order := by
  by_cases hab : a = b
  · exact hab ▸ ha
  · exact h.complete.mem_order_of_includes ha ⟨hab, r, hr, hb⟩

include h'

/-- **A name stands for the same source** in both programs: one of the given sources, or
else the text of that name. -/
theorem resource_eq {u u' : SourceUnit} (hu : d.get? a = some u)
    (hu' : d'.get? a' = some u') (hname : u.identifier = u'.identifier) :
    u.resource = u'.resource := by
  rcases h.sources a u hu with hgiven | ⟨name, content, hcontent, htext⟩
  · -- a given source has a unit on the other side, which is the only one of its name
    obtain ⟨s, -, v, hv, hvu⟩ := h'.starts _ hgiven
    have hsame : s = a' := h'.faithful.named.eq_of_identifier hv hu'
      ((congrArg Resource.identifier hvu).trans hname)
    subst hsame
    obtain rfl : v = u' := Option.mem_unique hv hu'
    exact hvu.symm
  · rcases h'.sources a' u' hu' with hgiven' | ⟨name', content', hcontent', htext'⟩
    · obtain ⟨s, -, v, hv, hvu⟩ := h.starts _ hgiven'
      have hsame : s = a := h.faithful.named.eq_of_identifier hv hu
        ((congrArg Resource.identifier hvu).trans hname.symm)
      subst hsame
      obtain rfl : v = u := Option.mem_unique hv hu
      exact hvu
    · have hnames : name = name' := by
        rw [SourceUnit.identifier, SourceUnit.identifier, htext, htext'] at hname
        exact hname
      subst hnames
      rw [htext, htext', Option.mem_unique hcontent hcontent']

theorem same_target (ha : d.units.SameSource d'.units a a')
    (hr : d.units.Leads (.memory texts) tree a r) (hb : d.find? tree r = some b)
    (hb' : d'.find? tree r = some b') : d.units.SameSource d'.units b b' := by
  have hqueued := h.mem_order_of_leads ha.1 hr hb
  have hqueued' := h'.mem_order_of_leads ha.2.1 (ha.leads hr) hb'
  obtain ⟨_, _, _, -, -, -, hresolve⟩ := hr
  have hbyName := Resolver.same_of_resolve hresolve
  obtain ⟨u, hu, hname⟩ := h.faithful.wellFormed.get?_of_find? hbyName hb
  obtain ⟨u', hu', hname'⟩ := h'.faithful.wellFormed.get?_of_find? hbyName hb'
  exact ⟨hqueued, hqueued', u, u', hu, hu', h.resource_eq h' hu hu' (hname.trans hname'.symm)⟩

/-- **Every unit that is come to** in one program is come to in the other. By induction on
the includes that lead to it. -/
theorem exists_same (ha : a ∈ d.order) : ∃ a', d.units.SameSource d'.units a a' := by
  obtain ⟨s, hs, hreach⟩ := h.complete.mem_order.mp ha
  clear ha
  induction hreach with
  | refl =>
    obtain ⟨u, hu, hgiven⟩ := h.given s hs
    obtain ⟨s', hs', u', hu', heq⟩ := h'.starts _ hgiven
    exact ⟨s', h.mem_order_of_start hs, h'.mem_order_of_start hs', u, u', hu, hu', heq.symm⟩
  | tail _ hedge ih =>
    obtain ⟨b', hb⟩ := ih
    obtain ⟨-, r, hr, hc⟩ := hedge
    obtain ⟨c', hc', -⟩ := (h'.complete.explored hb.2.1).2 r (hb.leads hr)
    exact ⟨c', h.same_target h' hb hr hc hc'⟩

theorem dependencies (ha : d.units.SameSource d'.units a a') :
    Forall₂ (d.units.SameSource d'.units) (d.graph.dependencies a) (d'.graph.dependencies a') := by
  obtain ⟨u, hu, ⟨bs, hbs, hnoted⟩, -⟩ := h.told ha.1
  obtain ⟨u', hu', ⟨bs', hbs', hnoted'⟩, -⟩ := h'.told ha.2.1
  rw [← ha.resource_eq hu hu'] at hbs'
  rw [hnoted, hnoted']
  have hunique := h.faithful.named.biUnique h'.faithful.named
  refine forall₂_noted hunique ha (forall₂_of_common hbs hbs' fun r b b' hr hb hb' => ?_)
  exact h.same_target h' ha ((Units.leads_iff hu).mpr hr) hb hb'

/-- **The graphs match.** -/
theorem matched : d.graph.Matched (d.units.SameSource d'.units) d'.graph where
  mirrored := h.complete.consistent.mirrored
  mirrored' := h'.complete.consistent.mirrored
  unique := h.faithful.named.biUnique h'.faithful.named
  left a ha := by
    obtain ⟨a', haa'⟩ := h.exists_same h' (h.complete.mem_nodes.mp ha)
    exact ⟨a', h'.complete.mem_nodes.mpr haa'.2.1, haa'⟩
  right a' ha' := by
    obtain ⟨a, haa'⟩ := h'.exists_same h (h'.complete.mem_nodes.mp ha')
    exact ⟨a, h.complete.mem_nodes.mpr haa'.2.1, haa'.symm⟩
  nodes a a' haa' :=
    iff_of_true (h.complete.mem_nodes.mpr haa'.1) (h'.complete.mem_nodes.mpr haa'.2.1)
  dependencies a a' haa' := h.dependencies h' haa'
  starts a a' haa' := by
    obtain ⟨u, hu, -, hstart⟩ := h.told haa'.1
    obtain ⟨u', hu', -, hstart'⟩ := h'.told haa'.2.1
    rw [hstart, hstart', haa'.resource_eq hu hu']

end Ends

end Discovery

/-! ### Programs of given sources -/

theorem Program.units_ofResources (rs : List Resource) :
    (ofResources rs).all.map SourceUnit.resource = rs ∧
      (ofResources rs).order = List.range rs.length := by
  have hadd : ∀ us : Units, us.order = List.range us.all.length →
      (rs.foldl (fun us r => (us.add r).2) us).all.map SourceUnit.resource =
        us.all.map SourceUnit.resource ++ rs ∧
      (rs.foldl (fun us r => (us.add r).2) us).order =
        List.range (us.all.length + rs.length) := by
    induction rs with
    | nil => exact fun us hus => ⟨(append_nil _).symm, hus⟩
    | cons r rs ih =>
      intro us hus
      have hnext : (us.add r).2.order = List.range (us.add r).2.all.length := by
        simp [Units.add, hus, range_succ]
      obtain ⟨hall, horder⟩ := ih _ hnext
      refine ⟨hall.trans ?_, horder.trans ?_⟩
      · simp [Units.add]
      · simp [Units.add, Nat.add_comm, Nat.add_left_comm]
  simpa [ofResources] using hadd {} rfl

/-- **Discovery in a program of given sources**, whose names differ, comes to its end. -/
theorem Program.ends_ofResources (texts : List (String × String)) (tree : FileTree)
    {rs : List Resource} (hnames : (rs.map Resource.identifier).Nodup) :
    ∃ d, discover (.memory texts) tree (ofResources rs).units = (.ok d.graph, d) ∧
      d.Ends texts tree rs (ofResources rs).order := by
  have hw := wellFormed_ofResources rs
  obtain ⟨hall, horder⟩ := units_ofResources rs
  obtain ⟨d, hdiscover, hcomplete, hgains⟩ := @discover_complete (.memory texts) tree _ hw
  have hnamed : (ofResources rs).units.Named := by
    rw [← hall, map_map] at hnames
    exact hnames
  have hgiven : ∀ a u, (ofResources rs).get? a = some u → u.resource ∈ rs := by
    intro a u hu
    rw [← hall]
    exact mem_map_of_mem (Units.mem_all_iff.mpr ⟨a, hu⟩)
  refine ⟨d, hdiscover, hcomplete, ?_, fun s hs => ?_, fun r hr => ?_, fun a u hu => ?_⟩
  · have hfaithful : (discover (.memory texts) tree (ofResources rs).units).2.Faithful texts tree :=
      discover_faithful hw hnamed (horder ▸ nodup_range)
    rwa [hdiscover] at hfaithful
  · obtain ⟨u, hu, -⟩ := hw.exists_get? hs
    exact ⟨u, Units.get?_of_all hgains.all hu, hgiven s u hu⟩
  · rw [← hall] at hr
    obtain ⟨u, hu, rfl⟩ := mem_map.mp hr
    obtain ⟨a, ha⟩ := Units.mem_all_iff.mp hu
    refine ⟨a, ?_, u, Units.get?_of_all hgains.all ha, rfl⟩
    rw [horder, mem_range, ← hall, length_map]
    exact Units.get?_lt ha
  · rcases hgains.fresh u (Units.mem_all_iff.mpr ⟨a, hu⟩) with hold | ⟨path, parent, hresolve⟩
    · obtain ⟨i, hi⟩ := Units.mem_all_iff.mp hold
      exact .inl (hgiven i u hi)
    · obtain ⟨name, content, hcontent, htext⟩ := Resolver.exists_text_of_resolve hresolve
      exact .inr ⟨name, content, hcontent, htext⟩

theorem Discovery.Ends.of_perm {texts : List (String × String)} {rs rs' : List Resource}
    (hperm : rs.Perm rs') (h : d.Ends texts tree rs' starts) : d.Ends texts tree rs starts := by
  refine ⟨h.complete, h.faithful, fun s hs => ?_, fun r hr => ?_, fun a u hu => ?_⟩
  · obtain ⟨u, hu, hgiven⟩ := h.given s hs
    exact ⟨u, hu, hperm.mem_iff.mpr hgiven⟩
  · exact h.starts r (hperm.mem_iff.mp hr)
  · exact (h.sources a u hu).imp_left hperm.mem_iff.mpr

/-! ### The order -/

def Program.orderedNames (p : Program) (resolver : Resolver) (tree : FileTree)
    (selector : RootSelector) : Except Error (List String) :=
  match p.orderUnits resolver tree selector with
  | (.ok _, q, _) => .ok (q.ordered.map SourceUnit.identifier)
  | (.error e, _, _) => .error e

theorem Discovery.Complete.setOrder {selector : RootSelector} {order : List UnitId}
    (h : d.Complete resolver tree starts)
    (horder : d.graph.order d.units tree selector = .ok order) :
    d.setOrder order = .ok { d.units with order } := by
  obtain ⟨chosen, rfl, hroots, -⟩ := Graph.order_eq horder
  have hnone : (d.graph.linearizeAll chosen).find? (fun id => d.all.length ≤ id) = none := by
    refine List.find?_eq_none.mpr fun a ha => ?_
    obtain ⟨root, hroot, hreach⟩ := Graph.mem_linearizeAll.mp ha
    have hqueued : root ∈ d.order := (h.mem_roots.mp (hroots hroot)).1
    have ha' := h.mem_order_of_reaches hqueued ((h.reflTransGen_iff hqueued).mp hreach)
    obtain ⟨u, hu, -⟩ := h.consistent.wellFormed.exists_get? ha'
    simpa using Units.get?_lt hu
  unfold Units.setOrder
  rw [hnone]

theorem Program.orderedNames_eq {p : Program} {selector : RootSelector}
    (hdiscover : discover resolver tree p.units = (.ok d.graph, d))
    (h : d.Complete resolver tree starts) :
    p.orderedNames resolver tree selector = (d.graph.order d.units tree selector).map fun order =>
      (order.filterMap d.get?).map SourceUnit.identifier := by
  unfold orderedNames orderUnits
  simp only [hdiscover, bind, Except.bind]
  cases horder : d.graph.order d.units tree selector with
  | error e => rfl
  | ok order =>
    simp only [h.setOrder horder]
    rfl

/-- **The working order does not depend on how the sources are listed.** Whatever is in
memory: for two lists of the same sources, whose names differ, the same names come out in
the same order, or both programs are refused with the same kind of error. -/
theorem orderedNames_perm (texts : List (String × String)) (tree : FileTree)
    {rs rs' : List Resource} (hperm : rs.Perm rs') (hnames : (rs.map Resource.identifier).Nodup) :
    SameAnswer Eq ((Program.ofResources rs).orderedNames (.memory texts) tree .byStart)
      ((Program.ofResources rs').orderedNames (.memory texts) tree .byStart) := by
  obtain ⟨d, hdiscover, hends⟩ := Program.ends_ofResources texts tree hnames
  obtain ⟨d', hdiscover', hends'⟩ :=
    Program.ends_ofResources texts tree ((hperm.map _).nodup_iff.mp hnames)
  have hmatched := hends.matched (hends'.of_perm hperm)
  have hnamed := d.units.namedAlike_sameSource d'.units
  rw [Program.orderedNames_eq hdiscover hends.complete,
    Program.orderedNames_eq hdiscover' hends'.complete]
  exact (hmatched.order hnamed).map fun _ _ horder => hnamed.names_eq horder

/-- Two libraries, of which one includes the other. -/
def libraryTexts : List (String × String) :=
  [("io", "putc: ret\n"), ("str", ".include \"io\"\nputs: ret\n")]

/-- A source that starts low in memory, and asks for one library first. -/
def lowSource : Resource := .text "low" ".org 0x100\n.include \"io\"\n.include \"str\"\n"

/-- A source that starts above it, and asks for the other library first. -/
def highSource : Resource := .text "high" ".org 0x200\n.include \"str\"\n.include \"io\"\n"

/-- The libraries are found through one source or the other first, and have other numbers
then, but their order is the same. -/
theorem orderedNames_perm_libraries :
    ([lowSource, highSource].map Resource.identifier).Nodup ∧
      [lowSource, highSource].Perm [highSource, lowSource] ∧
      (Program.ofResources [highSource, lowSource]).orderedNames (.memory libraryTexts) {}
        .byStart = .ok ["io", "str", "low", "high"] ∧
      (Program.ofResources [lowSource, highSource]).orderedNames (.memory libraryTexts) {}
        .byStart = .ok ["io", "str", "low", "high"] := by
  have hnames : ([lowSource, highSource].map Resource.identifier).Nodup := by decide
  have hperm : [lowSource, highSource].Perm [highSource, lowSource] := List.Perm.swap ..
  obtain ⟨d, hdiscover, hends⟩ := Program.ends_ofResources libraryTexts {}
    ((hperm.map Resource.identifier).nodup_iff.mp hnames)
  have hhigh : (Program.ofResources [highSource, lowSource]).orderedNames (.memory libraryTexts) {}
      .byStart = .ok ["io", "str", "low", "high"] := by
    rw [Program.orderedNames_eq hdiscover hends.complete, Graph.order_byStart]
    obtain rfl := congrArg Prod.snd hdiscover
    rw [if_neg (by decide +kernel), if_neg (by decide +kernel), Graph.rootsByStart,
      mergeSort_of_pairwise (by decide +kernel)]
    decide +kernel
  have hsame := orderedNames_perm libraryTexts {} hperm hnames
  rw [hhigh] at hsame
  refine ⟨hnames, hperm, hhigh, ?_⟩
  generalize Program.orderedNames _ _ _ _ = answer at hsame
  cases hsame
  rename_i h
  rw [h]

end WordAsm
