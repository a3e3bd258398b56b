/-
# The includes of a parsed program

The parse queues what the sources include while it works through the queue. Among sources in
memory that comes to an end: a source that is included is that of a unit or becomes a new one,
and new units have different names, which are names of texts (`Units.Supplied`).

Every queued unit has its turn, and only one, if the queue had no repetitions to begin with. A
unit is parsed in its turn: up to then it is blank, and from then on its includes are tied to
the units that they lead to, which are queued (`SourceUnit.Tied`, `ParsedUpTo.visit`).
-/
import Mathlib.Data.List.Dedup
import WordAsm.Proofs.EventProtocol
import WordAsm.Proofs.IncludeLists

namespace WordAsm

variable {tree : FileTree}

open List

theorem foldl_insertNew {α : Type} [DecidableEq α] (xs l : List α) :
    l.foldl insertNew xs = xs ++ (l.filter (· ∉ xs)).eraseDups := by
  induction l generalizing xs with
  | nil => simp
  | cons a l ih =>
    rw [foldl_cons, ih]
    by_cases ha : a ∈ xs
    · simp [insertNew, ha]
    · have hrest : l.filter (fun b => decide (b ∉ xs ++ [a])) =
          (l.filter fun b => decide (b ∉ xs)).filter fun b => !b == a := by
        rw [filter_filter]
        refine filter_congr fun b _ => ?_
        by_cases hb : b = a <;> simp [hb]
      rw [insertNew, if_neg ha, hrest, filter_cons_of_pos (by simpa using ha),
        eraseDups_cons, append_assoc, singleton_append]

/-! ### The units that includes lead to -/

/-- The other source that a statement of the source `r` includes, if it leads to one. -/
def Resource.wanted? (resolver : Resolver) (tree : FileTree) (r : Resource) :
    Statement → Option Resource
  | .includes path =>
    (resolver.resolve tree path (some r)).toOption.filter fun other => !other.same tree r
  | _ => none

/-- The node `n` of the source `r`, which was read as `m`, is tied to the unit that it includes,
if it includes one. The unit is that of the included source, and it is queued. -/
def Resource.Links (resolver : Resolver) (tree : FileTree) (r : Resource) (us : Units)
    (m n : Node) : Prop :=
  Option.Rel (fun other id => us.find? tree other = some id ∧ id ∈ us.order)
    (r.wanted? resolver tree m.statement) n.included

theorem Resource.Links.within {resolver : Resolver} {r : Resource} {us vs : Units} {m n : Node}
    (h : r.Links resolver tree us m n) (hwithin : us.Within vs) : r.Links resolver tree vs m n := by
  unfold Resource.Links at h ⊢
  generalize r.wanted? resolver tree m.statement = wanted at h ⊢
  generalize n.included = included at h ⊢
  cases h with
  | none => exact .none
  | some h => exact .some ⟨Units.find?_of_prefix hwithin.sources h.1, hwithin.order.subset h.2⟩

section Nodes

variable {m n : Node} {u : SourceUnit} {cfg : Settings} {tree : FileTree} {parent : Resource}
  {d d' : Declaring} {nodes nodes' : SyntaxTree}

/-- What declaring the node `m`, which becomes `n`, does to the units. -/
inductive IncludeStep (cfg : Settings) (tree : FileTree) (parent : Resource) (d : Declaring)
    (m n : Node) (d' : Declaring) : Prop
  | follows {r : Resource} (hr : parent.wanted? cfg.resolver tree m.statement = some r)
    (hn : n.included = some (d.findOrAdd tree r).1)
    (hd : d'.program = d.including tree d.unit r)
  | stays {ms : List Marker} (hr : parent.wanted? cfg.resolver tree m.statement = none)
    (hn : n.included = none) (hd : d'.units = (d.program.mark d.unit ms).units)

theorem DeclareStep.stays (h : DeclareStep cfg tree parent d m n d')
    (hs : ∀ path, m.statement ≠ .includes path) :
    n.included = m.included ∧ ∃ ms, d'.units = (d.program.mark d.unit ms).units := by
  cases h with
  | remarks | refuses => exact ⟨rfl, _, rfl⟩
  | defines =>
    refine ⟨rfl, [], ?_⟩
    rw [mark_nil]
    rfl
  | follows hpath => exact absurd hpath (hs _)
  | idles =>
    refine ⟨rfl, [], ?_⟩
    rw [mark_nil]

theorem declareNodes_cons {node : Node}
    (h : declareNodes cfg tree parent (node :: nodes) d = (.ok nodes', d')) :
    ∃ n e rest, declareNode cfg tree parent d node = (.ok n, e) ∧
      declareNodes cfg tree parent nodes e = (.ok rest, d') ∧ nodes' = n :: rest := by
  obtain ⟨n, e, hstep, -⟩ := declareNode_step cfg tree parent d node
  obtain ⟨rest, f, hrest, -⟩ := declares_declareNodes cfg tree parent e nodes
  rw [declareNodes, hstep] at h
  simp only [hrest] at h
  cases h
  exact ⟨n, e, rest, hstep, hrest, rfl⟩

theorem declares_of_declareNodes
    (h : declareNodes cfg tree parent nodes d = (.ok nodes', d')) :
    Declares cfg tree parent d nodes nodes' d' := by
  obtain ⟨rest, e, heq, hdeclares⟩ := declares_declareNodes cfg tree parent d nodes
  rw [h] at heq
  cases heq
  exact hdeclares

theorem IncludeStep.links (h : IncludeStep cfg tree parent d m n d')
    (hw : d.WellFormed) (hu : d.get? d.unit = some u) :
    parent.Links cfg.resolver tree d'.units m n ∧
      ∃ v, d'.get? d.unit = some v ∧
        v.dependencies = n.included.toList.foldl insertNew u.dependencies := by
  unfold Resource.Links
  cases h with
  | @follows r hr hn hd =>
    rw [hr, hn, hd]
    constructor
    · have hsame := d.program.sameSources_including tree d.unit r
      refine .some ⟨(hsame.find? tree r).trans (d.units.find?_findOrAdd tree r), ?_⟩
      rw [hsame.order, hw.order_findOrAdd, Units.mem_insertNew]
      exact .inr rfl
    · refine ⟨u.addDependency (d.findOrAdd tree r).1, ?_, rfl⟩
      refine (Units.get?_modify_self ..).trans ?_
      rw [Program.get?_findOrAdd hu]
      rfl
  | @stays ms hr hn hd =>
    rw [hr, hn, hd]
    obtain ⟨added, next, heq, -⟩ := u.markAll_eq ms
    refine ⟨.none, u.markAll ms, ?_, by rw [heq]; rfl⟩
    exact Program.get?_mark hu ms

variable (hincludes : cfg.switches.has .ignoreIncludes = false)

include hincludes

/-- **Declaring a node** queues the unit that it includes, or leaves the queue alone. -/
theorem declareNode_includeStep (hnew : m.included = none)
    (h : declareNode cfg tree parent d m = (.ok n, d')) :
    IncludeStep cfg tree parent d m n d' := by
  by_cases hpath : ∃ path, m.statement = .includes path
  · obtain ⟨path, hs⟩ := hpath
    rw [declareNode_of_include hs] at h
    have hfollow : d.follow cfg tree parent { m with scope := d.scope } path = (n, d') := by
      obtain ⟨hn, hd⟩ := Prod.mk.inj h
      exact Prod.ext (Except.ok.inj hn) hd
    unfold Declaring.follow at hfollow
    rw [if_neg (by rw [hincludes]; exact Bool.false_ne_true)] at hfollow
    cases hresolve : cfg.resolver.resolve tree path (some parent) with
    | error e =>
      simp only [hresolve] at hfollow
      cases hfollow
      exact .stays (by simp [Resource.wanted?, hs, hresolve, Except.toOption]) hnew rfl
    | ok r =>
      simp only [hresolve] at hfollow
      cases hsame : r.same tree parent with
      | true =>
        simp only [hsame, if_true] at hfollow
        cases hfollow
        exact .stays (by simp [Resource.wanted?, hs, hresolve, Except.toOption, hsame]) hnew rfl
      | false =>
        simp only [hsame, Bool.false_eq_true, if_false] at hfollow
        cases hfollow
        exact .follows (by simp [Resource.wanted?, hs, hresolve, Except.toOption, hsame]) rfl rfl
  · have hs : ∀ path, m.statement ≠ .includes path := fun path hs => hpath ⟨path, hs⟩
    obtain ⟨n', e, heq, hstep⟩ := declareNode_step cfg tree parent d m
    rw [h] at heq
    cases heq
    obtain ⟨hn, ms, hd⟩ := hstep.stays hs
    refine .stays ?_ (hn.trans hnew) hd
    unfold Resource.wanted?
    split
    · exact absurd ‹_› (hs _)
    · rfl

/-- **Declaring nodes** ties each of them, and notes the units that they include. -/
theorem declareNodes_links (hw : d.WellFormed) (hnew : ∀ n ∈ nodes, n.included = none)
    (h : declareNodes cfg tree parent nodes d = (.ok nodes', d'))
    (hu : d.get? d.unit = some u) :
    Forall₂ (parent.Links cfg.resolver tree d'.units) nodes nodes' ∧
      ∃ v, d'.get? d.unit = some v ∧
        v.dependencies = (nodes'.filterMap Node.included).foldl insertNew u.dependencies := by
  induction nodes generalizing d nodes' u with
  | nil =>
    cases h
    exact ⟨.nil, u, hu, rfl⟩
  | cons m nodes ih =>
    obtain ⟨n, e, rest, hstep, hrest, rfl⟩ := declareNodes_cons h
    obtain ⟨n', e', heq, hdeclare⟩ := declareNode_step cfg tree parent d m
    rw [hstep] at heq
    cases heq
    obtain ⟨hlink, v, hv, hdeps⟩ :=
      (declareNode_includeStep hincludes (hnew m mem_cons_self) hstep).links hw hu
    rw [← hdeclare.unit_eq] at hv ⊢
    obtain ⟨hlinks, w, hw', hdeps'⟩ := ih (hdeclare.single.extends.grows.wellFormed hw)
      (fun n hn => hnew n (mem_cons_of_mem _ hn)) hrest hv
    have hwithin := (declares_of_declareNodes hrest).extends.grows.within
    refine ⟨.cons (hlink.within hwithin) hlinks, w, hw', ?_⟩
    rw [hdeps', hdeps, ← foldl_append]
    cases hn : n.included <;> simp [hn]

end Nodes

/-! ### New units -/

/-- The units from number `n` on have names of texts, and no unit ahead has the same name. -/
structure Units.Supplied (texts : List (String × String)) (n : ℕ) (us : Units) : Prop where
  known : ∀ (i : ℕ) u, us.get? i = some u → n ≤ i → u.identifier ∈ texts.map Prod.fst
  apart : ∀ (i j : ℕ) u v, us.get? i = some u → us.get? j = some v → i < j → n ≤ j →
    u.identifier ≠ v.identifier

namespace Units.Supplied

variable {texts : List (String × String)} {n : ℕ} {us us' : Units}

theorem sameSources (h : us.Supplied texts n) (hsame : us.SameSources us') :
    us'.Supplied texts n := by
  have hget : ∀ i u, us'.get? i = some u →
      ∃ v, us.get? i = some v ∧ v.identifier = u.identifier := by
    intro i u hu
    obtain ⟨v, hv, -, hresource⟩ := hsame.get? hu
    exact ⟨v, hv, congrArg Resource.identifier hresource⟩
  refine ⟨fun i u hu hi => ?_, fun i j u v hu hv hlt hj => ?_⟩
  · obtain ⟨u', hu', hname⟩ := hget i u hu
    exact hname ▸ h.known i u' hu' hi
  · obtain ⟨u', hu', hname⟩ := hget i u hu
    obtain ⟨v', hv', hname'⟩ := hget j v hv
    rw [← hname, ← hname']
    exact h.apart i j u' v' hu' hv' hlt hj

/-- **A source that is included** is that of a unit, or that of a new one with a new name. -/
theorem findOrAdd (h : us.Supplied texts n) {path : String} {parent : Option Resource}
    {r : Resource} (hresolve : (Resolver.memory texts).resolve tree path parent = .ok r) :
    (us.findOrAdd tree r).2.Supplied texts n := by
  rcases us.findOrAdd_cases tree r with ⟨u, -, -, heq⟩ | ⟨hnone, heq⟩
  · rw [heq]
    exact ⟨h.known, h.apart⟩
  · rw [heq]
    have hapart : ∀ i u, us.get? i = some u → u.identifier ≠ r.identifier := by
      intro i u hu hname
      have hdiffer := hnone u (Units.mem_all_iff.mpr ⟨i, hu⟩)
      rw [Resolver.same_of_resolve hresolve] at hdiffer
      exact absurd hname (beq_eq_false_iff_ne.mp hdiffer)
    refine ⟨fun i u hu hi => ?_, fun i j u v hu hv hlt hj => ?_⟩
    · rw [Units.get?_add] at hu
      split at hu
      · cases hu
        obtain ⟨name, content, hcontent, rfl⟩ := Resolver.exists_text_of_resolve hresolve
        exact mem_map.mpr ⟨(name, content), mem_of_lookup hcontent, rfl⟩
      · exact h.known i u hu hi
    · rw [Units.get?_add] at hu hv
      split at hv
      · rename_i hlast
        cases hv
        rw [if_neg (hlast ▸ Nat.ne_of_lt hlt)] at hu
        exact hapart i u hu
      · rw [if_neg (Nat.ne_of_lt (Nat.lt_trans hlt (Units.get?_lt hv)))] at hu
        exact h.apart i j u v hu hv hlt hj

/-- **There are no more new units than texts.** -/
theorem length_le (h : us.Supplied texts n) :
    us.all.length ≤ n + (texts.map Prod.fst).dedup.length := by
  have hget : ∀ i (hi : i < us.all.length), us.get? i = some us.all[i] :=
    fun i hi => getElem?_eq_getElem hi
  have hnodup : ((us.all.drop n).map SourceUnit.identifier).Nodup := by
    refine pairwise_iff_getElem.mpr fun i j hi hj hlt => ?_
    have hj' := hj
    rw [getElem_map, getElem_map, getElem_drop, getElem_drop]
    exact h.apart (n + i) (n + j) _ _ (hget _ _) (hget _ _) (by omega) (by omega)
  have hsub : (us.all.drop n).map SourceUnit.identifier ⊆ (texts.map Prod.fst).dedup := by
    intro name hname
    obtain ⟨u, hu, rfl⟩ := mem_map.mp hname
    obtain ⟨i, hi, rfl⟩ := mem_iff_getElem.mp hu
    rw [getElem_drop, mem_dedup]
    exact h.known (n + i) _ (hget _ _) (by omega)
  have hle := (hnodup.subperm hsub).length_le
  rw [length_map, length_drop] at hle
  omega

end Units.Supplied

/-! ### Units one after another -/

/-- The nodes of the unit are those of its source, with its includes tied to units among `us`.
It depends on these units, in the order in which they are first included. -/
structure SourceUnit.Tied (cfg : Settings) (tree : FileTree) (us : Units) (u : SourceUnit)
    (nodes : SyntaxTree) : Prop where
  read : Forall₂ (fun m n => m.DeclaredAs n ∧ u.resource.Links cfg.resolver tree us m n)
    (u.source cfg.switches tree) nodes
  dependencies : u.dependencies = (nodes.filterMap Node.included).eraseDups

theorem SourceUnit.Tied.within {cfg : Settings} {us vs : Units} {u : SourceUnit}
    {nodes : SyntaxTree} (h : u.Tied cfg tree us nodes) (hwithin : us.Within vs) :
    u.Tied cfg tree vs nodes :=
  ⟨h.read.imp fun _ _ hmn => ⟨hmn.1, hmn.2.within hwithin⟩, h.dependencies⟩

/-- The parse has come to position `k` of the queue, where the units from number `n` on are new.
Units that have had their turn are tied, if they could be read; nothing has been done with the
others. -/
structure ParsedUpTo (cfg : Settings) (texts : List (String × String)) (tree : FileTree)
    (n k : ℕ) (p : Program) : Prop where
  wellFormed : p.WellFormed
  nodup : p.order.Nodup
  supplied : p.units.Supplied texts n
  blank : ∀ i u, p.get? i = some u → i ∉ p.order.take k →
    u.hasErrors = false ∧ u.tree = none ∧ u.dependencies = []
  parsed : ∀ i u text, p.get? i = some u → i ∈ p.order.take k →
    u.resource.readText tree = .ok text → u.tree.isSome
  tied : ∀ i u nodes, p.get? i = some u → u.tree = some nodes →
    u.Tied cfg tree p.units nodes

section Turns

variable {cfg : Settings} {texts : List (String × String)} {tree : FileTree} {n k : ℕ}
  {p : Program} {u : SourceUnit}

theorem ParsedUpTo.blank_at (h : ParsedUpTo cfg texts tree n k p)
    (hk : p.order[k]? = some u.id) (hu : p.get? u.id = some u) :
    u.hasErrors = false ∧ u.tree = none ∧ u.dependencies = [] := by
  refine h.blank u.id u hu fun hin => ?_
  have hdrop : u.id ∈ p.order.drop k :=
    mem_of_getElem? (i := 0) (by rw [getElem?_drop]; exact hk)
  exact disjoint_take_drop h.nodup (Nat.le_refl k) hin hdrop

theorem SourceUnit.untied_of_mem_source {switches : Switches} {m : Node}
    (hm : m ∈ u.source switches tree) : m.included = none := by
  unfold source at hm
  split at hm
  · rw [eq_of_mem_nodesFrom hm]
  · cases hm

section Unit

variable {b : Build}

/-- **The unit that is parsed** has its includes tied, unless it cannot be read. -/
theorem parseUnit_tied (hincludes : cfg.switches.has .ignoreIncludes = false)
    (hw : b.WellFormed) (hu : b.get? u.id = some u)
    (htree : u.tree = none) (hdeps : u.dependencies = []) :
    ∃ v, (parseUnit cfg u b).2.units.get? u.id = some v ∧
      (∀ text, v.resource.readText b.tree = .ok text → v.tree.isSome) ∧
      ∀ nodes, v.tree = some nodes →
        v.Tied cfg b.tree (parseUnit cfg u b).2.units nodes := by
  cases htext : u.resource.readText b.tree with
  | error e =>
    rw [(parseUnit_unreadable cfg htext).2.2]
    obtain ⟨added, next, heq, -⟩ := u.markAll_eq [.error e.message]
    refine ⟨u.markAll [.error e.message], ?_, fun text hread => ?_, fun nodes hnodes => ?_⟩
    · exact Program.get?_mark hu _
    · cases htext.symm.trans hread
    · cases htree.symm.trans hnodes
  | ok text =>
    obtain ⟨nodes, d, hdeclare, hd⟩ := declares_source cfg u b text
    rw [(parseUnit_readable htext hdeclare).2.2]
    have hsource : u.source cfg.switches b.tree = _ := SourceUnit.source_eq htext
    obtain ⟨added, next, hmarked, -⟩ := u.markAll_eq (parseSource cfg.switches text).2
    obtain ⟨hlinks, v, hv, hvdeps⟩ := declareNodes_links hincludes
      ((Program.grows_mark ..).wellFormed hw)
      (fun m hm => SourceUnit.untied_of_mem_source (hsource ▸ hm)) hdeclare
      (Program.get?_mark hu _)
    -- includes are looked up from the same source as before
    have hresource : v.resource = u.resource := by
      obtain ⟨w, hw', hgrows⟩ := ((Program.grows_mark ..).trans hd.extends.grows).units u.id u hu
      obtain rfl : v = w := Option.mem_unique hv hw'
      exact hgrows.resource
    refine ⟨{ v with tree := some nodes }, ?_, fun _ _ => rfl, fun nodes' hnodes' => ?_⟩
    · exact (Units.get?_modify_self ..).trans (congrArg _ hv)
    · obtain rfl : nodes = nodes' := Option.some.inj hnodes'
      have hsame := Program.sameSources_modifyUnit d.program u.id (SourceUnit.grows_withTree nodes)
      refine ⟨?_, ?_⟩
      · rw [(SourceUnit.source_congr (v := { v with tree := some nodes }) hresource _ _).trans
          hsource]
        refine Forall₂.mp (fun m n hmn hlink => ⟨hmn, ?_⟩) hd.nodes_eq hlinks
        rw [hresource]
        exact hlink.within hsame.within
      · have hnone : (u.markAll (parseSource cfg.switches text).2).dependencies = [] := by
          rw [hmarked]
          exact hdeps
        rw [hnone, foldl_insertNew] at hvdeps
        simpa using hvdeps

end Unit

/-- **The turn of one more unit.** -/
theorem ParsedUpTo.visit (hresolver : cfg.resolver = .memory texts)
    (hincludes : cfg.switches.has .ignoreIncludes = false) {b : Build} (hfiles : b.tree = tree)
    (h : ParsedUpTo cfg texts tree n k b.program)
    (hk : b.order[k]? = some u.id) (hu : b.get? u.id = some u) :
    ParsedUpTo cfg texts tree n (k + 1) (parseUnit cfg u b).2.program := by
  subst hfiles
  obtain ⟨-, htree, hdeps⟩ := h.blank_at hk hu
  have hg : b.program.Grows (parseUnit cfg u b).2.program :=
    (parsePhase_quiet cfg).grows u b
  obtain ⟨v, hv, hread, htied⟩ := parseUnit_tied hincludes h.wellFormed hu htree hdeps
  -- what is kept depends on no more than the sources and the queue
  have hsame {us us' : Units} (hs : us.SameSources us')
      (hus : us.WellFormed ∧ us.order.Nodup ∧ us.Supplied texts n) :
      us'.WellFormed ∧ us'.order.Nodup ∧ us'.Supplied texts n :=
    ⟨hs.wellFormed hus.1, hs.order ▸ hus.2.1, hus.2.2.sameSources hs⟩
  obtain ⟨hwell, hnodup, hsupplied⟩ := parseUnit_keeps (b := b) (u := u)
    (I := fun p => p.WellFormed ∧ p.order.Nodup ∧ p.units.Supplied texts n)
    (fun p _ _ => hsame (p.sameSources_mark ..)) (fun _ _ _ _ _ _ _ hp => hp)
    (fun p _ _ _ _ _ hresolve hp => hsame (p.sameSources_including ..) ⟨hp.1.findOrAdd _ _, by
      rw [hp.1.order_findOrAdd]
      exact Graph.Mirrored.nodup_insertNew hp.2.1 _,
      hp.2.2.findOrAdd (hresolver ▸ hresolve)⟩)
    (fun p nodes => hsame (p.sameSources_modifyUnit u.id (SourceUnit.grows_withTree nodes)))
    ⟨h.wellFormed, h.nodup, h.supplied⟩
  refine ⟨hwell, hnodup, hsupplied, fun i w hw hi => ?_,
    fun i w text hw hi htext => ?_, fun i w nodes hw hnodes => ?_⟩
  · -- a unit that waits was there before, or this turn has found it
    rw [(take_succ_of_grown hg.order hk).2, mem_append, mem_singleton, not_or] at hi
    rcases get?_parseUnit_other hi.2 hw with hw | ⟨-, hw⟩
    · exact h.blank i w hw hi.1
    · rw [hw]
      exact ⟨rfl, rfl, rfl⟩
  · by_cases hid : i = u.id
    · subst hid
      obtain rfl : v = w := Option.mem_unique hv hw
      exact hread text htext
    · have hbefore := mem_take_of_grown hg.order hk hi hid
      rcases get?_parseUnit_other hid hw with hw | ⟨hnone, -⟩
      · exact h.parsed i w text hw hbefore htext
      · have hqueued := h.wellFormed.queued i (mem_of_mem_take hbefore)
        rw [hnone] at hqueued
        cases hqueued
  · by_cases hid : i = u.id
    · subst hid
      obtain rfl : v = w := Option.mem_unique hv hw
      exact htied nodes hnodes
    · rcases get?_parseUnit_other hid hw with hw | ⟨-, hw⟩
      · exact (h.tied i w nodes hw hnodes).within hg.within
      · rw [hw] at hnodes
        cases hnodes

end Turns

/-! ### The loop -/

section Loop

variable {cfg : Settings} {slot : Slot}

/-- **The units that a phase is run on**, where it takes every unit that has its turn: those of
the queue, as it is in the end, from position `k` on. -/
theorem recordUnits_units (slot : Slot) {I : ℕ → Program → FileTree → Prop}
    (hc : slot.phase.Carries cfg I)
    (hgrows : ∀ u (b : Build), b.program.Grows (runUnit cfg slot.phase u b).program)
    (haccepts : ∀ k (b : Build) u, b.order[k]? = some u.id →
      b.get? u.id = some u → I k b.program b.tree → slot.phase.accepts u = true)
    (hgo : slot.abortOnError = false) (steps k : ℕ) (failed : Bool) (b : Build)
    (h : I k b.program b.tree) :
    (recordUnits cfg slot steps k failed b).1.map Call.unit =
      ((recordUnits cfg slot steps k failed b).2.2.units.order.drop k).take steps := by
  induction steps generalizing k failed b with
  | zero => simp [recordUnits]
  | succ steps ih =>
    have hw := hc.wellFormed _ _ _ h
    cases hid : b.order[k]? with
    | none =>
      have hnone : recordUnits cfg slot (steps + 1) k failed b = ([], failed, b) := by
        rw [recordUnits, hid]
      rw [hnone, drop_eq_nil_of_le (List.getElem?_eq_none_iff.mp hid)]
      rfl
    | some id =>
      obtain ⟨u, hu, rfl⟩ := hw.exists_get? (mem_of_getElem? hid)
      have hacc := haccepts k b u hid hu h
      -- the queue only grows, so that its position `k` stays the same to the end
      have hend : b.program.Grows
          (recordUnits cfg slot (steps + 1) k failed b).2.2.program := by
        rw [recordUnits_eq]
        exact runUnits_grows hgrows (steps + 1) k failed b
      rw [hend.drop_order hid, take_succ_cons]
      obtain ⟨-, hnext⟩ := hc.ran (b := b.tell _) hid hu hacc h
      simp only [recordUnits, hid, hu, hacc, Bool.not_true, Bool.false_eq_true, if_false, hgo]
      split
      · exact congrArg (u.id :: ·) (ih (k + 1) true _ (by simpa using hnext))
      · exact congrArg (u.id :: ·) (ih (k + 1) failed _ (by simpa using hnext))

end Loop

/-! ### The parse -/

section Parse

variable {cfg : Settings} {texts : List (String × String)} {p : Program}

theorem parsePhase_carries_parsed (hresolver : cfg.resolver = .memory texts)
    (hincludes : cfg.switches.has .ignoreIncludes = false) (tree : FileTree) (n bound : ℕ) :
    parsePhase.Carries cfg fun k p files => files = tree ∧
      ParsedUpTo cfg texts tree n k p ∧
      p.load (cfg.resolver.targets tree) ≤ bound where
  wellFormed _ _ _ h := h.2.1.wellFormed
  skipped k b u hk hu hacc h := by
    rw [(parsePhase_quiet cfg).accepts, (h.2.1.blank_at hk hu).1] at hacc
    cases hacc
  run k b u hk hu _ h := by
    obtain ⟨rfl, hparsed, hload⟩ := h
    obtain ⟨hok, hfiles, -⟩ := parseUnit_cases cfg u b
    exact ⟨hok, hfiles, hparsed.visit hresolver hincludes rfl hk hu,
      Nat.le_trans (load_parseUnit hparsed.wellFormed) hload⟩

theorem parsedUpTo_reset (hw : p.WellFormed) (hnodup : p.order.Nodup)
    (tree : FileTree) : ParsedUpTo cfg texts tree p.all.length 0 p.reset := by
  have hlt : ∀ i u, p.reset.get? i = some u → i < p.all.length := by
    intro i u hu
    have hlt := Units.get?_lt hu
    rwa [show p.reset.all.length = p.all.length from length_map _] at hlt
  have hreset : ∀ i u, p.reset.get? i = some u → ∃ v : SourceUnit, u = v.reset := by
    intro i u hu
    obtain ⟨v, -, rfl⟩ := Option.map_eq_some_iff.mp (getElem?_map.symm.trans hu)
    exact ⟨v, rfl⟩
  refine ⟨reset_wellFormed hw, hnodup, ⟨fun i u hu hi => ?_, fun i j u v hu hv _ hj => ?_⟩,
    fun i u hu _ => ?_, fun i u text hu hi => ?_, fun i u nodes hu hnodes => ?_⟩
  · exact absurd (hlt i u hu) (Nat.not_lt.mpr hi)
  · exact absurd (hlt j v hv) (Nat.not_lt.mpr hj)
  · obtain ⟨v, rfl⟩ := hreset i u hu
    exact ⟨rfl, rfl, rfl⟩
  · cases hi
  · obtain ⟨v, rfl⟩ := hreset i u hu
    cases hnodes

/-- The parse of the program `p` among texts in memory leaves `q`. -/
structure Program.FindsIncludes (cfg : Settings) (texts : List (String × String))
    (tree : FileTree) (p q : Program) : Prop where
  /-- The units that were there stay, and those that are found go to the end of the queue. -/
  within : p.units.Within q.units
  nodup : q.order.Nodup
  count : q.all.length ≤ p.all.length + (texts.map Prod.fst).dedup.length
  /-- Two units of one name were there before. -/
  named : ∀ (i j : ℕ) u v, q.get? i = some u → q.get? j = some v →
    u.identifier = v.identifier → i = j ∨ i < p.all.length ∧ j < p.all.length
  parsed : ∀ id ∈ q.order, ∃ u, q.get? id = some u ∧
    ∀ text, u.resource.readText tree = .ok text → u.tree.isSome
  tied : ∀ id u nodes, q.get? id = some u → u.tree = some nodes →
    u.Tied cfg tree q.units nodes

theorem ParsedUpTo.findsIncludes {k : ℕ} {q : Program}
    (h : ParsedUpTo cfg texts tree p.all.length k q) (hk : q.order.length ≤ k)
    (hwithin : p.units.Within q.units) : p.FindsIncludes cfg texts tree q where
  within := hwithin
  nodup := h.nodup
  count := h.supplied.length_le
  named i j u v hu hv hname := by
    rcases Nat.lt_trichotomy i j with hlt | heq | hgt
    · by_cases hj : j < p.all.length
      · exact .inr ⟨Nat.lt_trans hlt hj, hj⟩
      · exact absurd hname (h.supplied.apart i j u v hu hv hlt (Nat.not_lt.mp hj))
    · exact .inl heq
    · by_cases hi : i < p.all.length
      · exact .inr ⟨hi, Nat.lt_trans hgt hi⟩
      · exact absurd hname.symm (h.supplied.apart j i v u hv hu hgt (Nat.not_lt.mp hi))
  parsed id hid := by
    obtain ⟨u, hu, -⟩ := h.wellFormed.exists_get? hid
    refine ⟨u, hu, fun text htext => h.parsed id u text hu ?_ htext⟩
    rwa [take_of_length_le hk]
  tied := h.tied

end Parse

/-- **The parse finds all includes, and ends.** Among texts in memory, with includes to be
followed and a queue without repetitions, the loop of the parse is over within its bound: more
steps change nothing. It is run on the units of the queue, as it is in the end, each once. The
queue is the one it started with and the units that were found, without repetitions; there are
at most as many new units as texts, and no two units of one name unless both were there before.
In every unit that could be read, each include that leads to another source is tied to the unit
of that source, which is queued; and the unit depends on these units, in the order in which they
are first included. -/
theorem parse_finds_includes {cfg : Settings} {texts : List (String × String)} {p : Program}
    {tree : FileTree} (hresolver : cfg.resolver = .memory texts)
    (hincludes : cfg.switches.has .ignoreIncludes = false) (hw : p.WellFormed)
    (hnodup : p.order.Nodup) :
    (∀ steps, queueBound cfg (opening p tree) ≤ steps →
      runUnits cfg { phase := parsePhase } steps 0 false
          ((opening p tree).tell (.phaseStart parsePhase.name)) =
        runUnits cfg { phase := parsePhase } (queueBound cfg (opening p tree)) 0 false
          ((opening p tree).tell (.phaseStart parsePhase.name))) ∧
      (recordPhase cfg { phase := parsePhase } (opening p tree)).1.map Call.unit =
        (runPhase cfg { phase := parsePhase } (opening p tree)).2.units.order ∧
      p.FindsIncludes cfg texts tree
        (runPhase cfg { phase := parsePhase } (opening p tree)).2.program := by
  have hcarries := parsePhase_carries_parsed hresolver hincludes tree p.all.length
    (queueBound cfg (opening p tree))
  have hstart : (opening p tree).tree = tree ∧
      ParsedUpTo cfg texts tree p.all.length 0 (opening p tree).program ∧
      (opening p tree).load (cfg.resolver.targets tree) ≤
        queueBound cfg (opening p tree) :=
    ⟨rfl, parsedUpTo_reset hw hnodup tree, load_le_queueBound cfg (opening p tree)⟩
  obtain ⟨-, n, ⟨-, hparsed, hload⟩, hend⟩ :=
    hcarries.runPhase { phase := parsePhase } (b := opening p tree) hstart
  have hlength := Nat.le_trans (Units.order_le_load _ _) hload
  have hn : (runPhase cfg { phase := parsePhase }
      (opening p tree)).2.units.order.length ≤ n := by
    rcases hend with hend | rfl | ⟨-, habort⟩
    · exact hend
    · exact hlength
    · cases habort
  refine ⟨fun steps hsteps => ?_, ?_, hparsed.findsIncludes hn ?_⟩
  · obtain ⟨more, rfl⟩ := Nat.exists_eq_add_of_le hsteps
    exact runUnits_more more (by rw [Nat.zero_add]; exact hlength)
  · have hunits := recordUnits_units { phase := parsePhase } hcarries
      (fun u b => grows_runUnit ((parsePhase_quiet cfg).grows u b))
      (fun k b u hk hu h => by
        rw [(parsePhase_quiet cfg).accepts, (h.2.1.blank_at hk hu).1]
        rfl) rfl (queueBound cfg (opening p tree)) 0 false
      ((opening p tree).tell (.phaseStart parsePhase.name)) hstart
    rw [recordUnits_eq, drop_zero] at hunits
    exact hunits.trans (take_of_length_le hlength)
  · exact p.sameSources_reset.within.trans (grows_runPhase { phase := parsePhase }
      (parsePhase_quiet cfg).toSteady (b := opening p tree) (reset_wellFormed hw)).1.within

/-- Sources that include each other, themselves and what is not there. -/
def nestedTexts : List (String × String) :=
  [("main", "nop\n"), ("lib/a", ".include \"b\"\n.include \"main\"\n.include \"b\"\n"),
    ("lib/b", ".include \"a\"\n.include \"b\"\n.include \"c\"\n")]

/-- A source that includes another one twice, through a macro. -/
def nestedMain : Program :=
  .ofResources [.text "main" ".macro lib\n.include \"lib/a\"\n.endm\nlib\nlib\n"]

/-- The two libraries are found once each, under names of their own, and parsed. -/
theorem parse_finds_includes_nested :
    let cfg : Settings := { resolver := .memory nestedTexts }
    let q := (runPhase cfg { phase := parsePhase } (opening nestedMain {})).2.program
    (recordPhase cfg { phase := parsePhase } (opening nestedMain {})).1.map Call.unit =
        [0, 1, 2] ∧
      q.all.length ≤ 4 ∧
      (∀ (i j : ℕ) u v, q.get? i = some u → q.get? j = some v →
        u.identifier = v.identifier → i = j) ∧
      ∀ u nodes, q.get? 1 = some u → u.tree = some nodes →
        u.Tied cfg {} q.units nodes := by
  intro cfg q
  obtain ⟨-, hcalls, hfinds⟩ := @parse_finds_includes cfg nestedTexts nestedMain {} rfl
    (by decide) (Program.wellFormed_ofResources _) (by decide)
  have horder : q.order = [0, 1, 2] := by decide +kernel
  refine ⟨hcalls.trans horder, hfinds.count, fun i j u v hu hv hname => ?_, hfinds.tied 1⟩
  rcases hfinds.named i j u v hu hv hname with heq | ⟨hi, hj⟩
  · exact heq
  · have hone : nestedMain.all.length = 1 := rfl
    omega

end WordAsm
