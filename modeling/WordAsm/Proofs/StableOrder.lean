/-
# The working order outlasts a compilation

Ordering reads the sources token by token, compiling reads them statement by statement and
expands macros. Still the two agree on the units: an include that the parser finds has been
found by the scan (`scanned_of_parsed`), and what the scan leads to is in the order
(`orderUnits_closed`). So the parse of a program that has been ordered finds all units that
it looks for, and queues them where they are already. The other phases do not look for units
at all. The compilation leaves the sources and their order as they are
(`compile_keeps_order`).

What is held in memory reads the same whatever the files are, so that files which are written
on the way do not matter.
-/
import WordAsm.Proofs.IncludeScan
import WordAsm.Proofs.Stages
import WordAsm.Proofs.WorkingOrder

namespace WordAsm

open List

/-! ### Units with the same sources -/

namespace Units

def sources (us : Units) : List (UnitId × Resource) := us.all.map fun u => (u.id, u.resource)

/-- The same sources, under the same numbers and in the same order. -/
structure SameSources (us us' : Units) : Prop where
  order : us'.order = us.order
  sources : us'.sources = us.sources

variable {us us' us'' : Units}

theorem SameSources.refl (us : Units) : us.SameSources us := ⟨rfl, rfl⟩

theorem SameSources.trans (h : us.SameSources us') (h' : us'.SameSources us'') :
    us.SameSources us'' :=
  ⟨h'.order.trans h.order, h'.sources.trans h.sources⟩

theorem find?_eq_sources (us : Units) (tree : FileTree) (r : Resource) :
    us.find? tree r = (us.sources.find? fun s => s.2.same tree r).map Prod.fst := by
  unfold find? sources
  rw [find?_map, Option.map_map]
  rfl

theorem SameSources.find? (h : us.SameSources us') (tree : FileTree) (r : Resource) :
    us'.find? tree r = us.find? tree r := by
  rw [find?_eq_sources, find?_eq_sources, h.sources]

theorem SameSources.get? (h : us.SameSources us') {id : UnitId} {u : SourceUnit}
    (hu : us'.get? id = some u) :
    ∃ v, us.get? id = some v ∧ v.id = u.id ∧ v.resource = u.resource := by
  have hsource : us.sources[id]? = some (u.id, u.resource) := by
    rw [← h.sources, Units.sources, getElem?_map]
    exact congrArg _ hu
  rw [Units.sources, getElem?_map] at hsource
  obtain ⟨v, hv, heq⟩ := Option.map_eq_some_iff.mp hsource
  exact ⟨v, hv, congrArg Prod.fst heq, congrArg Prod.snd heq⟩

theorem SameSources.symm (h : us.SameSources us') : us'.SameSources us :=
  ⟨h.order.symm, h.sources.symm⟩

theorem SameSources.wellFormed (h : us.SameSources us') (hw : us.WellFormed) : us'.WellFormed := by
  refine ⟨fun i u hu => ?_, fun i hi => ?_⟩
  · obtain ⟨v, hv, hid, -⟩ := h.get? hu
    exact hid.symm.trans (hw.numbered i v hv)
  · obtain ⟨v, hv, -⟩ := hw.exists_get? (h.order ▸ hi)
    obtain ⟨u, hu, -⟩ := h.symm.get? hv
    exact Option.isSome_iff_exists.mpr ⟨u, hu⟩

end Units

namespace Program

theorem sameSources_modifyUnit (p : Program) (id : UnitId) {f : SourceUnit → SourceUnit}
    (hf : ∀ u : SourceUnit, u.Grows (f u)) : p.units.SameSources (p.modifyUnit id f).units := by
  refine ⟨rfl, ext_getElem? fun i => ?_⟩
  unfold Units.sources modifyUnit Units.modify
  rw [getElem?_map, getElem?_map, getElem?_modify]
  cases p.all[i]? with
  | none => rfl
  | some u =>
    by_cases hi : id = i
    · simp [hi, (hf u).id, (hf u).resource]
    · simp [hi]

theorem sameSources_mark (p : Program) (id : UnitId) (ms : List Marker) :
    p.units.SameSources (p.mark id ms).units :=
  sameSources_modifyUnit p id fun u => SourceUnit.grows_markAll u ms

theorem sameSources_reset (p : Program) : p.units.SameSources p.reset.units := by
  refine ⟨rfl, ?_⟩
  unfold reset Units.sources
  rw [map_map]
  rfl

end Program

/-! ### Phases -/

/-- A phase that leaves the units `us` as they are, if it runs on one of them. -/
def Phase.Settled (phase : Phase) (cfg : Settings) (us : Units) : Prop :=
  ∀ (b : Build) id u, us.SameSources b.units → id ∈ us.order →
    b.get? id = some u → us.SameSources (phase.run cfg u b).2.units

section Phases

variable {id : UnitId} {u : SourceUnit} {cfg : Settings} {us : Units} {b : Build}
  {phase : Phase}

theorem Phase.Treewise.settled {change : SourceUnit → SyntaxTree → Program → Program}
    (h : phase.Treewise cfg change)
    (hchange : ∀ u nodes (p : Program), p.units.SameSources (change u nodes p).units) :
    phase.Settled cfg us := fun b _ u hsame _ _ =>
  h.keeps (I := (us.SameSources ·.units)) hsame fun nodes _ => hsame.trans (hchange u nodes b.program)

theorem layoutPhase_settled : layoutPhase.Settled cfg us :=
  (layoutPhase_treewise cfg).settled fun u nodes p =>
    Program.sameSources_modifyUnit { p with symbols := (layoutOf cfg u nodes p).2.symbols }
      u.id fun v => v.grows_withLayout _

theorem foldingPhase_settled : foldingPhase.Settled cfg us :=
  (foldingPhase_treewise cfg).settled fun u _ p =>
    p.sameSources_modifyUnit u.id (SourceUnit.grows_withTree _)

theorem validationPhase_settled : validationPhase.Settled cfg us :=
  (validationPhase_treewise cfg).settled fun u _ p => p.sameSources_mark u.id _

theorem referencePhase_settled : referencePhase.Settled cfg us := fun _ _ _ hsame _ _ =>
  referencePhase_keeps (I := (us.SameSources ·.units))
    (fun _ _ q hq => hq.trans (q.sameSources_mark ..))
    (fun q _ hq => hq.trans (q.sameSources_mark ..)) hsame

theorem emissionPhase_settled : emissionPhase.Settled cfg us := fun b _ u hsame _ _ =>
  emissionPhase_keeps (I := (us.SameSources ·.units)) hsame fun _ _ =>
    hsame.trans (b.program.sameSources_modifyUnit u.id fun v => v.grows_withEmission _ _)

/-! ### The parse -/

theorem Units.Closed.found {tree : FileTree} (h : us.Closed cfg.resolver tree)
    (hid : id ∈ us.order) (hu : us.get? id = some u) {n : Node}
    (hn : n ∈ u.source cfg.switches tree) {path : String} {r : Resource}
    (hs : n.statement = .includes path)
    (hresolve : cfg.resolver.resolve tree path (some u.resource) = .ok r) :
    ∃ b ∈ us.order, us.find? tree r = some b := by
  unfold SourceUnit.source at hn
  split at hn
  · exact h id hid r ⟨u, _, path, hu, ‹_›, scanned_of_parsed hn hs, hresolve⟩
  · cases hn

/-- **Parsing a unit whose includes are all queued** leaves the units as they are. -/
theorem parsePhase_settled (hclosed : ∀ tree, us.Closed cfg.resolver tree) :
    parsePhase.Settled cfg us := by
  intro b id u hsame hid hu
  obtain ⟨v, hv, -, hresource⟩ := hsame.get? hu
  refine parseUnit_keeps (I := (us.SameSources ·.units))
    (fun p _ _ hp => hp.trans (p.sameSources_mark ..)) (fun _ _ _ _ _ _ _ hp => hp)
    (fun p n hn path r hs hresolve hp => ?_)
    (fun p nodes hp => hp.trans (p.sameSources_modifyUnit u.id (SourceUnit.grows_withTree nodes)))
    hsame
  rw [← SourceUnit.source_congr hresource] at hn
  rw [← hresource] at hresolve
  obtain ⟨b', hb, hfind⟩ := (hclosed b.tree).found hid hv hn hs hresolve
  rw [← hp.find?] at hfind
  have hqueued : p.findOrAdd b.tree r = (b', p.units) :=
    Units.findOrAdd_of_queued hfind (hp.order ▸ hb)
  have hunits : us.SameSources (p.findOrAdd b.tree r).2 := by
    rw [hqueued]
    exact hp
  exact hunits.trans (Program.sameSources_modifyUnit { p with
    units := (p.findOrAdd b.tree r).2 } u.id fun _ => ⟨rfl, rfl, prefix_refl _⟩)

/-- **The six phases** leave units as they are whose includes are queued. -/
theorem settled_of_standard (hclosed : ∀ tree, us.Closed cfg.resolver tree)
    (h : phase ∈ Pipeline.standard.map Slot.phase) : phase.Settled cfg us := by
  rcases (mem_cons.mp h).imp_right behind_parse_cases with rfl | rfl | rfl | rfl | rfl | rfl
  · exact parsePhase_settled hclosed
  · exact referencePhase_settled
  · exact layoutPhase_settled
  · exact foldingPhase_settled
  · exact validationPhase_settled
  · exact emissionPhase_settled

/-! ### Runs -/

theorem runUnit_sameSources (h : phase.Settled cfg us) (hsame : us.SameSources b.units)
    (hid : id ∈ us.order) (hu : b.get? id = some u) :
    us.SameSources (runUnit cfg phase u b).units :=
  runUnit_keeps (I := (us.SameSources ·.units)) (fun _ _ _ hq => hq.trans (Program.sameSources_mark ..))
    (h b id u hsame hid hu)

theorem runPhase_sameSources {slot : Slot} (h : slot.phase.Settled cfg us)
    (hsame : us.SameSources b.units) :
    us.SameSources (runPhase cfg slot b).2.units :=
  runUnits_keeps (I := fun p => us.SameSources p.units)
    (fun _ _ _ hid hu hp => runUnit_sameSources h hp (hp.order ▸ hid) hu)
    (queueBound cfg b) 0 false (b := b.tell (.phaseStart slot.name)) hsame

/-- **A pipeline of settled phases** leaves the units as they are. -/
theorem runPipeline_sameSources {slots : Pipeline}
    (h : ∀ slot ∈ slots, slot.phase.Settled cfg us) (hsame : us.SameSources b.units) :
    us.SameSources (runPipeline cfg slots b).2.units :=
  runPipeline_keeps (I := fun p => us.SameSources p.units)
    (fun slot hslot _ _ _ hid hu hp => runUnit_sameSources (h slot hslot) hp (hp.order ▸ hid) hu)
    hsame

end Phases

/-! ### Sources in memory -/

def Resource.inMemory : Resource → Bool
  | file _ => false
  | _ => true

section Memory

variable {r : Resource} {texts : List (String × String)} {tree : FileTree}

theorem Resource.readText_inMemory (h : r.inMemory = true) (tree tree' : FileTree) :
    r.readText tree' = r.readText tree := by
  cases r with
  | file path => cases h
  | text | memory => rfl

theorem Resource.same_inMemory (h : r.inMemory = true) (other : Resource) (tree tree' : FileTree) :
    other.same tree' r = other.same tree r := by
  cases r with
  | file path => cases h
  | text | memory => cases other <;> rfl

theorem Resolver.resolve_memory (texts : List (String × String)) (tree tree' : FileTree)
    (path : String) (parent : Option Resource) :
    (memory texts).resolve tree' path parent = (memory texts).resolve tree path parent := by
  unfold resolve
  rfl

theorem Resolver.inMemory_of_resolve {path : String} {parent : Option Resource}
    (h : (Resolver.memory texts).resolve tree path parent = .ok r) : r.inMemory = true := by
  obtain ⟨name, content, -, rfl⟩ := exists_text_of_resolve h
  rfl

theorem Units.Closed.inMemory {us : Units} (h : us.Closed (.memory texts) tree)
    (hmemory : ∀ u ∈ us.all, u.resource.inMemory = true) (tree' : FileTree) :
    us.Closed (.memory texts) tree' := by
  rintro a ha r ⟨u, text, path, hu, hread, hpath, hresolve⟩
  rw [Resource.readText_inMemory (hmemory u (mem_all_iff.mpr ⟨a, hu⟩)) tree tree'] at hread
  rw [Resolver.resolve_memory texts tree tree'] at hresolve
  obtain ⟨b, hb, hfind⟩ := h a ha r ⟨u, text, path, hu, hread, hpath, hresolve⟩
  refine ⟨b, hb, ?_⟩
  have hsame := Resource.same_inMemory (Resolver.inMemory_of_resolve hresolve)
  unfold find? at hfind ⊢
  simp only [hsame _ tree tree']
  exact hfind

theorem orderUnits_inMemory {selector : RootSelector} {p q : Program} {log : List LogLine}
    (hw : p.WellFormed) (hmemory : ∀ u ∈ p.all, u.resource.inMemory = true)
    (h : p.orderUnits (.memory texts) tree selector = (.ok (), q, log)) :
    ∀ u ∈ q.all, u.resource.inMemory = true := by
  obtain ⟨d, chosen, -, hgains, hunits, -⟩ := orderUnits_ok hw h
  rw [hunits]
  intro u hu
  rcases hgains.fresh u hu with hu | ⟨path, parent, hresolve⟩
  · exact hmemory u hu
  · exact Resolver.inMemory_of_resolve hresolve

end Memory

/-- **A compilation after an ordering** creates no unit and leaves the order as it is, and
every include that it finds in a unit of the order leads to a unit of the order. -/
theorem compile_keeps_order {texts : List (String × String)} {cfg : Settings}
    {selector : RootSelector} {pipeline : Pipeline} {tree tree' : FileTree} {p q : Program}
    {log : List LogLine} (hresolver : cfg.resolver = .memory texts)
    (hw : p.WellFormed) (hmemory : ∀ u ∈ p.all, u.resource.inMemory = true)
    (hpipeline : ∀ slot ∈ pipeline, slot.phase ∈ Pipeline.standard.map Slot.phase)
    (h : p.orderUnits cfg.resolver tree selector = (.ok (), q, log)) :
    q.units.SameSources (compile cfg q tree' pipeline).2.units ∧
      ∀ id ∈ q.order, ∀ u, q.get? id = some u →
        ∀ n ∈ u.source cfg.switches tree', ∀ path r, n.statement = .includes path →
          cfg.resolver.resolve tree' path (some u.resource) = .ok r →
          ∃ b ∈ q.order, q.find? tree' r = some b := by
  have hclosed : ∀ tree, q.units.Closed cfg.resolver tree := by
    rw [hresolver] at h ⊢
    exact (orderUnits_closed hw h).inMemory (orderUnits_inMemory hw hmemory h)
  refine ⟨?_, fun id hid u hu n hn path r hs hresolve => ?_⟩
  · have hsettled : ∀ slot ∈ pipeline, slot.phase.Settled cfg q.units :=
      fun slot hslot => settled_of_standard hclosed (hpipeline slot hslot)
    exact runPipeline_sameSources hsettled q.sameSources_reset
  · exact (hclosed tree').found hid hu hn hs hresolve

/-- A program that includes its library through a macro, which includes another one. -/
def nestedCall : Program :=
  .ofResources [.text "main" ".macro use\n.include \"lib\"\n.endm\nuse\ncall f\n"]

/-- Settings under which the includes of `nestedCall` are found. -/
def nestedSettings : Settings where
  switches := ⟨[.relaxedParsing]⟩
  resolver := .memory [("lib", ".include \"base\"\nf: ret\n"), ("base", "g: ret\n")]

/-- The three units of `nestedCall` are there before it is compiled, and stay in order. -/
theorem compile_keeps_order_nested :
    ∃ q log, nestedCall.orderUnits nestedSettings.resolver {} .byStart = (.ok (), q, log) ∧
      nestedCall.sources.length = 1 ∧ q.order = [2, 1, 0] ∧
      q.units.SameSources (compile nestedSettings q {}).2.units ∧
      ∀ id ∈ q.order, ∀ u, q.get? id = some u →
        ∀ n ∈ u.source nestedSettings.switches {}, ∀ path r, n.statement = .includes path →
          nestedSettings.resolver.resolve {} path (some u.resource) = .ok r →
          ∃ b ∈ q.order, q.find? {} r = some b := by
  have hordered : nestedCall.orderUnits nestedSettings.resolver {} .byStart = (.ok (), _, _) :=
    Prod.ext (by decide +kernel) rfl
  refine ⟨_, _, hordered, by decide +kernel, by decide +kernel, ?_⟩
  exact compile_keeps_order rfl (Program.wellFormed_ofResources _) (by decide +kernel)
    (fun slot hslot => mem_map_of_mem hslot) hordered

end WordAsm
