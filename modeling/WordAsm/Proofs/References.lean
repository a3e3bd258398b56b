/-
# The check of references

The search for circular equations changes an equation only together with an
error in the unit that defines it (`CycleSearch.Reports`). So a program that
comes out of this phase without errors comes out unchanged
(`referencePhase_silent`), and since the units that are marked are those of
symbols, the phase never breaks down (`referencePhase_ok`).
-/
import WordAsm.Proofs.Parsing

namespace WordAsm

open List

variable {p : Program} {ms : List (UnitId × Marker)}

theorem Table.All.modify {Q : Symbol → Prop} {t : Table} (h : t.All Q) (id : SymbolId)
    {f : SymbolKind → SymbolKind} (hf : ∀ x, Q x → Q (x.mapKind f)) : (t.modify id f).All Q := by
  intro s hs x hx
  obtain ⟨r, hr, rfl⟩ := mem_map.mp hs
  obtain ⟨i, hi, rfl⟩ := mem_mapIdx.mp hx
  have hy := h r hr _ (getElem_mem hi)
  by_cases hid : r.handle i = id
  · simpa only [if_pos hid] using hf _ hy
  · simpa [hid] using hy

namespace CycleSearch

variable {s : CycleSearch} {I : CycleSearch → Prop}

/-- A search of the table `t` that has changed it only where it reports an error,
to units that have symbols. -/
structure Reports (t : Table) (s : CycleSearch) : Prop where
  table : s.markers = [] → s.table = t
  errors : ∀ m ∈ s.markers, m.2.isError = true ∧ m.2.kind ≠ .genericError
  owners : ∀ Q : UnitId → Prop, t.All (fun x => Q x.unit) →
    s.table.All (fun x => Q x.unit) ∧ ∀ m ∈ s.markers, Q m.1

variable {t : Table}

theorem Reports.poisonMember (h : s.Reports t) (names : List String) (member : SymbolId × ℕ) :
    (poisonMember names s member).Reports t := by
  unfold CycleSearch.poisonMember
  simp only
  split
  · exact h
  · split
    · exact ⟨h.table, h.errors, h.owners⟩
    · rename_i symbol hsymbol
      refine ⟨fun hnil => absurd hnil (by simp), fun m hm => ?_, fun Q hQ => ?_⟩
      · rcases mem_append.mp hm with hm | hm
        · exact h.errors m hm
        · rw [mem_singleton.mp hm]
          exact ⟨rfl, fun hk => by cases hk⟩
      · obtain ⟨hall, howners⟩ := h.owners Q hQ
        refine ⟨hall.modify _ fun x hx => hx, fun m hm => ?_⟩
        rcases mem_append.mp hm with hm | hm
        · exact howners m hm
        · rw [mem_singleton.mp hm]
          exact hall.symbol? hsymbol

/-- **What a search keeps**: whatever does not depend on the equations it is finished with, and
holds still when one more is poisoned. The induction is on the number of equations that are
not on the path. -/
theorem visit_keeps (hdone : ∀ s done, I s → I { s with done })
    (hpoison : ∀ names s member, I s → I (CycleSearch.poisonMember names s member))
    {remaining path : List SymbolId} {id : SymbolId} (h : I s) : I (s.visit remaining path id) := by
  induction hn : remaining.length using Nat.strongRecOn generalizing remaining path id s with
  | _ n ih =>
    rw [CycleSearch.visit]
    split
    · exact h
    · split
      · exact List.foldlRecOn _ _ h fun s hs member _ => hpoison _ s member hs
      · split
        · exact h
        · split
          · rename_i hmem
            refine hdone _ _ (List.foldlRecOn _ _ h fun s hs next _ => ?_)
            split
            · exact hs
            · exact ih _ (hn ▸ length_without_lt hmem) hs rfl
          · exact h

theorem checkUnit_keeps (hdone : ∀ s done, I s → I { s with done })
    (hpoison : ∀ names s member, I s → I (CycleSearch.poisonMember names s member))
    {poisoned : List SymbolId} (unit : UnitId) (h : I { table := t, poisoned }) :
    I (checkUnit t poisoned unit) :=
  List.foldlRecOn _ _ h fun _ hs _ _ => visit_keeps hdone hpoison hs

theorem reports_checkUnit (t : Table) (poisoned : List SymbolId) (unit : UnitId) :
    (checkUnit t poisoned unit).Reports t :=
  checkUnit_keeps (fun _ _ hs => ⟨hs.table, hs.errors, hs.owners⟩)
    (fun names _ member hs => hs.poisonMember names member) unit
    ⟨fun _ => rfl, by simp, fun _ hQ => ⟨hQ, by simp⟩⟩

end CycleSearch

/-! ### Marking the owners -/

theorem markOwners_keeps {I : Program → Prop} (hmark : ∀ m ∈ ms, ∀ q, I q → I (q.mark m.1 [m.2]))
    (h : I p) : I (markOwners p ms).2 := by
  induction ms generalizing p with
  | nil => exact h
  | cons m ms ih =>
    unfold markOwners
    split
    · exact h
    · exact ih (fun m' hm' => hmark m' (mem_cons_of_mem _ hm')) (hmark m mem_cons_self p h)

theorem grows_markOwners (p : Program) (ms : List (UnitId × Marker)) :
    p.Grows (markOwners p ms).2 :=
  markOwners_keeps (I := p.Grows) (fun _ _ _ hq => hq.trans (Program.grows_mark ..)) (.refl p)

theorem Units.get_of_isSome {us : Units} {id : UnitId} (h : (us.get? id).isSome) :
    ∃ u, us.get id = .ok u := by
  obtain ⟨u, hu⟩ := Option.isSome_iff_exists.mp h
  exact ⟨u, by simp only [Units.get, hu]⟩

theorem Units.get_eq_ok {us : Units} {id : UnitId} {u : SourceUnit} (h : us.get id = .ok u) :
    us.get? id = some u := by
  unfold Units.get at h
  split at h
  · cases h
    assumption
  · cases h

theorem markOwners_ok (h : ∀ m ∈ ms, (p.get? m.1).isSome) : (markOwners p ms).1 = .ok () := by
  induction ms generalizing p with
  | nil => rfl
  | cons m ms ih =>
    obtain ⟨u, hu⟩ := Units.get_of_isSome (h m mem_cons_self)
    unfold markOwners
    rw [hu]
    exact ih fun m' hm' =>
      (Program.grows_mark p m.1 [m.2]).known (h m' (mem_cons_of_mem _ hm'))

theorem markOwners_hasErrors (hne : ms ≠ []) (h : ∀ m ∈ ms, m.2.isError = true)
    (hok : (markOwners p ms).1 = .ok ()) : (markOwners p ms).2.hasErrors = true := by
  cases ms with
  | nil => exact absurd rfl hne
  | cons m ms =>
    unfold markOwners at hok ⊢
    split at hok
    · cases hok
    · rename_i u hu
      have hm := Program.hasErrors_mark (Units.get_eq_ok hu) (h m mem_cons_self)
      rw [← Bool.not_eq_false] at hm ⊢
      exact fun hq => hm ((grows_markOwners (p.mark m.1 [m.2]) ms).noErrors hq)

/-! ### The phase -/

section Phase

variable {b : Build} {cfg : Settings} {u : SourceUnit}

theorem mark_nil (p : Program) (i : UnitId) : p.mark i [] = p := by
  have hid : (fun u : SourceUnit => u.markAll []) = id := rfl
  unfold Program.mark Program.modifyUnit Units.modify
  rw [hid, modify_id]

theorem referencePhase_cases (cfg : Settings) (u : SourceUnit) (b : Build) :
    ((∃ e, (referencePhase.run cfg u b).1 = .error e) ∧
      (referencePhase.run cfg u b).2 = (checkCycles u.id b).2) ∨
    (checkCycles u.id b).1 = .ok () ∧ ∃ nodes, u.tree = some nodes ∧
      referencePhase.run cfg u b = (.ok (), (checkCycles u.id b).2.mark u.id
        (referenceProblems (checkCycles u.id b).2.symbols u.id nodes)) := by
  unfold referencePhase
  simp only
  rcases hcheck : checkCycles u.id b with ⟨_ | _, c⟩
  · exact .inl ⟨⟨_, rfl⟩, rfl⟩
  · cases htree : u.tree with
    | none => exact .inl (by simp only [withTree, htree]; exact ⟨⟨_, rfl⟩, trivial⟩)
    | some nodes => exact .inr ⟨rfl, nodes, rfl, by simp only [withTree, htree]⟩

/-- **What a run of the phase keeps**: what the table of the search, its markers, and those for
the names of the unit keep. -/
theorem referencePhase_keeps {I : Program → Prop}
    (howners : ∀ m ∈ (CycleSearch.checkUnit b.symbols b.poisoned u.id).markers,
      ∀ q, I q → I (q.mark m.1 [m.2]))
    (hnames : ∀ q nodes, I q → I (q.mark u.id (referenceProblems q.symbols u.id nodes)))
    (h : I { b.program with
      symbols := (CycleSearch.checkUnit b.symbols b.poisoned u.id).table }) :
    I (referencePhase.run cfg u b).2.program := by
  have hchecked : I (checkCycles u.id b).2.program := markOwners_keeps howners h
  rcases referencePhase_cases cfg u b with ⟨-, heq⟩ | ⟨-, nodes, -, heq⟩ <;> rw [heq]
  · exact hchecked
  · exact hnames _ _ hchecked

theorem referencePhase_steady (cfg : Settings) : referencePhase.Steady cfg where
  accepts _ := rfl
  grows u b := referencePhase_keeps (I := b.program.Grows)
    (fun _ _ _ hq => hq.trans (Program.grows_mark ..))
    (fun _ _ hq => hq.trans (Program.grows_mark ..)) (Program.grows_of_units_eq rfl)
  tree u b := by
    rcases referencePhase_cases cfg u b with ⟨-, heq⟩ | ⟨-, nodes, -, heq⟩ <;> rw [heq] <;> rfl

theorem mem_referenceProblems {t : Table} {unit : UnitId} {nodes : SyntaxTree} {m : Marker}
    (h : m ∈ referenceProblems t unit nodes) : m.isError = true ∧ m.kind ≠ .genericError := by
  obtain ⟨node, -, hm⟩ := mem_flatMap.mp h
  obtain ⟨name, -, hm⟩ := mem_filterMap.mp hm
  obtain ⟨problem, -, rfl⟩ := Option.map_eq_some_iff.mp hm
  exact ⟨rfl, fun hk => by cases hk⟩

/-- **A run that leaves no errors** has found nothing, and leaves the program as it was. -/
theorem referencePhase_silent {c : Build} (hu : b.get? u.id = some u)
    (hrun : referencePhase.run cfg u b = (.ok (), c)) (hc : c.hasErrors = false) :
    c.program = b.program ∧
      (CycleSearch.checkUnit b.symbols b.poisoned u.id).markers = [] ∧
      c.poisoned = (CycleSearch.checkUnit b.symbols b.poisoned u.id).poisoned ∧
      ∃ nodes, u.tree = some nodes ∧ referenceProblems b.symbols u.id nodes = [] := by
  rcases referencePhase_cases cfg u b with ⟨⟨e, he⟩, -⟩ | ⟨hok, nodes, htree, heq⟩
  · rw [hrun] at he
    cases he
  · rw [hrun] at heq
    obtain ⟨-, rfl⟩ := Prod.mk.inj heq
    have hreports := CycleSearch.reports_checkUnit b.symbols b.poisoned u.id
    have hprog : (checkCycles u.id b).2.program = (markOwners { b.program with symbols :=
        (CycleSearch.checkUnit b.symbols b.poisoned u.id).table }
        (CycleSearch.checkUnit b.symbols b.poisoned u.id).markers).2 := rfl
    have hchecked : (checkCycles u.id b).2.hasErrors = false :=
      (Program.grows_mark ..).noErrors hc
    have hnil : (CycleSearch.checkUnit b.symbols b.poisoned u.id).markers = [] := by
      by_contra hne
      have herr := markOwners_hasErrors hne (fun m hm => (hreports.errors m hm).1) hok
      rw [← hprog, hchecked] at herr
      cases herr
    have hsame : (checkCycles u.id b).2.program = b.program := by
      rw [hprog, hnil, hreports.table hnil]
      rfl
    have hproblems : referenceProblems (checkCycles u.id b).2.symbols u.id nodes = [] := by
      refine eq_nil_iff_forall_not_mem.mpr fun m hm => ?_
      have hnone := Program.noErrors_of_mark (hsame.symm ▸ hu) hc m hm
      rw [(mem_referenceProblems hm).1] at hnone
      cases hnone
    refine ⟨?_, hnil, rfl, nodes, htree, hsame ▸ hproblems⟩
    rw [Build.program_mark, hproblems, mark_nil, hsame]

def Program.Owned (p : Program) : Prop :=
  p.symbols.All fun s => (p.get? s.unit).isSome

/-- **The phase does not break down** on a unit with a tree, as long as symbols
belong to known units. -/
theorem referencePhase_ok (hp : b.Owned) (htree : u.tree.isSome) :
    (referencePhase.run cfg u b).1 = .ok () := by
  have hreports := CycleSearch.reports_checkUnit b.symbols b.poisoned u.id
  have hok : (checkCycles u.id b).1 = .ok () :=
    markOwners_ok (hreports.owners (fun i => (b.get? i).isSome) hp).2
  obtain ⟨nodes, hnodes⟩ := Option.isSome_iff_exists.mp htree
  unfold referencePhase
  simp only
  rcases hcheck : checkCycles u.id b with ⟨_ | _, c⟩
  · rw [hcheck] at hok
    cases hok
  · simp only [withTree, hnodes]

theorem Program.Owned.mono {p q : Program} (h : p.Owned) (hg : p.Grows q)
    (hs : ∀ Q : UnitId → Prop,
      p.symbols.All (fun s => Q s.unit) → q.symbols.All (fun s => Q s.unit)) : q.Owned :=
  hs (fun i => (q.get? i).isSome) fun s hs x hx => hg.known (h s hs x hx)

end Phase

end WordAsm
