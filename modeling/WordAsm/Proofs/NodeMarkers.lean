/-
# Markers that point at nodes

A marker may point at a node of the syntax tree. Only the validation makes such markers:
those of the parser, of declarations, of the search for circular equations, of names and
of the layout name a place in the source at most, and those of a breakdown not even that.
So what holds of all markers without a node outlasts every phase but the validation
(`runUnit_markers`).
-/
import WordAsm.Proofs.Checkpoints

namespace WordAsm

open List

variable {cfg : Settings} {b : Build}

def Program.Markers (Q : Marker → Prop) (p : Program) : Prop :=
  p.Each fun u => ∀ m ∈ u.markers, Q m

theorem mem_markers_markAll {u : SourceUnit} {ms : List Marker} {m : Marker}
    (h : m ∈ (u.markAll ms).markers) : m ∈ u.markers ∨ ∃ m' ∈ ms, ∃ id, m = { m' with id } := by
  induction ms generalizing u with
  | nil => exact .inl h
  | cons m' ms ih =>
    rcases ih h with hm | ⟨m'', hm'', id, heq⟩
    · rcases mem_append.mp hm with hm | hm
      · exact .inl hm
      · exact .inr ⟨m', mem_cons_self, u.nextMarker, mem_singleton.mp hm⟩
    · exact .inr ⟨m'', mem_cons_of_mem _ hm'', id, heq⟩

section Markers

variable {ms : List Marker} {u : SourceUnit} {Q : Marker → Prop} {p : Program}

theorem Program.Markers.mark (h : p.Markers Q) (i : UnitId)
    (hms : ∀ m ∈ ms, ∀ id, Q { m with id }) : (p.mark i ms).Markers Q := by
  refine Program.Each.modifyUnit h i fun u _ hu m hm => ?_
  rcases mem_markers_markAll hm with hm | ⟨m', hm', id, rfl⟩
  · exact hu m hm
  · exact hms m' hm' id

theorem Program.Markers.withSymbols (h : p.Markers Q) (symbols : Table) :
    ({ p with symbols } : Program).Markers Q := h

theorem Program.Markers.including (h : p.Markers Q) (tree : FileTree) (i : UnitId)
    (resource : Resource) : (p.including tree i resource).Markers Q := by
  have hadd : ({ p with units := (p.findOrAdd tree resource).2 } : Program).Markers Q := by
    intro k u hu m hm
    cases hk : p.get? k with
    | some v =>
      obtain rfl : v = u := Option.some.inj ((get?_findOrAdd hk).symm.trans hu)
      exact h k v hk m hm
    | none =>
      rw [fresh_findOrAdd hk hu] at hm
      cases hm
  exact Program.Each.modifyUnit hadd i fun _ _ hv => hv

variable (hQ : ∀ m : Marker, m.node = none → Q m)

include hQ

theorem Program.Markers.mark_untied (h : p.Markers Q) (i : UnitId) (hms : ∀ m ∈ ms, m.node = none) :
    (p.mark i ms).Markers Q :=
  h.mark i fun m hm _ => hQ _ (hms m hm)

/-! ### Declarations -/

theorem parseUnit_markers (h : b.Markers Q) (u : SourceUnit) :
    (parseUnit cfg u b).2.Markers Q :=
  parseUnit_keeps (I := Program.Markers Q)
    (fun _ _ hms hp => hp.mark_untied hQ _ fun m hm => (hms m hm).2) (fun _ _ _ _ _ _ _ hp => hp)
    (fun _ _ _ _ _ _ _ hp => hp.including _ _ _)
    (fun _ _ hp => Program.Each.modifyUnit hp _ fun _ _ hv => hv) h

omit hQ

/-! ### References -/

namespace CycleSearch

def Untied (s : CycleSearch) : Prop := ∀ m ∈ s.markers, m.2.node = none

theorem Untied.poisonMember {s : CycleSearch} (h : s.Untied) (names : List String)
    (member : SymbolId × ℕ) : (poisonMember names s member).Untied := by
  unfold CycleSearch.poisonMember
  simp only
  split
  · exact h
  · split
    · exact h
    · intro m hm
      rcases mem_append.mp hm with hm | hm
      · exact h m hm
      · rw [mem_singleton.mp hm]
        rfl

theorem checkUnit_untied (t : Table) (poisoned : List SymbolId) (unit : UnitId) :
    (checkUnit t poisoned unit).Untied :=
  checkUnit_keeps (fun _ _ hs => hs) (fun names _ member hs => hs.poisonMember names member) unit
    (by simp [Untied])

end CycleSearch

include hQ

theorem referencePhase_markers (h : b.Markers Q) (u : SourceUnit) :
    (referencePhase.run cfg u b).2.Markers Q := by
  refine referencePhase_keeps (I := Program.Markers Q) (fun m hm _ hq => hq.mark_untied hQ _
    (forall_mem_singleton.mpr (CycleSearch.checkUnit_untied _ _ _ m hm)))
    (fun q nodes hq => hq.mark_untied hQ _ fun m hm => ?_) h
  obtain ⟨node, -, hm⟩ := mem_flatMap.mp hm
  obtain ⟨name, -, hm⟩ := mem_filterMap.mp hm
  obtain ⟨problem, -, rfl⟩ := Option.map_eq_some_iff.mp hm
  rfl

/-! ### Layout, folding and emission -/

theorem Program.Markers.laid (h : p.Markers Q) (u : SourceUnit) (nodes : SyntaxTree) :
    (p.laid cfg u nodes).Markers Q := by
  have huntied : ∀ m ∈ (layoutOf cfg u nodes p).2.markers, m.node = none := by
    refine layNodes_keeps (I := fun l => ∀ m ∈ l.markers, m.node = none)
      (fun l node message hl m hm => ?_) (fun _ _ _ hl => hl) (fun _ _ _ _ _ hl => hl) (by simp)
      nodes
    rcases mem_append.mp hm with hm | hm
    · exact hl m hm
    · rw [mem_singleton.mp hm]
      rfl
  refine Program.Each.modifyUnit (h.withSymbols _) u.id fun v _ hv m hm => ?_
  rcases mem_markers_markAll hm with hm | ⟨m', hm', id, rfl⟩
  · exact hv m hm
  · exact hQ _ (huntied m' hm')

theorem runUnit_markers {phase : Phase} (h : (phase.run cfg u b).2.Markers Q) :
    (runUnit cfg phase u b).Markers Q :=
  runUnit_keeps (fun _ _ _ hp => hp.mark_untied hQ _ (by simp [Marker.generic])) h

/-- **The phases ahead of the validation** make no markers that point at nodes. -/
theorem preparation_markers {slot : Slot} (hslot : slot ∈ Pipeline.standard.take 4)
    (h : b.Markers Q) : (runUnit cfg slot.phase u b).Markers Q := by
  refine runUnit_markers hQ ?_
  simp only [Pipeline.standard, take_succ_cons, take_zero, mem_cons, not_mem_nil, or_false] at hslot
  rcases hslot with rfl | rfl | rfl | rfl
  · exact parseUnit_markers hQ h u
  · exact referencePhase_markers hQ h u
  · exact (layoutPhase_treewise cfg).keeps h fun nodes _ => h.laid hQ u nodes
  · exact (foldingPhase_treewise cfg).keeps h fun _ _ =>
      Program.Each.modifyUnit h _ fun _ _ hv => hv

omit hQ

end Markers

end WordAsm
