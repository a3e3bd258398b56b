/-
# Units that follow one another

A unit without an origin starts where the unit ahead of it in the order ended. Two things
stand against saying so of every order and every address. A start is a word, so behind a unit
that fills the memory to its end the start on record is the last address. And an order may
list a unit twice: it is then laid out twice, each time from the end of the unit ahead of its
first place, and it may end elsewhere the second time, when more labels have addresses.

So the pass keeps what it knows of two units only as long as the one ahead is not laid out
again (`Program.ChainedUpTo`); in an order without repetitions that never happens.
-/
import WordAsm.Proofs.Displacement
import WordAsm.Proofs.InlinedOperands

namespace WordAsm

open List

/-! ### The end of the unit ahead -/

theorem previousEnd_eq {us : Units} {v : UnitId}
    (h : ∀ w ∈ us.order.takeWhile (· ≠ v), ((us.get? w).bind SourceUnit.stop).isSome) :
    match (us.order.takeWhile (· ≠ v)).getLast? with
    | none => previousEnd us v = 0
    | some w => (us.get? w).bind SourceUnit.stop = some (previousEnd us v) := by
  unfold previousEnd
  generalize us.order.takeWhile (· ≠ v) = ahead at h ⊢
  cases hlast : ahead.getLast? with
  | none =>
    rw [getLast?_eq_none_iff.mp hlast]
    rfl
  | some w =>
    obtain ⟨further, rfl⟩ := getLast?_eq_some_iff.mp hlast
    obtain ⟨stop, hstop⟩ := Option.isSome_iff_exists.mp
      (h w (mem_append_right _ (mem_singleton_self w)))
    simp [hstop]

/-! ### Layouts without origins -/

def SourceUnit.Unmoved (switches : Switches) (tree : FileTree) (u : SourceUnit) : Prop :=
  ∀ n ∈ u.source switches tree, n.statement.isOrigin = false

instance (switches : Switches) (tree : FileTree) :
    DecidablePred (SourceUnit.Unmoved switches tree) :=
  fun u => inferInstanceAs (Decidable (∀ n ∈ u.source switches tree, n.statement.isOrigin = false))

section Lays

variable {unit : UnitId} {inlining : Bool} {l l' : Layout} {nodes nodes' : SyntaxTree}

theorem Lays.start_eq (h : Lays unit inlining l nodes nodes' l')
    (hnodes : ∀ n ∈ nodes, n.statement.isOrigin = false) : l'.start = l.start := by
  induction h with
  | nil => rfl
  | @cons l l₁ l₂ node node' nodes nodes' step _ ih =>
    have hnode := hnodes node mem_cons_self
    rw [ih fun n hn => hnodes n (mem_cons_of_mem _ hn)]
    cases step with
    | opens hs =>
      rw [hs] at hnode
      cases hnode
    | jumps | passes | places => rfl

theorem Lays.address_le (h : Lays unit inlining l nodes nodes' l')
    (hl : l.address ≤ memoryEnd) : l'.address ≤ memoryEnd := by
  induction h with
  | nil => exact hl
  | cons step _ ih =>
    refine ih ?_
    cases step with
    | @opens _ v | @jumps _ v => show v.toInt.toNat ≤ memoryEnd; omega
    | passes => exact hl
    | places _ _ _ _ hfit => exact hfit

end Lays

theorem SourceUnit.Sourced.unmoved {switches : Switches} {tree : FileTree} {u : SourceUnit}
    {nodes : SyntaxTree} (h : u.Sourced switches tree) (htree : u.tree = some nodes)
    (hu : u.Unmoved switches tree) : ∀ n ∈ nodes, n.statement.isOrigin = false := by
  obtain ⟨nodes', htree', hnodes⟩ := h
  obtain rfl : nodes = nodes' := Option.mem_unique htree htree'
  intro n hn
  obtain ⟨m, hm, heq⟩ := forall₂_mem_right hnodes hn
  exact heq ▸ hu m hm

/-! ### The pass -/

/-- The unit `v` starts where the unit ahead of its first place in the order ended, unless that
one has had another of the `turns` since the last one of `v`. -/
def Units.Follows (us : Units) (turns : List UnitId) (v : UnitId) (start : Address) : Prop :=
  match (us.order.takeWhile (· ≠ v)).getLast? with
  | none => start = 0
  | some w => (∀ before after, turns = before ++ w :: after → v ∈ after) →
    ∃ x stop, us.get? w = some x ∧ x.stop = some stop ∧ start = startAddress stop

/-- The units of a layout that has come to position `k` without errors. -/
structure Program.ChainedUpTo (cfg : Settings) (tree : FileTree) (k : ℕ) (p : Program) :
    Prop where
  wellFormed : p.WellFormed
  sourced : ∀ id ∈ p.order, ∀ u, p.get? id = some u → u.Sourced cfg.switches tree
  stops : p.Each fun u => ∀ s, u.stop = some s → s ≤ memoryEnd
  laid : ∀ id ∈ p.order.take k, ∀ u, p.get? id = some u → u.stop.isSome
  follows : ∀ v ∈ p.order.take k, ∀ u, p.get? v = some u →
    u.Unmoved cfg.switches tree → p.units.Follows (p.order.take k) v u.start

theorem mem_take_of_mem_takeWhile {l : List UnitId} {k : ℕ} {a b : UnitId} (hk : l[k]? = some a)
    (hb : b ∈ l.takeWhile (· ≠ a)) : b ∈ l.take k := by
  induction l generalizing k with
  | nil => cases hk
  | cons x l ih =>
    cases k with
    | zero =>
      cases hk
      simp at hb
    | succ k =>
      by_cases hx : x = a
      · simp [hx] at hb
      · rw [takeWhile_cons_of_pos (by simpa using hx)] at hb
        rcases mem_cons.mp hb with rfl | hb
        · exact mem_cons_self
        · exact mem_cons_of_mem _ (ih hk hb)

section Pass

variable {cfg : Settings} {tree : FileTree} {k : ℕ} {p : Program} {u : SourceUnit}
  {nodes : SyntaxTree}

theorem Program.ChainedUpTo.follows_self (h : p.ChainedUpTo cfg tree k)
    (hk : p.order[k]? = some u.id) (turns : List UnitId) :
    (p.laid cfg u nodes).units.Follows turns u.id
      (startAddress (previousEnd p.units u.id)) := by
  have hahead : ∀ w ∈ p.order.takeWhile (· ≠ u.id),
      ((p.get? w).bind SourceUnit.stop).isSome := by
    intro w hw
    have htake := mem_take_of_mem_takeWhile hk hw
    obtain ⟨x, hx, -⟩ := h.wellFormed.exists_get? (mem_of_mem_take htake)
    rw [hx]
    exact h.laid w htake x hx
  have hend := previousEnd_eq hahead
  show match (p.order.takeWhile (· ≠ u.id)).getLast? with
    | none => _
    | some w => _
  cases hlast : (p.order.takeWhile (· ≠ u.id)).getLast? with
  | none =>
    rw [hlast] at hend
    rw [show previousEnd p.units u.id = 0 from hend]
    rfl
  | some w =>
    rw [hlast] at hend
    obtain ⟨x, hx, hstop⟩ := Option.bind_eq_some_iff.mp hend
    have hne : w ≠ u.id := by
      simpa using mem_takeWhile_imp (mem_of_getLast? hlast)
    intro _
    refine ⟨x, _, ?_, hstop, rfl⟩
    rw [get?_laid, if_neg hne.symm]
    exact hx

theorem Program.ChainedUpTo.follows_other (h : p.ChainedUpTo cfg tree k)
    (hk : p.order[k]? = some u.id) {v : UnitId} (hv : v ∈ p.order.take k)
    (hne : v ≠ u.id) {x : SourceUnit} (hx : p.get? v = some x)
    (hmoved : x.Unmoved cfg.switches tree) :
    (p.laid cfg u nodes).units.Follows (p.order.take (k + 1)) v x.start := by
  have hfollows := h.follows v hv x hx hmoved
  have htake := (take_succ_of_grown (prefix_refl p.order) hk).2
  show match (p.order.takeWhile (· ≠ v)).getLast? with
    | none => _
    | some w => _
  unfold Units.Follows at hfollows
  cases hlast : (p.order.takeWhile (· ≠ v)).getLast? with
  | none =>
    rw [hlast] at hfollows
    exact hfollows
  | some w =>
    rw [hlast] at hfollows
    intro hturns
    rw [htake] at hturns
    -- the unit ahead would have had the last turn
    have hwu : u.id ≠ w := by
      rintro rfl
      exact absurd (hturns _ [] rfl) not_mem_nil
    obtain ⟨y, stop, hy, hstop, hstart⟩ := hfollows fun before after hsplit => by
      have hmem := hturns before (after ++ [u.id]) (by rw [hsplit]; simp)
      exact (mem_append.mp hmem).resolve_right fun hin => hne (mem_singleton.mp hin)
    refine ⟨y, stop, ?_, hstop, hstart⟩
    rw [get?_laid, if_neg hwu]
    exact hy

/-- **The layout of one more unit.** -/
theorem Program.ChainedUpTo.visit (h : p.ChainedUpTo cfg tree k) (ht : p.At k u nodes)
    (he : (p.laid cfg u nodes).hasErrors = false) :
    (p.laid cfg u nodes).ChainedUpTo cfg tree (k + 1) := by
  obtain ⟨hk, hu, htree⟩ := ht
  have hmem : u.id ∈ p.order := mem_of_getElem? hk
  have hlays := lays_of_visit hu he
  have hsourced := h.sourced u.id hmem u hu
  have hresource : (u.withLayout (layoutOf cfg u nodes p)).resource = u.resource :=
    (u.grows_withLayout _).resource
  refine ⟨((layoutPhase_treewise cfg).grows u nodes p).wellFormed h.wellFormed, ?_, ?_, ?_, ?_⟩
  · intro i hi w hw
    rcases get?_laid_cases hu hw with ⟨rfl, rfl⟩ | ⟨-, hw⟩
    · exact hsourced.withLayout htree hlays
    · exact h.sourced i hi w hw
  · intro i w hw s hs
    rcases get?_laid_cases hu hw with ⟨rfl, rfl⟩ | ⟨-, hw⟩
    · obtain rfl : _ = s := Option.some.inj hs
      exact hlays.address_le (previousEnd_le h.stops u.id)
    · exact h.stops i w hw s hs
  · intro i hi w hw
    rcases get?_laid_cases hu hw with ⟨rfl, rfl⟩ | ⟨hne, hw⟩
    · rfl
    · exact h.laid i (mem_take_of_mem_take_succ hk hi hne) w hw
  · intro v hv w hw hmoved
    rcases get?_laid_cases hu hw with ⟨rfl, rfl⟩ | ⟨hne, hw⟩
    · have hstart := hlays.start_eq (hsourced.unmoved htree fun n hn =>
        hmoved n (by rw [SourceUnit.source_congr hresource]; exact hn))
      show Units.Follows _ _ _ (startAddress (layoutOf cfg u nodes p).2.start)
      rw [hstart]
      exact h.follows_self hk _
    · exact h.follows_other hk (mem_take_of_mem_take_succ hk hv hne) hne hw hmoved

end Pass

/-! ### Behind the layout, for any output -/

section Compilation

variable {cfg : Settings} {p : Program} {tree : FileTree}

/-- **Units stay where the layout has put them.** -/
theorem settled_of_compile (hw : p.WellFormed)
    (h : (compile cfg p tree).1 = true) :
    (stage cfg p tree 3).2.Settled (compile cfg p tree).2.program := by
  have harrival := arrival_of_stage hw (stage_of_compile h).1
  have hlaid := (harrival.layout.grows (layoutPhase_treewise cfg).quiet.toSteady).wellFormed
    harrival.wellFormed
  exact (settled_of_folding harrival.folding hlaid).trans (sameTrees_of_compile h).settled

theorem chained_of_compile (hw : p.WellFormed)
    (h : (compile cfg p tree).1 = true) :
    ∃ n, (stage cfg p tree 3).2.units.order.length ≤ n ∧
      (stage cfg p tree 3).2.ChainedUpTo cfg tree n := by
  have harrival := arrival_of_stage hw (stage_of_compile h).1
  refine ((layoutPhase_treewise cfg).induct
    (I := fun k p => p.ChainedUpTo cfg tree k) harrival.layout harrival.wellFormed ?_
    fun _ _ _ _ ht hc hI => hI.visit ht hc).2
  rw [harrival.kept]
  obtain ⟨n, hn, hdeclared⟩ := declared_of_parse harrival.parse (blank_reset hw)
  refine ⟨hdeclared.wellFormed, fun id hid u hu => ?_, fun i u hu s hs => ?_, by simp, by simp⟩
  · exact (hdeclared.declared id ((take_of_length_le hn).symm ▸ hid) u hu).sourced
  · have hnone := unplaced_of_parse harrival.parse (blank_reset hw).wellFormed
      (blank_reset hw).unplaced i u hu
    rw [hnone] at hs
    cases hs

/-- **A unit without an origin starts where the unit ahead of it ended.** After a compilation
that succeeds, take a unit at its first place in the order. If it has no origin, it starts at 0
if it is the first one; else it starts where the unit right ahead of it ended, or at the last
address if that is the end of memory, unless the unit ahead has another turn behind the last one
of the unit itself. -/
theorem units_start_where_units_end (hw : p.WellFormed)
    (h : (compile cfg p tree).1 = true) {ahead behind : List UnitId} {v : UnitId}
    (horder : (compile cfg p tree).2.units.order = ahead ++ v :: behind)
    (hfirst : v ∉ ahead) :
    let units := (compile cfg p tree).2.units
    ∃ u, units.get? v = some u ∧ (u.Unmoved cfg.switches tree → (ahead = [] → u.start = 0) ∧
      ∀ w, ahead.getLast? = some w →
        (∀ before after, units.order = before ++ w :: after → v ∈ after) →
        ∃ x stop, units.get? w = some x ∧ x.stop = some stop ∧ stop ≤ 0x10000 ∧
          u.start.toNat = min stop 0xFFFF) := by
  intro units
  have hsettled := settled_of_compile hw h
  obtain ⟨n, hn, hchained⟩ := chained_of_compile hw h
  set q := (stage cfg p tree 3).2.program
  have hsame : q.order = ahead ++ v :: behind := hsettled.order.symm.trans horder
  have hv : v ∈ q.order := hsame ▸ mem_append_right _ mem_cons_self
  obtain ⟨u₀, hu₀, -⟩ := hchained.wellFormed.exists_get? hv
  obtain ⟨u, hu, huu⟩ := rel_some (hsettled.units v) hu₀
  refine ⟨u, hu, fun hmoved => ?_⟩
  have hfollows := hchained.follows v ((take_of_length_le hn).symm ▸ hv) u₀ hu₀ fun m hm =>
    hmoved m (by rw [SourceUnit.source_congr huu.resource]; exact hm)
  have hahead : q.order.takeWhile (· ≠ v) = ahead := by
    rw [hsame, takeWhile_append_of_pos fun w hw => by
      simpa using fun he : w = v => hfirst (he ▸ hw)]
    simp
  unfold Units.Follows at hfollows
  rw [hahead, take_of_length_le hn, ← huu.start] at hfollows
  constructor
  · rintro rfl
    exact hfollows
  · intro w hw hturns
    rw [hw] at hfollows
    obtain ⟨x₀, stop, hx₀, hstop, hstart⟩ := hfollows (hsettled.order ▸ hturns)
    obtain ⟨x, hx, hxx⟩ := rel_some (hsettled.units w) hx₀
    refine ⟨x, stop, hx, hxx.stop.trans hstop, hchained.stops w x₀ hx₀ stop hstop, ?_⟩
    rw [hstart, toNat_startAddress]

end Compilation

/-! ### Full memory, and units that are laid out twice -/

/-- A unit that reaches to the end of memory, and one with nothing to place. -/
def filledMemory : Program :=
  .ofResources [.text "main" ".org 0xFFFE\nnop\nnop\n", .text "names" ".equ size, 5\n"]

/-- A unit that is listed twice. The second time it knows the address of the label, which then
goes into the instruction word. -/
def laidTwice : Program :=
  { units :=
    { (Program.ofResources [.text "main" ".org 0\nmov a0, f\n", .text "lib" "f: ret\n"]).units with
      order := [0, 1, 0] } }

/-- Behind full memory, a unit starts at the last address. -/
theorem units_start_where_units_end_filled :
    (compile {} filledMemory {}).1 = true ∧
    (compile {} filledMemory {}).2.units.order = [0] ++ 1 :: [] ∧
    ∃ u x stop, (compile {} filledMemory {}).2.units.get? 1 = some u ∧
      u.Unmoved {} {} ∧
      (compile {} filledMemory {}).2.units.get? 0 = some x ∧
      x.stop = some stop ∧ stop ≤ 0x10000 ∧ u.start.toNat = min stop 0xFFFF := by
  have hok : (compile {} filledMemory {}).1 = true := by decide +kernel
  have horder : (compile {} filledMemory {}).2.units.order = [0] ++ 1 :: [] := by
    decide +kernel
  have hmoved : ((compile {} filledMemory {}).2.units.get? 1).all
      (fun u => decide (u.Unmoved {} {})) = true := by
    decide +kernel
  obtain ⟨u, hu, hstart⟩ := units_start_where_units_end (p := filledMemory)
    (Program.wellFormed_ofResources _) hok horder (by decide)
  rw [hu, Option.all_some, decide_eq_true_eq] at hmoved
  obtain ⟨x, stop, hx⟩ := (hstart hmoved).2 0 rfl fun before after hsplit => by
    rw [horder] at hsplit
    match before, hsplit with
    | [], hsplit => exact (List.cons.inj hsplit).2 ▸ mem_singleton_self 1
    | [_], hsplit => simp at hsplit
    | _ :: _ :: _, hsplit => simp at hsplit
  exact ⟨hok, horder, u, x, stop, hu, hmoved, hx⟩

/-- **A unit may start elsewhere than the unit ahead of it ended**: at the last address if that
is the end of memory, and where the unit ahead ended the first time if that one is laid out
again later. -/
theorem start_may_differ_from_end :
    (∃ u x, (compile {} filledMemory {}).1 = true ∧
      (compile {} filledMemory {}).2.units.order = [0, 1] ∧
      (compile {} filledMemory {}).2.units.get? 0 = some x ∧
      (compile {} filledMemory {}).2.units.get? 1 = some u ∧
      x.stop = some 0x10000 ∧ u.Unmoved {} {} ∧ u.start = 0xFFFF) ∧
    ∃ u x, (compile {} laidTwice {}).1 = true ∧
      (compile {} laidTwice {}).2.units.order = [0, 1, 0] ∧
      (compile {} laidTwice {}).2.units.get? 0 = some x ∧
      (compile {} laidTwice {}).2.units.get? 1 = some u ∧
      x.stop = some 1 ∧ u.Unmoved {} {} ∧ u.start = 2 := by
  have hfilled : ((compile {} filledMemory {}).2.units.get? 0).map
        SourceUnit.stop = some (some 0x10000) ∧
      ((compile {} filledMemory {}).2.units.get? 1).map
        (fun u => (decide (u.Unmoved {} {}), u.start)) = some (true, 0xFFFF) := by
    decide +kernel
  have htwice : ((compile {} laidTwice {}).2.units.get? 0).map
        SourceUnit.stop = some (some 1) ∧
      ((compile {} laidTwice {}).2.units.get? 1).map
        (fun u => (decide (u.Unmoved {} {}), u.start)) = some (true, 2) := by
    decide +kernel
  simp only [Option.map_eq_some_iff, Prod.mk.injEq, decide_eq_true_eq] at hfilled htwice
  obtain ⟨⟨x, hx, hstop⟩, u, hu, hmoved, hstart⟩ := hfilled
  obtain ⟨⟨x', hx', hstop'⟩, u', hu', hmoved', hstart'⟩ := htwice
  refine ⟨⟨u, x, ?_, ?_, hx, hu, hstop, hmoved, hstart⟩,
    u', x', ?_, ?_, hx', hu', hstop', hmoved', hstart'⟩
  · decide +kernel
  · decide +kernel
  · decide +kernel
  · decide +kernel

end WordAsm
