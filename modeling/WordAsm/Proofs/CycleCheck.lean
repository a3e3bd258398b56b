/-
# Checking for circular equations

Units are checked one after another, in any order and any number of times, and what
one check leaves is what the next one starts from. Over a whole such run, an equation
loses its expression exactly if it gets a marker, and it gets one at most; the marker
names a circle of the table as it was at first, from that equation round to it
(`Table.Flagged`). Nothing else changes in the table (`CycleSearch.Checked`).

The search changes the graph that it walks: it clears the tail of its own path, and
then gives up on it. What it keeps is that the cleared part of the path is always its
tail (`CycleSearch.Search`), and that an equation it is finished with refers only to
equations finished before, and to cleared ones (`CycleSearch.Ordered`). So no circle
is left through anything that was visited.
-/
import WordAsm.Proofs.EquationGraph
import WordAsm.Proofs.InPlace

namespace WordAsm

open List
open Relation (TransGen)

namespace Table

def nameOf (t : Table) (id : SymbolId) : String :=
  ((t.symbol? id).map Symbol.name).getD ""

/-- The equation `id` is on a circle of the table, and `marker` says so: it is for the
unit of the equation, at its place, and lists the names round the circle. -/
def Flagged (t : Table) (id : SymbolId) (marker : UnitId × Marker) : Prop :=
  ∃ x others, t.symbol? id = some x ∧ t.Circle id others ∧
    marker = (x.unit, (Marker.error ("Circular equation: " ++ String.intercalate " <-> "
      ((id :: others ++ [id]).map t.nameOf))).located x.location)

variable {t : Table}

theorem Flagged.transGen {id : SymbolId} {marker : UnitId × Marker} (h : t.Flagged id marker) :
    TransGen t.Refers id id := by
  obtain ⟨x, others, -, hcircle, -⟩ := h
  exact transGen_of_isChain hcircle.1

theorem map_name_cleared (t : Table) (ids : List SymbolId) (id : SymbolId) :
    ((t.cleared ids).symbol? id).map Symbol.name = (t.symbol? id).map Symbol.name := by
  rw [symbol?_cleared, Option.map_map]
  refine congrArg (Option.map · _) (funext fun x => ?_)
  by_cases hid : id ∈ ids <;> simp [hid, Symbol.withoutExpr, Symbol.mapKind]

theorem Circle.exists_symbol {first : SymbolId} {rest : List SymbolId} (h : t.Circle first rest) :
    ∀ id ∈ first :: rest, ∃ x, t.symbol? id = some x := by
  intro id hid
  obtain ⟨front, back, hsplit⟩ := append_of_mem hid
  obtain ⟨hchain, -⟩ := h.rotate hsplit
  obtain ⟨next, ⟨x, -, -, hx, -⟩, -⟩ := TransGen.head'_iff.mp (transGen_of_isChain hchain)
  exact ⟨x, hx⟩

end Table

namespace CycleSearch

variable {first id : SymbolId} {rest old path remaining : List SymbolId} {t : Table}
  {s s' : CycleSearch}

/-! ### What a search has found -/

/-- The search is of the table `t` less the expressions of what is poisoned, and each
equation that it poisoned beyond `old` has its marker, in order. -/
structure Checked (t : Table) (old : List SymbolId) (s : CycleSearch) : Prop where
  table : s.table = t.cleared s.poisoned
  nodup : s.poisoned.Nodup
  flagged : ∃ new, s.poisoned = new ++ old ∧ List.Forall₂ t.Flagged new.reverse s.markers

/-- What is poisoned stays poisoned, and what is done stays done. -/
structure Grows (s s' : CycleSearch) : Prop where
  poisoned : s.poisoned ⊆ s'.poisoned
  done : s.done ⊆ s'.done

theorem Grows.rfl : s.Grows s := ⟨fun _ => id, fun _ => id⟩

theorem Grows.trans {s'' : CycleSearch} (h : s.Grows s') (h' : s'.Grows s'') : s.Grows s'' :=
  ⟨List.Subset.trans h.poisoned h'.poisoned, List.Subset.trans h.done h'.done⟩

/-- Nothing more is to be found along `id`. -/
def Settled (t : Table) (s : CycleSearch) (id : SymbolId) : Prop :=
  id ∈ s.poisoned ∨ id ∈ s.done ∨ t.references? id = none

theorem Settled.grow (h : s.Settled t id) (hgrow : s.Grows s') : s'.Settled t id :=
  h.imp (@hgrow.poisoned id) (Or.imp_left (@hgrow.done id))

/-! ### Poisoning -/

/-- Some equations get poisoned, and nothing else is done. -/
structure Poisons (t : Table) (old ids : List SymbolId) (s s' : CycleSearch) : Prop where
  checked : s'.Checked t old
  poisoned : s'.poisoned = ids.reverse ++ s.poisoned
  done : s'.done = s.done

/-- **One member** of a circle is poisoned: it was not before, and the marker names the
circle from it. -/
theorem Checked.poisonMember (h : s.Checked t old) {front back : List SymbolId}
    (hcircle : t.Circle first rest) (hsplit : first :: rest = front ++ id :: back)
    (hid : id ∉ s.poisoned) :
    Poisons t old [id] s
      (CycleSearch.poisonMember ((first :: rest).map t.nameOf) s (id, front.length)) := by
  obtain ⟨x, hx⟩ := hcircle.exists_symbol id (by rw [hsplit]; simp)
  have hsymbol : s.table.symbol? id = some x := by
    rw [h.table, t.symbol?_cleared_of_notMem hid, hx]
  have hround : (first :: rest).drop front.length ++ (first :: rest).take (front.length + 1) =
      id :: (back ++ front) ++ [id] := by
    rw [hsplit, drop_left, take_length_add_append]
    simp
  have htext : cycleText ((first :: rest).map t.nameOf) front.length =
      "Circular equation: " ++ String.intercalate " <-> "
        ((id :: (back ++ front) ++ [id]).map t.nameOf) := by
    rw [← hround, map_append, map_drop, map_take]
    rfl
  have hflag : t.Flagged id (x.unit, (Marker.error
      (cycleText ((first :: rest).map t.nameOf) front.length)).located x.location) := by
    rw [htext]
    exact ⟨x, back ++ front, hx, hcircle.rotate hsplit, rfl⟩
  obtain ⟨new, hnew, hflagged⟩ := h.flagged
  unfold CycleSearch.poisonMember
  simp only [if_neg hid, hsymbol]
  refine ⟨⟨?_, nodup_cons.mpr ⟨hid, h.nodup⟩, id :: new, ?_, ?_⟩, rfl, rfl⟩
  · rw [h.table, t.modify_cleared]
  · rw [hnew, cons_append]
  · rw [reverse_cons]
    exact rel_append hflagged (.cons hflag .nil)

/-- **A circle is poisoned**, member by member. -/
theorem Checked.poison (h : s.Checked t old) (hcircle : t.Circle first rest)
    (hfresh : ∀ x ∈ first :: rest, x ∉ s.poisoned) :
    Poisons t old (first :: rest) s (s.poison (first :: rest)) := by
  have hnames : ((first :: rest).filterMap fun id => (s.table.symbol? id).map Symbol.name) =
      (first :: rest).map t.nameOf := by
    rw [← filterMap_eq_map]
    refine filterMap_congr fun id hid => ?_
    obtain ⟨x, hx⟩ := hcircle.exists_symbol id hid
    rw [h.table, t.map_name_cleared, hx]
    simp [Table.nameOf, hx]
  -- by induction on what is left of the circle, past a part that is done with
  have hgo : ∀ back front s, first :: rest = front ++ back → s.Checked t old →
      (∀ x ∈ back, x ∉ s.poisoned) →
      Poisons t old back s ((back.zipIdx front.length).foldl
        (CycleSearch.poisonMember ((first :: rest).map t.nameOf)) s) := by
    intro back
    induction back with
    | nil => exact fun front s _ hs _ => ⟨hs, rfl, rfl⟩
    | cons id back ih =>
      intro front s hsplit hs hback
      have hmember := hs.poisonMember hcircle hsplit (hback id mem_cons_self)
      have hnodup : (id :: back).Nodup := (nodup_append.mp (hsplit ▸ hcircle.2)).2.1
      have hback' : ∀ x ∈ back, x ∉ (CycleSearch.poisonMember ((first :: rest).map t.nameOf) s
          (id, front.length)).poisoned := by
        intro x hx hin
        rw [hmember.poisoned] at hin
        rcases mem_cons.mp hin with rfl | hin
        · exact (nodup_cons.mp hnodup).1 hx
        · exact hback x (mem_cons_of_mem _ hx) hin
      have hnext := ih (front ++ [id]) _ (by rw [hsplit, append_assoc]; rfl) hmember.checked hback'
      rw [length_append] at hnext
      refine ⟨hnext.checked, ?_, hnext.done.trans hmember.done⟩
      rw [reverse_cons, append_assoc]
      exact hnext.poisoned.trans (congrArg (back.reverse ++ ·) hmember.poisoned)
  unfold CycleSearch.poison
  rw [hnames]
  exact hgo (first :: rest) [] s rfl h hfresh

/-! ### Visiting -/

/-- What is done and not poisoned refers to what was done earlier, to poisoned
equations, and to equations that have no expression anyway. -/
def Ordered (t : Table) (s : CycleSearch) : Prop :=
  ∀ later a earlier, s.done = later ++ a :: earlier → a ∉ s.poisoned →
    ∀ b, t.Refers a b → b ∈ earlier ∨ b ∈ s.poisoned ∨ t.references? b = none

/-- A search of the table `t` that stands at the end of `path`. What it poisoned beyond
`old` is made up of whole circles. -/
structure Search (t : Table) (old path : List SymbolId) (s : CycleSearch) : Prop
    extends Checked t old s where
  ordered : s.Ordered t
  circles : ∃ circles, t.Circles circles ∧ s.poisoned = circles.flatten.reverse ++ old
  distinct : path.Nodup
  linked : path.IsChain t.Refers
  severed : ∃ front back, path = front ++ back ∧
    (∀ x ∈ front, x ∉ s.poisoned) ∧ ∀ x ∈ back, x ∈ s.poisoned

/-- What a visit of `id` at the end of `path` comes to. -/
structure Visited (t : Table) (old path : List SymbolId) (id : SymbolId)
    (s s' : CycleSearch) : Prop where
  search : s'.Search t old path
  grows : s.Grows s'
  settled : s'.Settled t id

theorem Search.fresh (h : s.Search t old (path ++ [id])) (hid : id ∉ s.poisoned) :
    ∀ x ∈ path ++ [id], x ∉ s.poisoned := by
  obtain ⟨front, back, hsplit, hfront, hback⟩ := h.severed
  rcases eq_nil_or_concat' back with rfl | ⟨back, last, rfl⟩
  · rw [hsplit, append_nil]
    exact hfront
  · rw [← append_assoc] at hsplit
    have hlast : id = last := by simpa using (append_inj' hsplit rfl).2
    exact absurd (hback id (by simp [hlast])) hid

theorem Ordered.poison {cycle : List SymbolId} (h : s.Ordered t)
    (hpoisons : Poisons t old cycle s s') : s'.Ordered t := by
  intro later a earlier hsplit ha b hab
  rw [hpoisons.poisoned] at ha ⊢
  rw [hpoisons.done] at hsplit
  have hb := h later a earlier hsplit (fun hin => ha (mem_append_right _ hin)) b hab
  exact hb.imp_right (Or.imp_left (mem_append_right _))

/-- **The search meets its own path**, and poisons it from there. -/
theorem Search.poison (h : s.Search t old path) (hfresh : ∀ x ∈ path, x ∉ s.poisoned)
    (hend : ∀ x ∈ path.getLast?, t.Refers x id) (hid : id ∈ path) :
    Visited t old path id s (s.poison (path.dropWhile (· ≠ id))) := by
  obtain ⟨front, rest, hsplit, hfront⟩ := eq_append_cons_of_mem hid
  have hdrop : path.dropWhile (· ≠ id) = id :: rest := by
    rw [hsplit, dropWhile_append_of_pos, dropWhile_cons_of_neg (by simp)]
    exact fun x hx => decide_eq_true fun he => hfront (he ▸ hx)
  have hcircle : t.Circle id rest := by
    constructor
    · have hrest : (id :: rest).IsChain t.Refers := h.linked.suffix ⟨front, hsplit.symm⟩
      refine isChain_append.mpr ⟨hrest, isChain_singleton id, ?_⟩
      intro x hx y hy
      have hlast : path.getLast? = (id :: rest).getLast? := by
        rw [hsplit, getLast?_append_of_ne_nil _ (cons_ne_nil id rest)]
      cases hy
      exact hend x (hlast ▸ hx)
    · exact (nodup_append.mp (hsplit ▸ h.distinct)).2.1
  have hpoisons := h.toChecked.poison hcircle fun x hx =>
    hfresh x (by rw [hsplit]; exact mem_append_right _ hx)
  obtain ⟨circles, hall, hcircles⟩ := h.circles
  rw [hdrop]
  refine ⟨⟨hpoisons.checked, h.ordered.poison hpoisons, ⟨circles ++ [id :: rest], ?_, ?_⟩,
    h.distinct, h.linked, front, id :: rest, hsplit, ?_, ?_⟩, ⟨?_, ?_⟩, ?_⟩
  · intro c hc
    rcases mem_append.mp hc with hc | hc
    · exact hall c hc
    · exact ⟨id, rest, mem_singleton.mp hc, hcircle⟩
  · rw [hpoisons.poisoned, hcircles]
    simp
  · intro x hx hin
    rw [hpoisons.poisoned] at hin
    rcases mem_append.mp hin with hin | hin
    · have hdisjoint := (nodup_append.mp (hsplit ▸ h.distinct)).2.2
      exact hdisjoint x hx x (mem_reverse.mp hin) rfl
    · exact hfresh x (by rw [hsplit]; exact mem_append_left _ hx) hin
  · intro x hx
    rw [hpoisons.poisoned]
    exact mem_append_left _ (mem_reverse.mpr hx)
  · rw [hpoisons.poisoned]
    exact subset_append_right _ _
  · rw [hpoisons.done]
    exact List.Subset.refl _
  · left
    rw [hpoisons.poisoned]
    exact mem_append_left _ (by simp)

theorem Search.follow {step : CycleSearch → SymbolId → CycleSearch}
    (hstep : ∀ s next, s.Search t old (path ++ [id]) → id ∉ s.poisoned → t.Refers id next →
      Visited t old (path ++ [id]) next s (step s next))
    (references : List SymbolId) (hrefers : ∀ next ∈ references, t.Refers id next)
    (h : s.Search t old (path ++ [id])) :
    let after := references.foldl (fun s next => if id ∈ s.poisoned then s else step s next) s
    after.Search t old (path ++ [id]) ∧ s.Grows after ∧
      (id ∈ after.poisoned ∨ ∀ next ∈ references, after.Settled t next) := by
  induction references generalizing s with
  | nil => exact ⟨h, .rfl, .inr (by simp)⟩
  | cons next references ih =>
    have hrest : ∀ r ∈ references, t.Refers id r := fun r hr => hrefers r (.tail _ hr)
    rw [foldl_cons]
    by_cases hid : id ∈ s.poisoned
    · rw [if_pos hid]
      obtain ⟨hsearch, hgrows, -⟩ := ih hrest h
      exact ⟨hsearch, hgrows, .inl (hgrows.poisoned hid)⟩
    · rw [if_neg hid]
      have hvisit := hstep s next h hid (hrefers next (.head _))
      obtain ⟨hsearch, hgrows, hsettled⟩ := ih hrest hvisit.search
      refine ⟨hsearch, hvisit.grows.trans hgrows, hsettled.imp_right fun hall r hr => ?_⟩
      rcases mem_cons.mp hr with rfl | hr
      · exact hvisit.settled.grow hgrows
      · exact hall r hr

theorem Search.leave (h : s.Search t old (path ++ [id])) : s.Search t old path := by
  refine ⟨h.toChecked, h.ordered, h.circles, (nodup_append.mp h.distinct).1,
    h.linked.left_of_append, ?_⟩
  obtain ⟨front, back, hsplit, hfront, hback⟩ := h.severed
  rcases eq_nil_or_concat' back with rfl | ⟨back, last, rfl⟩
  · refine ⟨path, [], by simp, fun x hx => hfront x ?_, by simp⟩
    rw [append_nil] at hsplit
    rw [← hsplit]
    exact mem_append_left _ hx
  · rw [← append_assoc] at hsplit
    exact ⟨front, back, (append_inj' hsplit rfl).1, hfront,
      fun x hx => hback x (mem_append_left _ hx)⟩

/-- **An equation is done** once its references are settled, or it is poisoned. -/
theorem Search.finish (h : s.Search t old path)
    (hsettled : id ∈ s.poisoned ∨ ∀ next, t.Refers id next → s.Settled t next) :
    ({ s with done := id :: s.done } : CycleSearch).Search t old path := by
  refine ⟨⟨h.table, h.nodup, h.flagged⟩, ?_, h.circles, h.distinct, h.linked, h.severed⟩
  intro later a earlier hsplit ha b hab
  cases later with
  | nil =>
    cases hsplit
    have hb := hsettled.resolve_left ha b hab
    exact or_left_comm.mp hb
  | cons c later => exact h.ordered later a earlier (List.cons.inj hsplit).2 ha b hab

/-- **A visit** keeps the search going, and settles what it visits. By induction on the
handles that are left, all those off the path. -/
theorem visit_spec (h : s.Search t old path) (hfresh : ∀ x ∈ path, x ∉ s.poisoned)
    (hend : ∀ x ∈ path.getLast?, t.Refers x id)
    (hremaining : ∀ x ∈ t.handles, x ∉ path → x ∈ remaining) :
    Visited t old path id s (s.visit remaining path id) := by
  induction hn : remaining.length using Nat.strong_induction_on generalizing remaining path id s
    with
  | _ n ih =>
    rw [CycleSearch.visit]
    split
    · rename_i hknown
      exact ⟨h, .rfl, hknown.imp_right .inl⟩
    · rename_i hknown
      rw [not_or] at hknown
      split
      · rename_i hpath
        exact h.poison hfresh hend hpath
      · rename_i hpath
        have hreferences : s.table.references? id = t.references? id := by
          rw [h.table, t.references?_cleared, if_neg hknown.1]
        rw [hreferences]
        cases hrefs : t.references? id with
        | none => exact ⟨h, .rfl, .inr (.inr hrefs)⟩
        | some references =>
          have hrefers : ∀ next, t.Refers id next ↔ next ∈ references := by
            intro next
            rw [Table.refers_iff, hrefs]
            simp
          have hin : id ∈ remaining := by
            obtain ⟨x, -, -, hx, -⟩ := Table.references?_eq_some.mp hrefs
            exact hremaining id (Table.mem_handles_of_symbol? hx) hpath
          have hentered : s.Search t old (path ++ [id]) := by
            refine ⟨h.toChecked, h.ordered, h.circles, ?_, ?_, path ++ [id], [], by simp, ?_,
              by simp⟩
            · exact nodup_append.mpr ⟨h.distinct, pairwise_singleton _ id, by
                rintro x hx y hy rfl
                exact hpath (mem_singleton.mp hy ▸ hx)⟩
            · exact isChain_append.mpr ⟨h.linked, isChain_singleton id, by
                intro x hx y hy
                cases hy
                exact hend x hx⟩
            · intro x hx
              rcases mem_append.mp hx with hx | hx
              · exact hfresh x hx
              · exact mem_singleton.mp hx ▸ hknown.1
          have hstep : ∀ s next, s.Search t old (path ++ [id]) → id ∉ s.poisoned →
              t.Refers id next → Visited t old (path ++ [id]) next s
                (s.visit (without remaining id) (path ++ [id]) next) := by
            intro s next hs hid hnext
            refine ih _ (hn ▸ length_without_lt hin) hs (hs.fresh hid) ?_ ?_ rfl
            · intro x hx
              rw [getLast?_concat] at hx
              cases hx
              exact hnext
            · intro x hx hoff
              rw [mem_append, mem_singleton, not_or] at hoff
              exact mem_filter.mpr ⟨hremaining x hx hoff.1, decide_eq_true hoff.2⟩
          obtain ⟨hafter, hgrows, hsettled⟩ :=
            hentered.follow hstep references fun next hnext => (hrefers next).mpr hnext
          simp only [dif_pos hin]
          refine ⟨hafter.leave.finish (hsettled.imp_right fun hall next hnext =>
            hall next ((hrefers next).mp hnext)), ⟨hgrows.poisoned, ?_⟩, ?_⟩
          · exact fun x hx => mem_cons_of_mem _ (hgrows.done hx)
          · exact .inr (.inl mem_cons_self)

/-! ### No circle is left -/

/-- What can be reached from an equation that is done, and refers on, was done
before it. -/
theorem Ordered.reaches (h : s.Ordered t) (htable : s.table = t.cleared s.poisoned)
    {a b c : SymbolId} (hreach : TransGen s.table.Refers a b) (hb : s.table.Refers b c) :
    ∀ later earlier, s.done = later ++ a :: earlier → b ∈ earlier := by
  -- an equation that refers on is neither poisoned nor without an expression
  have hstep : ∀ {a b c}, s.table.Refers a b → s.table.Refers b c →
      ∀ later earlier, s.done = later ++ a :: earlier → b ∈ earlier := by
    intro a b c hab hbc later earlier hsplit
    rw [htable, Table.refers_cleared] at hab hbc
    rcases h later a earlier hsplit hab.1 b hab.2 with hb | hb | hb
    · exact hb
    · exact absurd hb hbc.1
    · exact absurd hb hbc.2.references?_ne_none
  induction hreach using TransGen.head_induction_on with
  | single hab => exact hstep hab hb
  | head hax hxb ih =>
    rename_i a x
    intro later earlier hsplit
    obtain ⟨y, hxy, -⟩ := TransGen.head'_iff.mp hxb
    obtain ⟨front, back, rfl⟩ := append_of_mem (hstep hax hxy later earlier hsplit)
    have hback : b ∈ back := ih (later ++ a :: front) back (by rw [hsplit]; simp)
    exact mem_append_right _ (.tail _ hback)

/-- **No circle is left** through an equation that is settled. -/
theorem no_circle_of_settled (hordered : s.Ordered t) (htable : s.table = t.cleared s.poisoned)
    (hid : s.Settled t id) : ¬ TransGen s.table.Refers id id := by
  intro hcircle
  obtain ⟨next, hnext, -⟩ := TransGen.head'_iff.mp hcircle
  have hrefers := hnext
  rw [htable, Table.refers_cleared] at hrefers
  rcases hid with hid | hid | hid
  · exact hrefers.1 hid
  · -- otherwise `id` comes before itself, again and again
    have hearlier := hordered.reaches htable hcircle hnext
    have hdescend : ∀ n later earlier, s.done = later ++ id :: earlier → earlier.length ≠ n := by
      intro n
      induction n using Nat.strong_induction_on with
      | _ n ih =>
        rintro later earlier hsplit rfl
        obtain ⟨front, back, rfl⟩ := append_of_mem (hearlier later earlier hsplit)
        refine ih back.length ?_ (later ++ id :: front) back (by rw [hsplit]; simp) rfl
        rw [length_append, length_cons]
        omega
    obtain ⟨later, earlier, hsplit⟩ := append_of_mem hid
    exact hdescend _ later earlier hsplit rfl
  · exact hrefers.2.references?_ne_none hid

/-! ### One unit after another -/

theorem Search.foldl_visit (roots : List SymbolId) (h : s.Search t old []) :
    let after := roots.foldl (fun s root => s.visit t.handles [] root) s
    after.Search t old [] ∧ s.Grows after ∧ ∀ root ∈ roots, after.Settled t root := by
  induction roots generalizing s with
  | nil => exact ⟨h, .rfl, by simp⟩
  | cons root roots ih =>
    have hvisit : Visited t old [] root s (s.visit t.handles [] root) :=
      visit_spec h (by simp) (by simp) fun x hx _ => hx
    obtain ⟨hsearch, hgrows, hsettled⟩ := ih hvisit.search
    refine ⟨hsearch, hvisit.grows.trans hgrows, fun r hr => ?_⟩
    rcases mem_cons.mp hr with rfl | hr
    · exact hvisit.settled.grow hgrows
    · exact hsettled r hr

theorem checkUnit_eq (t : Table) (poisoned : List SymbolId) (unit : UnitId) :
    ∃ roots : List SymbolId, checkUnit t poisoned unit =
        roots.foldl (fun s root => s.visit t.handles [] root) { table := t, poisoned } ∧
      ∀ store, t.store? unit = some store → ∀ id x, store.symbol? id = some x →
        x.isEquation = true → id ∈ roots := by
  refine ⟨_, rfl, fun store hstore id x hx hequation => ?_⟩
  rw [hstore]
  exact mem_map.mpr ⟨(id, x), mem_filter.mpr ⟨Store.mem_ordered.mpr hx, hequation⟩, rfl⟩

/-- **The search of a unit** goes its whole way, and settles the equations of the unit. -/
theorem checkUnit_search (hold : old.Nodup) (unit : UnitId) :
    let after := checkUnit (t.cleared old) old unit
    after.Search t old [] ∧
      ∀ store, (t.cleared old).store? unit = some store →
        ∀ id x, store.symbol? id = some x → x.isEquation = true → after.Settled t id := by
  have hstart : ({ table := t.cleared old, poisoned := old } : CycleSearch).Search t old [] :=
    ⟨⟨rfl, hold, [], rfl, .nil⟩, by simp [Ordered], ⟨[], by simp [Table.Circles], rfl⟩,
      nodup_nil, .nil, [], [], rfl, by simp, by simp⟩
  obtain ⟨roots, heq, hroots⟩ := checkUnit_eq (t.cleared old) old unit
  have hhandles : (t.cleared old).handles = t.handles := t.handles_mapKinds _
  rw [hhandles] at heq
  obtain ⟨hsearch, -, hsettled⟩ := hstart.foldl_visit roots
  rw [← heq] at hsearch hsettled
  exact ⟨hsearch, fun store hstore id x hx hequation =>
    hsettled id (hroots store hstore id x hx hequation)⟩

/-- **One unit is checked**, after others: its equations are on no circle any more. -/
theorem checkUnit_spec (ht : t.Sound) (hold : old.Nodup) (unit : UnitId) :
    let after := checkUnit (t.cleared old) old unit
    after.Checked t old ∧
      ∀ store ∈ t.stores, store.unit = unit → ∀ id x, store.symbol? id = some x →
        x.isEquation = true → ¬ TransGen after.table.Refers id id := by
  obtain ⟨hsearch, hsettled⟩ := checkUnit_search (t := t) hold unit
  refine ⟨hsearch.toChecked, fun store hstore hunit id x hx hequation => ?_⟩
  refine no_circle_of_settled hsearch.ordered hsearch.table ?_
  -- in the table as the check finds it, the equation is in the same store
  have hcleared : (t.cleared old).Sound := ht.mapKinds _
  have hmem := mem_map_of_mem (f := fun s : Store => s.mapKinds
    fun id kind => if id ∈ old then kind.withoutExpr else kind) hstore
  refine hsettled _ (hunit ▸ hcleared.store?_eq hmem) id _
    (by rw [Store.symbol?_mapKinds, hx, Option.map_some]) ?_
  by_cases hid : id ∈ old
  · simp only [if_pos hid]
    exact (Symbol.isEquation_withoutExpr x).trans hequation
  · simpa [hid] using hequation

def checkNext (s : CycleSearch) (unit : UnitId) : CycleSearch :=
  let after := checkUnit s.table s.poisoned unit
  { after with markers := s.markers ++ after.markers }

def checkAll (t : Table) (units : List UnitId) : CycleSearch :=
  units.foldl checkNext { table := t, poisoned := [] }

/-- **A run of checks.** The equations of every unit that was checked are on no circle
any more. -/
theorem Checked.foldl_checkNext (ht : t.Sound) (units : List UnitId) (h : s.Checked t []) :
    let after := units.foldl checkNext s
    after.Checked t [] ∧ s.poisoned ⊆ after.poisoned ∧
      ∀ store ∈ t.stores, store.unit ∈ units → ∀ id x, store.symbol? id = some x →
        x.isEquation = true → ¬ TransGen after.table.Refers id id := by
  induction units generalizing s with
  | nil => exact ⟨h, List.Subset.refl _, by simp⟩
  | cons unit units ih =>
    obtain ⟨hchecked, hcircle⟩ := checkUnit_spec ht h.nodup unit
    rw [← h.table] at hchecked hcircle
    obtain ⟨more, hmore, hnew⟩ := hchecked.flagged
    obtain ⟨all, hall, hflagged⟩ := h.flagged
    have hnext : (s.checkNext unit).Checked t [] := by
      refine ⟨hchecked.table, hchecked.nodup, more ++ all, ?_, ?_⟩
      · rw [checkNext, hmore, hall, append_nil, append_nil]
      · rw [reverse_append]
        exact rel_append hflagged hnew
    obtain ⟨hafter, hpoisoned, hrest⟩ := ih hnext
    have hgrows : s.poisoned ⊆ (s.checkNext unit).poisoned := by
      rw [checkNext, hmore]
      exact subset_append_right _ _
    refine ⟨hafter, List.Subset.trans hgrows hpoisoned,
      fun store hstore hunit id x hx hequation hleft => ?_⟩
    rcases mem_cons.mp hunit with hunit | hunit
    · -- later checks take references away only
      rw [foldl_cons, hafter.table] at hleft
      refine hcircle store hstore hunit id x hx hequation ?_
      rw [hchecked.table]
      exact TransGen.mono (fun _ _ hab => hab.of_cleared hpoisoned) _ _ hleft
    · exact hrest store hstore hunit id x hx hequation hleft

theorem Checked.forall₂_flagged (h : s.Checked t []) :
    Forall₂ t.Flagged s.poisoned.reverse s.markers := by
  obtain ⟨all, hall, hflagged⟩ := h.flagged
  rw [hall, append_nil]
  exact hflagged

theorem Checked.transGen (h : s.Checked t []) (hid : id ∈ s.poisoned) :
    TransGen t.Refers id id := by
  obtain ⟨i, hi⟩ := mem_iff_getElem?.mp (mem_reverse.mpr hid)
  obtain ⟨marker, -, hmarker⟩ := rel_some (forall₂_getElem? h.forall₂_flagged i) hi
  exact hmarker.transGen

/-- **Poisoned** are the equations that have lost their expressions. -/
theorem Checked.mem_poisoned_iff (h : s.Checked t []) : id ∈ s.poisoned ↔
    ∃ x e context, t.symbol? id = some x ∧ x.kind = .equation (some e) context ∧
      s.table.symbol? id = some { x with kind := .equation none context } := by
  constructor
  · intro hid
    obtain ⟨next, ⟨x, e, context, hx, hkind, -⟩, -⟩ := TransGen.head'_iff.mp (h.transGen hid)
    refine ⟨x, e, context, hx, hkind, ?_⟩
    rw [h.table, t.symbol?_cleared, hx, Option.map_some, if_pos hid, Symbol.withoutExpr,
      Symbol.mapKind, hkind]
    rfl
  · rintro ⟨x, e, context, hx, hkind, hnow⟩
    by_contra hid
    rw [h.table, t.symbol?_cleared_of_notMem hid, hx] at hnow
    have hsame : x.kind = .equation none context := congrArg Symbol.kind (Option.some.inj hnow)
    rw [hkind] at hsame
    cases hsame

end CycleSearch

namespace CycleSearch

theorem checked_new (t : Table) :
    ({ table := t, poisoned := [] } : CycleSearch).Checked t [] :=
  ⟨t.cleared_nil.symm, nodup_nil, [], rfl, .nil⟩

/-- **No circle is left** when all units have been checked. -/
theorem checkAll_acyclic (ht : t.Sound) {units : List UnitId}
    (hunits : ∀ store ∈ t.stores, store.unit ∈ units) (id : SymbolId) :
    ¬ TransGen (checkAll t units).table.Refers id id := by
  intro hleft
  obtain ⟨hchecked, -, hcut⟩ := (checked_new t).foldl_checkNext ht units
  -- on a circle there are equations only, and each is in a store of its unit
  obtain ⟨next, hnext, -⟩ := TransGen.head'_iff.mp hleft
  rw [checkAll, hchecked.table, Table.refers_cleared] at hnext
  obtain ⟨x, e, context, hx, hkind, -⟩ := hnext.2
  obtain ⟨store, howner, hstore⟩ := Option.bind_eq_some_iff.mp hx
  have hmem : store ∈ t.stores := mem_of_find?_eq_some howner
  exact hcut store hmem (hunits store hmem) id x hstore (by rw [Symbol.isEquation, hkind]) hleft

end CycleSearch

open CycleSearch in
/-- **Circular equations are found, cut and reported once.** Units are checked in any
order, any number of times, and none is left out. Then an equation is poisoned if and
only if it had an expression and has none now; each poisoned equation has one marker,
which names a circle of the table as it was; nothing else has changed; no circle is
left; and there are no markers if and only if there was no circle. -/
theorem checkAll_severs_circles {t : Table} (ht : t.Sound) {units : List UnitId}
    (hunits : ∀ store ∈ t.stores, store.unit ∈ units) :
    let after := checkAll t units
    (∀ id, id ∈ after.poisoned ↔ ∃ x e context, t.symbol? id = some x ∧
      x.kind = .equation (some e) context ∧
      after.table.symbol? id = some { x with kind := .equation none context }) ∧
    after.table = t.cleared after.poisoned ∧
    after.poisoned.Nodup ∧
    List.Forall₂ t.Flagged after.poisoned.reverse after.markers ∧
    (∀ id, ¬ TransGen after.table.Refers id id) ∧
    (after.markers = [] ↔ ∀ id, ¬ TransGen t.Refers id id) := by
  have hchecked : (checkAll t units).Checked t [] := ((checked_new t).foldl_checkNext ht units).1
  have hflagged := hchecked.forall₂_flagged
  have hcut := checkAll_acyclic ht hunits
  refine ⟨fun id => hchecked.mem_poisoned_iff, hchecked.table, hchecked.nodup, hflagged, hcut, ?_⟩
  constructor
  · intro hmarkers
    rw [hmarkers, forall₂_nil_right_iff, reverse_eq_nil_iff] at hflagged
    rw [hchecked.table, hflagged, t.cleared_nil] at hcut
    exact hcut
  · intro hnone
    have hpoisoned : (checkAll t units).poisoned = [] :=
      eq_nil_iff_forall_not_mem.mpr fun id hid => hnone id (hchecked.transGen hid)
    rw [hpoisoned, reverse_nil, forall₂_nil_left_iff] at hflagged
    exact hflagged

/-- Two circles that share an equation, one of them through another unit, and an
equation beside them that leads into both. -/
def crossing : Table :=
  let equations : List (String × UnitId × Expr) :=
    [("a", 0, .binary .add (.ident "b") (.ident "c")), ("b", 0, .ident "a"),
      ("c", 1, .ident "a"), ("d", 1, .ident "c")]
  equations.foldl (fun t (name, unit, e) =>
    (t.define (.equation name unit ⟨0, 0, 0, 1⟩ e none)).2) {}

theorem sound_crossing : crossing.Sound :=
  ((((Table.sound_of_nil rfl).define _).define _).define _).define _

/-- Cutting one of the circles cuts the other. -/
theorem checkAll_severs_circles_crossing :
    (CycleSearch.checkAll crossing [1, 0, 1]).markers.map (fun (unit, m) => (unit, m.message)) =
      [(0, "Circular equation: a <-> b <-> a"), (0, "Circular equation: b <-> a <-> b")] ∧
    ∀ id, ¬ TransGen (CycleSearch.checkAll crossing [1, 0, 1]).table.Refers id id := by
  have hunits : ∀ store ∈ crossing.stores, store.unit ∈ [1, 0, 1] := by decide +kernel
  obtain ⟨-, -, -, -, hcut, -⟩ := checkAll_severs_circles sound_crossing hunits
  exact ⟨by decide +kernel, hcut⟩

end WordAsm
