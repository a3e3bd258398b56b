/-
# Addresses past a header

A link that moves addresses puts a new state on record for every unit it links, and
new addresses for the labels of those units. Everything that is an address has then
moved by the length of the header, once, and does not wrap; all else is as it was
(`Program.Raised`).

New states are worked out from the program as it is before the link, so a unit that
is linked twice gets the same state twice (`replaceUnits_eq`). Labels are written by
their handles, which may be in any store; that the handles of a unit's labels are in
its own store, and that the walk of the store meets them all, is what a well-formed
table is needed for (`mem_shiftedLabels`).
-/
import Mathlib.Data.List.Nodup
import WordAsm.Proofs.Linking
import WordAsm.Proofs.References
import WordAsm.Proofs.InPlace
import WordAsm.Proofs.StubCode

namespace WordAsm

open List

variable {labels : List (SymbolId × Address)}

/-! ### What moves -/

/-- The node is `d` words further up, if it has a place. -/
structure Node.Raised (d : ℕ) (n n' : Node) : Prop where
  address : Shifted d n.address n'.address
  rest : n' = { n with address := n'.address }

/-- The unit is `d` words further up: its nodes, its bounds and its source lines. -/
structure SourceUnit.Raised (d : ℕ) (u u' : SourceUnit) : Prop where
  tree : Option.Rel (List.Forall₂ (Node.Raised d)) u.tree u'.tree
  start : u'.start.toNat = u.start.toNat + d
  stop : Option.Rel (fun stop stop' => stop' = stop + d ∧ stop' ≤ 0x10000) u.stop u'.stop
  lines : List.Forall₂ (fun l l' => l'.1.toNat = l.1.toNat + d ∧ l'.2 = l.2) u.lines u'.lines
  /-- No two lines come to the same address. -/
  keys : (u.lines.map Prod.fst).Nodup → (u'.lines.map Prod.fst).Nodup
  rest : u' = { u with tree := u'.tree, start := u'.start, stop := u'.stop, lines := u'.lines }

/-- The label is `d` words further up, if it has a place; other symbols are the same. -/
structure Symbol.Raised (d : ℕ) (x x' : Symbol) : Prop where
  address : Shifted d x.address? x'.address?
  rest : x' = x.withAddress x'.address?

structure Store.Raised (d : ℕ) (s s' : Store) : Prop where
  symbols : List.Forall₂ (Symbol.Raised d) s.symbols s'.symbols
  rest : s.Becomes s'.symbols s'

/-- The units `ids` and their symbols are `d` words further up; other units and their
symbols are the same. -/
structure Program.Raised (d : ℕ) (ids : List UnitId) (p p' : Program) : Prop where
  order : p'.order = p.order
  linked : ∀ id ∈ ids, ∃ u u', p.get? id = some u ∧ p'.get? id = some u' ∧ u.Raised d u'
  others : ∀ id, id ∉ ids → p'.get? id = p.get? id
  supply : p'.symbols.supply = p.symbols.supply
  stores : List.Forall₂ (fun s s' => if s.unit ∈ ids then s.Raised d s' else s' = s)
    p.symbols.stores p'.symbols.stores

/-! ### Units -/

theorem Node.raised_of_shifted {n n' : Node} (h : n.shifted shift = .ok n') :
    n.Raised shift.toNat n' := by
  unfold Node.shifted at h
  split at h
  · rename_i haddress
    cases h
    refine ⟨?_, rfl⟩
    rw [haddress]
    exact .none
  · rename_i address haddress
    obtain ⟨moved, hmoved, h⟩ := bind_eq_ok h
    cases h
    refine ⟨?_, rfl⟩
    rw [haddress]
    exact .some (addWords_eq_ok hmoved)

theorem rel_of_shiftedEnd {stop stop' : Option ℕ} (h : shiftedEnd shift stop = .ok stop') :
    Option.Rel (fun a b => b = a + shift.toNat ∧ b ≤ 0x10000) stop stop' := by
  cases stop with
  | none =>
    cases h
    exact .none
  | some stop =>
    simp only [shiftedEnd] at h
    split at h
    · cases h
    · cases h
      exact .some ⟨rfl, by omega⟩

theorem rel_of_shiftedTree {tree tree' : Option SyntaxTree}
    (h : shiftedTree shift tree = .ok tree') :
    Option.Rel (Forall₂ (Node.Raised shift.toNat)) tree tree' := by
  cases tree with
  | none =>
    cases h
    exact .none
  | some nodes =>
    obtain ⟨moved, hmoved, h⟩ := bind_eq_ok h
    cases h
    exact .some ((forall₂_of_mapM hmoved).imp fun n n' hn => n.raised_of_shifted hn)

theorem nodup_keys_of_raised {d : ℕ} {lines lines' : List (Address × ℕ)}
    (h : Forall₂ (fun l l' => l'.1.toNat = l.1.toNat + d ∧ l'.2 = l.2) lines lines')
    (hnodup : (lines.map Prod.fst).Nodup) : (lines'.map Prod.fst).Nodup := by
  have hkeys : (lines'.map Prod.fst).map UInt16.toNat =
      (lines.map Prod.fst).map fun a => a.toNat + d := by
    induction h with
    | nil => rfl
    | cons hl _ ih =>
      rw [map_cons, map_cons, ih (nodup_cons.mp hnodup).2]
      exact congrArg (· :: _) hl.1
  refine List.Nodup.of_map UInt16.toNat ?_
  rw [hkeys]
  exact hnodup.map fun a b hab => UInt16.toNat_inj.mp (Nat.add_right_cancel hab)

/-- **A unit that can be moved** moves as a whole. -/
theorem SourceUnit.raised_of_shifted {u u' : SourceUnit} (h : u.shifted shift = .ok u') :
    u.Raised shift.toNat u' := by
  obtain ⟨tree, htree, h⟩ := bind_eq_ok h
  obtain ⟨start, hstart, h⟩ := bind_eq_ok h
  obtain ⟨stop, hstop, h⟩ := bind_eq_ok h
  obtain ⟨lines, hlines, h⟩ := bind_eq_ok h
  cases h
  have hraised : Forall₂ (fun l l' => l'.1.toNat = l.1.toNat + shift.toNat ∧ l'.2 = l.2)
      u.lines lines := by
    refine (forall₂_of_mapM hlines).imp fun l l' hl => ?_
    obtain ⟨moved, hmoved, hl⟩ := bind_eq_ok hl
    cases hl
    exact ⟨addWords_eq_ok hmoved, rfl⟩
  exact ⟨rel_of_shiftedTree htree, addWords_eq_ok hstart, rel_of_shiftedEnd hstop, hraised,
    nodup_keys_of_raised hraised, rfl⟩

/-- **New states are put on record.** All units are known, and for each the last state
given for it counts. -/
theorem replaceUnits_eq (xs : List UnitShift) (us : Units)
    (hknown : ∀ x ∈ xs, (us.get? x.id).isSome) :
    ∃ us', replaceUnits xs us = (.ok (), us') ∧ us'.order = us.order ∧
      (∀ i, i ∉ xs.map UnitShift.id → us'.get? i = us.get? i) ∧
      ∀ i ∈ xs.map UnitShift.id, ∃ x ∈ xs, x.id = i ∧ us'.get? i = some x.unit := by
  induction xs generalizing us with
  | nil => exact ⟨us, rfl, rfl, fun i _ => rfl, by simp⟩
  | cons x xs ih =>
    obtain ⟨u, hu⟩ := Units.get_of_isSome (hknown x (.head _))
    have hself : (us.modify x.id fun _ => x.unit).get? x.id = some x.unit := by
      rw [Units.get?_modify_self, Units.get_eq_ok hu]
      rfl
    have hstill : ∀ y ∈ xs, ((us.modify x.id fun _ => x.unit).get? y.id).isSome := by
      intro y hy
      rw [Units.get?_modify]
      split
      · rw [Option.isSome_map]
        exact hknown y (.tail _ hy)
      · exact hknown y (.tail _ hy)
    obtain ⟨us', hok, horder, hothers, hlast⟩ := ih _ hstill
    refine ⟨us', ?_, horder, fun i hi => ?_, fun i hi => ?_⟩
    · rw [replaceUnits, hu]
      exact hok
    · rw [map_cons, mem_cons, not_or] at hi
      rw [hothers i hi.2, Units.get?_modify_of_ne _ _ (Ne.symm hi.1)]
    · by_cases hrest : i ∈ xs.map UnitShift.id
      · obtain ⟨y, hy, hyi, hget⟩ := hlast i hrest
        exact ⟨y, .tail _ hy, hyi, hget⟩
      · obtain rfl := (mem_cons.mp hi).resolve_right hrest
        exact ⟨x, .head _, rfl, by rw [hothers _ hrest, hself]⟩

/-! ### Labels -/

namespace Symbol

variable {x : Symbol}

theorem raised_of_address?_eq_none (h : x.address? = none) (d : ℕ) : x.Raised d x := by
  refine ⟨?_, ?_⟩
  · rw [h]
    exact .none
  · obtain ⟨name, unit, location, scope, kind⟩ := x
    cases kind with
    | label address =>
      cases h
      rfl
    | equation | macroDef => rfl

theorem raised_withAddress {a b : Address} {d : ℕ} (h : x.address? = some a)
    (hab : b.toNat = a.toNat + d) : x.Raised d (x.withAddress (some b)) := by
  obtain ⟨name, unit, location, scope, kind⟩ := x
  cases kind with
  | label address =>
    cases h
    exact ⟨.some hab, rfl⟩
  | equation | macroDef => cases h

end Symbol

/-- A symbol's kind after new addresses have been put on record, one after another. -/
def relabel (labels : List (SymbolId × Address)) (id : SymbolId) (kind : SymbolKind) : SymbolKind :=
  labels.foldl (fun kind label => if id = label.1 then kind.withAddress (some label.2) else kind) kind

/-- **New addresses of labels** come to one change of all symbols. -/
theorem replaceLabels_eq (labels : List (SymbolId × Address)) (t : Table) :
    replaceLabels labels t = t.mapKinds (relabel labels) := by
  have hgo : ∀ f, replaceLabels labels (t.mapKinds f) =
      t.mapKinds fun id kind => relabel labels id (f id kind) := by
    induction labels with
    | nil => exact fun f => rfl
    | cons label labels ih =>
      intro f
      calc replaceLabels (label :: labels) (t.mapKinds f)
        _ = replaceLabels labels ((t.mapKinds f).modify label.1
              (·.withAddress (some label.2))) := rfl
        _ = replaceLabels labels (t.mapKinds fun id kind =>
              if id = label.1 then (f id kind).withAddress (some label.2) else f id kind) := by
            rw [Table.modify_mapKinds]
        _ = _ := ih _
  have hid := hgo fun _ kind => kind
  rw [Table.mapKinds_id] at hid
  exact hid

theorem relabel_of_notMem {id : SymbolId} (h : ∀ a, (id, a) ∉ labels) (kind : SymbolKind) :
    relabel labels id kind = kind := by
  induction labels with
  | nil => rfl
  | cons label labels ih =>
    have hne : id ≠ label.1 := fun he => h label.2 (by rw [he]; exact .head _)
    rw [relabel, foldl_cons, if_neg hne]
    exact ih fun a ha => h a (.tail _ ha)

theorem relabel_of_mem {id : SymbolId} {a : Address} (ha : (id, a) ∈ labels)
    (hall : ∀ b, (id, b) ∈ labels → b = a) (kind : SymbolKind) :
    relabel labels id kind = kind.withAddress (some a) := by
  induction labels generalizing kind with
  | nil => cases ha
  | cons label labels ih =>
    have hrest : ∀ b, (id, b) ∈ labels → b = a := fun b hb => hall b (.tail _ hb)
    rw [relabel, foldl_cons]
    by_cases hid : id = label.1
    · have hlabel : label.2 = a := hall label.2 (by rw [hid]; exact .head _)
      rw [if_pos hid, hlabel]
      by_cases hmem : (id, a) ∈ labels
      · exact (ih hmem hrest _).trans (by cases kind <;> rfl)
      · refine relabel_of_notMem (fun b hb => hmem ?_) _
        rw [← hrest b hb]
        exact hb
    · rw [if_neg hid]
      refine ih ((mem_cons.mp ha).resolve_left fun he => hid ?_) hrest kind
      rw [← he]

variable {shift : Word}

/-- **The labels of a store** that have addresses, with those moved. -/
theorem Store.mem_shiftedLabels {s : Store}
    (h : s.shiftedLabels shift = .ok labels) :
    (∀ id b, (id, b) ∈ labels → ∃ x a, s.symbol? id = some x ∧ x.address? = some a ∧
      addWords a shift = .ok b) ∧
    ∀ id x a, s.symbol? id = some x → x.address? = some a →
      ∃ b, addWords a shift = .ok b ∧ (id, b) ∈ labels := by
  have hplaced : ∀ id a, (id, a) ∈ s.ordered.filterMap
      (fun entry => entry.2.address?.map (entry.1, ·)) ↔
        ∃ x, s.symbol? id = some x ∧ x.address? = some a := by
    intro id a
    simp only [mem_filterMap, Prod.exists, mem_ordered, Option.map_eq_some_iff, Prod.mk.injEq]
    constructor
    · rintro ⟨i, x, hx, b, hb, rfl, rfl⟩
      exact ⟨x, hx, hb⟩
    · rintro ⟨x, hx, ha⟩
      exact ⟨id, x, hx, a, ha, rfl, rfl⟩
  constructor
  · intro id b hb
    obtain ⟨⟨i, a⟩, hi, hmoved⟩ := of_mem_mapM h hb
    obtain ⟨moved, hadd, hmoved⟩ := bind_eq_ok hmoved
    cases hmoved
    obtain ⟨x, hx, ha⟩ := (hplaced _ _).mp hi
    exact ⟨x, a, hx, ha, hadd⟩
  · intro id x a hx ha
    obtain ⟨label, hlabel, hmem⟩ := exists_of_mapM h ((hplaced id a).mpr ⟨x, hx, ha⟩)
    obtain ⟨moved, hadd, hlabel⟩ := bind_eq_ok hlabel
    cases hlabel
    exact ⟨moved, hadd, hmem⟩

/-! ### Plans -/

variable {p : Program} {ids : List UnitId} {plan : ShiftPlan}

theorem planUnit_eq_ok {id : UnitId} {x : UnitShift} (h : planUnit p shift id = .ok x) :
    x.id = id ∧ (∃ u, p.get? id = some u ∧ u.shifted shift = .ok x.unit) ∧
      p.symbols.shiftedLabels shift id = .ok x.labels := by
  obtain ⟨u, hu, h⟩ := bind_eq_ok h
  obtain ⟨u', hu', h⟩ := bind_eq_ok h
  obtain ⟨labels, hlabels, h⟩ := bind_eq_ok h
  cases h
  exact ⟨rfl, ⟨u, Units.get_eq_ok hu, hu'⟩, hlabels⟩

theorem planShift_eq_ok (h : planShift p shift ids = .ok plan) :
    plan.shift = shift ∧ ids.mapM (planUnit p shift) = .ok plan.units := by
  obtain ⟨units, hunits, h⟩ := bind_eq_ok h
  cases h
  exact ⟨rfl, hunits⟩

theorem ids_of_planShift (h : planShift p shift ids = .ok plan) :
    plan.units.map UnitShift.id = ids := by
  have hplanned := forall₂_of_mapM (planShift_eq_ok h).2
  clear h
  generalize plan.units = xs at hplanned
  induction hplanned with
  | nil => rfl
  | cons hx _ ih => rw [map_cons, ih, (planUnit_eq_ok hx).1]

/-- **A plan can be carried out** in the program that it was made for, and moves the
units that it was made for. -/
theorem ShiftPlan.apply_eq (h : planShift p shift ids = .ok plan) :
    ∃ units, plan.apply p = (.ok (), ⟨units, replaceLabels plan.labels p.symbols⟩) ∧
      units.order = p.order ∧ (∀ id, id ∉ ids → units.get? id = p.get? id) ∧
      ∀ id ∈ ids, ∃ u u', p.get? id = some u ∧ units.get? id = some u' ∧
        u.Raised shift.toNat u' := by
  have hplanned : ∀ x ∈ plan.units, ∃ u, p.get? x.id = some u ∧
      u.shifted shift = .ok x.unit := by
    intro x hx
    obtain ⟨id, -, hid⟩ := of_mem_mapM (planShift_eq_ok h).2 hx
    obtain ⟨rfl, hunit, -⟩ := planUnit_eq_ok hid
    exact hunit
  obtain ⟨units, hok, horder, hothers, hlast⟩ := replaceUnits_eq plan.units p.units fun x hx => by
    obtain ⟨u, hu, -⟩ := hplanned x hx
    rw [hu, Option.isSome_some]
  rw [ids_of_planShift h] at hothers hlast
  refine ⟨units, ?_, horder, hothers, fun id hid => ?_⟩
  · unfold ShiftPlan.apply
    rw [hok]
  · obtain ⟨x, hx, rfl, hget⟩ := hlast id hid
    obtain ⟨u, hu, hshifted⟩ := hplanned x hx
    exact ⟨u, x.unit, hu, hget, SourceUnit.raised_of_shifted hshifted⟩

/-- **The labels of a plan** are those of the units that it was made for. -/
theorem ShiftPlan.mem_labels (hp : p.symbols.Sound) (h : planShift p shift ids = .ok plan) :
    (∀ id b, (id, b) ∈ plan.labels → ∃ s ∈ p.symbols.stores, s.unit ∈ ids ∧
      ∃ x a, s.symbol? id = some x ∧ x.address? = some a ∧ addWords a shift = .ok b) ∧
    ∀ s ∈ p.symbols.stores, s.unit ∈ ids → ∀ id x a, s.symbol? id = some x →
      x.address? = some a → ∃ b, addWords a shift = .ok b ∧ (id, b) ∈ plan.labels := by
  have hunits := (planShift_eq_ok h).2
  constructor
  · intro id b hb
    obtain ⟨x, hx, hb⟩ := mem_flatMap.mp hb
    obtain ⟨unit, hunit, hplanned⟩ := of_mem_mapM hunits hx
    obtain ⟨-, -, hlabels⟩ := planUnit_eq_ok hplanned
    unfold Table.shiftedLabels at hlabels
    split at hlabels
    · rename_i s hstore
      obtain ⟨hs, rfl⟩ := Table.mem_of_store? hstore
      exact ⟨s, hs, hunit, (Store.mem_shiftedLabels hlabels).1 id b hb⟩
    · rw [← Except.ok.inj hlabels] at hb
      cases hb
  · intro s hs hunit id x a hx ha
    obtain ⟨planned, hplanned, hmem⟩ := exists_of_mapM hunits hunit
    obtain ⟨-, -, hlabels⟩ := planUnit_eq_ok hplanned
    rw [Table.shiftedLabels, hp.store?_eq hs] at hlabels
    obtain ⟨b, hb, hlabel⟩ := (Store.mem_shiftedLabels hlabels).2 id x a hx ha
    exact ⟨b, hb, mem_flatMap.mpr ⟨planned, hmem, hlabel⟩⟩

/-- **The symbols move** with their units, and no others do. -/
theorem ShiftPlan.forall₂_stores (hp : p.symbols.Sound)
    (h : planShift p shift ids = .ok plan) :
    Forall₂ (fun s s' => if s.unit ∈ ids then s.Raised shift.toNat s' else s' = s)
      p.symbols.stores (replaceLabels plan.labels p.symbols).stores := by
  obtain ⟨hsound, htotal⟩ := ShiftPlan.mem_labels hp h
  rw [replaceLabels_eq, Table.mapKinds, forall₂_map_right_iff, forall₂_same]
  intro s hs
  -- a label of the plan that is in this store is a label of a unit that is moved
  have howner : ∀ slot x b, s.symbols[slot]? = some x → (s.handle slot, b) ∈ plan.labels →
      s.unit ∈ ids ∧ ∃ a, x.address? = some a ∧ addWords a shift = .ok b := by
    intro slot x b hx hb
    obtain ⟨r, hr, hunit, y, a, hy, ha, hab⟩ := hsound _ _ hb
    obtain rfl := hp.ids s hs r hr (Store.store_of_symbol? hy)
    rw [Store.symbol?_handle, hx] at hy
    cases hy
    exact ⟨hunit, a, ha, hab⟩
  split
  · rename_i hunit
    refine ⟨forall₂_iff_get.mpr ⟨by simp [Store.mapKinds], fun slot hslot _ => ?_⟩,
      rfl, rfl, rfl, rfl⟩
    simp only [Store.mapKinds, get_eq_getElem, getElem_mapIdx]
    have hx := getElem?_eq_getElem hslot
    cases haddress : s.symbols[slot].address? with
    | none =>
      rw [Symbol.mapKind, relabel_of_notMem]
      · exact Symbol.raised_of_address?_eq_none haddress _
      · intro b hb
        obtain ⟨-, a, ha, -⟩ := howner slot _ b hx hb
        rw [haddress] at ha
        cases ha
    | some a =>
      obtain ⟨b, hab, hb⟩ := htotal s hs hunit (s.handle slot) _ a
        (by rw [Store.symbol?_handle, hx]) haddress
      rw [Symbol.mapKind, relabel_of_mem hb]
      · exact Symbol.raised_withAddress haddress (addWords_eq_ok hab)
      · intro b' hb'
        obtain ⟨-, a', ha', hab'⟩ := howner slot _ b' hx hb'
        rw [haddress] at ha'
        cases ha'
        exact Except.ok.inj (hab'.symm.trans hab)
  · rename_i hunit
    refine Store.eq_of_symbols rfl rfl rfl (ext_getElem (by simp [Store.mapKinds])
      fun slot _ hslot => ?_)
    simp only [Store.mapKinds, getElem_mapIdx]
    rw [Symbol.mapKind, relabel_of_notMem fun b hb => hunit ?_]
    exact (howner slot _ b (getElem?_eq_getElem hslot) hb).1

/-- A unit of one labelled word, and another that refers to it. -/
def labelled : Program where
  units :=
    { all :=
        [{ id := 0, resource := .text "a" "f: ret\n",
           tree := some [⟨0, .label "f", ⟨0, 0, 0, 1⟩, none, some ⟨1, 0⟩, none, some 2, 0, false⟩],
           start := 2, stop := some 3, lines := [(2, 0)] },
          { id := 1, resource := .text "b" ".equ g f\n" }]
      order := [0, 1] }
  symbols := ((({} : Table).define
    { name := "f", unit := 0, location := ⟨0, 0, 0, 1⟩, kind := .label (some 2) }).2.define
    (.equation "g" 1 ⟨5, 0, 5, 1⟩ (.ident "f") none)).2

theorem sound_labelled : labelled.symbols.Sound :=
  ((Table.sound_of_nil rfl).define _).define _

/-! ### Links -/

variable {linker : Linker} {modules : List ObjectModule} {tree : FileTree}

theorem planFor_of_planLink {plan : LinkPlan} {log log' : List LogLine}
    (h : (planLink linker p modules tree).run.run log = (.ok plan, log')) :
    planFor linker p modules plan.table plan.header = .ok plan.shift := by
  obtain ⟨-, log₁, -, h⟩ := Logged.bind_run_ok h
  obtain ⟨-, log₂, -, h⟩ := Logged.bind_run_ok h
  obtain ⟨codes, log₃, -, h⟩ := Logged.bind_run_ok h
  obtain ⟨⟨table, header⟩, log₄, -, h⟩ := Logged.bind_run_ok h
  obtain ⟨shift, log₅, hshift, h⟩ := Logged.bind_run_ok h
  obtain ⟨body, log₆, -, h⟩ := Logged.bind_run_ok h
  rw [Logged.run_quietly] at hshift
  cases h
  exact congrArg Prod.fst hshift

theorem planFor_eq_ok {table : RelocationTable} {header : Bytes} {shift : Option ShiftPlan}
    (h : planFor linker p modules table header = .ok shift) :
    if linker.selfRelocating && linker.moveAddresses then
      header.length / 2 < 65536 ∧ ∃ plan, shift = some plan ∧
        planShift p (UInt16.ofNat (header.length / 2)) (modules.map ObjectModule.unit) = .ok plan
    else shift = none := by
  unfold planFor at h
  split at h
  · rename_i hmove
    rw [if_pos hmove]
    split at h
    · rename_i hfits
      cases hplan : planShift p (UInt16.ofNat (header.length / 2))
          (modules.map ObjectModule.unit) with
      | error e =>
        rw [hplan] at h
        cases h
      | ok plan =>
        rw [hplan] at h
        cases h
        exact ⟨hfits, plan, rfl, rfl⟩
    · cases h
  · rename_i hmove
    rw [if_neg hmove]
    cases h
    rfl

/-- **An image that has been worked out** is linked, and what has been planned is done. -/
theorem link_of_planLink {s : Linking} {plan : LinkPlan} {log : List LogLine}
    (h : (planLink linker s.program modules tree).run.run s.log = (.ok plan, log)) :
    ∃ linked s', link linker modules tree s = (.ok linked, s') ∧
      linked.headerLength = plan.header.length ∧
      s'.program = (plan.shift.map fun shift => (shift.apply s.program).2).getD s.program := by
  have hfor := planFor_eq_ok (planFor_of_planLink h)
  unfold link
  simp only [h]
  cases hshift : plan.shift with
  | none => exact ⟨_, _, rfl, rfl, rfl⟩
  | some shift =>
    rw [hshift] at hfor
    split at hfor
    · obtain ⟨-, planned, hsome, hplanned⟩ := hfor
      cases hsome
      obtain ⟨units, happly, -⟩ := ShiftPlan.apply_eq hplanned
      simp only [Option.map_some, Option.getD_some, happly]
      exact ⟨_, _, rfl, rfl, rfl⟩
    · cases hfor

/-- **A link moves all addresses of its units past the header, once, and nothing
else.** If addresses are not to be moved, or there is no header, it leaves the program
as it is. -/
theorem link_moves_addresses_once {s s' : Linking} {linked : Linked}
    (hs : s.symbols.Sound) (h : link linker modules tree s = (.ok linked, s')) :
    if linker.selfRelocating && linker.moveAddresses then
      s.program.Raised (linked.headerLength / 2) (modules.map ObjectModule.unit) s'.program
    else s'.program = s.program := by
  rcases hplan : (planLink linker s.program modules tree).run.run s.log with ⟨e | plan, log⟩
  · unfold link at h
    rw [hplan] at h
    cases h
  obtain ⟨_, _, hlink, hheader, hprogram⟩ := link_of_planLink hplan
  rw [hlink] at h
  cases h
  have hfor := planFor_eq_ok (planFor_of_planLink hplan)
  rw [hprogram, hheader]
  split
  · rename_i hmove
    rw [if_pos hmove] at hfor
    obtain ⟨hfits, shift, hsome, hplanned⟩ := hfor
    obtain ⟨units, happly, horder, hothers, hlinked⟩ := ShiftPlan.apply_eq hplanned
    have hstores := ShiftPlan.forall₂_stores hs hplanned
    rw [UInt16.toNat_ofNat_of_lt' hfits] at hlinked hstores
    rw [hsome, Option.map_some, happly]
    refine ⟨horder, hlinked, hothers, ?_, hstores⟩
    rw [Option.getD_some, replaceLabels_eq]
    rfl
  · rename_i hmove
    rw [if_neg hmove] at hfor
    rw [hfor]
    rfl

abbrev moving : Linker := { selfRelocating := true, moveAddresses := true }

def labelledModule : ObjectModule :=
  ⟨0, ⟨.memory "a" [0, 7], some 2, some 2⟩, 2, .empty⟩

def labelledTwice : List (ObjectModule × List Word) :=
  [(labelledModule, [7]), ({ labelledModule with start := 3 }, [7])]

/-- It can be linked behind the 25 words of the stub and one that counts no entries. -/
theorem link_moves_addresses_once_twice :
    ∃ linked s', link moving (labelledTwice.map Prod.fst) {} ⟨labelled, [], []⟩ = (.ok linked, s') ∧
      linked.headerLength = 52 ∧ labelled.Raised 26 [0, 0] s'.program := by
  have hmerge : mergeTables (labelledTwice.map Prod.fst) = .ok .empty := by decide +kernel
  have hshift : ∃ shift, ∀ bytes, RelocationTable.empty.toBytes = .ok bytes →
      planFor moving labelled (labelledTwice.map Prod.fst) .empty (stub ++ bytes) = .ok shift := by
    rw [stub_eq]
    exact ⟨_, fun bytes hbytes => by cases hbytes; rfl⟩
  obtain ⟨shift, hshift⟩ := hshift
  have hloads : ∀ x ∈ labelledTwice, x.1.Loads x.2 := by
    simp only [labelledTwice, forall_mem_cons]
    exact ⟨⟨fun _ => rfl, by decide, fun e he => by cases he⟩,
      ⟨fun _ => rfl, by decide, fun e he => by cases he⟩, by simp⟩
  have hunits : ∀ x ∈ labelledTwice, ∃ u, labelled.get? x.1.unit = some u ∧
      u.hasErrors = false := by
    simp only [labelledTwice, forall_mem_cons]
    exact ⟨⟨_, rfl, rfl⟩, ⟨_, rfl, rfl⟩, by simp⟩
  have hapart : Ascend 0 (labelledTwice.map moduleSegment) := ⟨by decide, by decide, trivial⟩
  have hgives := gives_planLink moving {} rfl hshift hloads hunits hmerge
    (placeModules_ok _ _ rfl labelledTwice none 0 hapart) []
  rcases hplan : (planLink moving labelled (labelledTwice.map Prod.fst) {}).run.run [] with
    ⟨result, log⟩
  rw [hplan] at hgives
  cases hgives
  obtain ⟨linked, s', hlink, hheader, -⟩ := link_of_planLink (s := ⟨labelled, [], []⟩) hplan
  have hlength : linked.headerLength = 52 := by
    rw [hheader, stub_eq]
    rfl
  have hmoved := link_moves_addresses_once sound_labelled hlink
  rw [hlength] at hmoved
  exact ⟨linked, s', hlink, hlength, hmoved⟩

end WordAsm
