/-
# What handles of symbols denote

The handle that a definition returns denotes the symbol that was defined, under whatever name
and at whatever address, until its store is cleared or gone. A store that is gone does not come
back; but a store that is cleared is still there and counts its symbols from the beginning, and
identities of stores are counted with 32 bits, so in the end they come again. In both cases the
same handle is returned for another symbol (`handle_returned_twice`).

What one step does to the stores is `LeadsTo`. As long as the identity of a store is given out
once (`Workbench.made`), there is no other store with it (`Workbench.Tidy.population_run`), and what
a handle denotes after a run follows by induction (`Workbench.Denotes.run`).
-/
import WordAsm.Proofs.SymbolRuns

namespace WordAsm

open List

namespace Workbench

variable {s : Store} {store : StoreId} {step : TableStep} {d d' : Workbench}
  {cleared : StoreId → Prop} {new : List StoreId} {id : SymbolId} {x : Symbol}

/-- The symbol that a handle denotes, in the table or apart from it. -/
def symbol? (d : Workbench) (id : SymbolId) : Option Symbol := d.stores.findSome? (·.symbol? id)

def clearsIn (d : Workbench) : List TableStep → StoreId → Prop
  | [], _ => False
  | step :: steps, store => d.clears step store ∨ (d.step step).2.clearsIn steps store

/-- The identities that a run gives to its stores. -/
def made (d : Workbench) : List TableStep → List StoreId
  | [] => []
  | step :: steps => d.makes step ++ (d.step step).2.made steps

/-- The handle that a step returns, with the symbol that it defines. -/
def returns (d : Workbench) : TableStep → Option (SymbolId × Symbol)
  | .define symbol => (d.table.define symbol).1.toOption.map (·, symbol)
  | .edit index (.define symbol) =>
    d.loose[index]?.bind fun s => (s.define symbol).toOption.map fun result => (result.1, symbol)
  | _ => none

/-! ### Identities -/

/-- How many stores have that identity. -/
def population (d : Workbench) (store : StoreId) : ℕ := d.stores.countP (·.id == store)

theorem made_append (d : Workbench) (steps steps' : List TableStep) :
    d.made (steps ++ steps') = d.made steps ++ (d.run steps).made steps' := by
  induction steps generalizing d with
  | nil => rfl
  | cons step steps ih => rw [cons_append, made, made, ih, append_assoc]; rfl

theorem Tidy.population_run (h : d.Tidy) (steps : List TableStep) (store : StoreId) :
    (d.run steps).population store ≤ d.population store + (d.made steps).count store := by
  induction steps generalizing d with
  | nil => exact Nat.le_add_right _ _
  | cons step steps ih =>
    have hstep := (h.leadsTo_step step).ids store
    have hrest := ih (h.step step)
    rw [made, count_append]
    exact hrest.trans (by unfold population; omega)

theorem eq_of_population (h : d.population store ≤ 1) {r : Store} (hs : s ∈ d.stores)
    (hr : r ∈ d.stores) (hid : s.id = store) (hid' : r.id = store) : s = r := by
  rw [population, countP_eq_length_filter] at h
  have hs' : s ∈ d.stores.filter (·.id == store) := mem_filter.mpr ⟨hs, beq_iff_eq.mpr hid⟩
  have hr' : r ∈ d.stores.filter (·.id == store) := mem_filter.mpr ⟨hr, beq_iff_eq.mpr hid'⟩
  generalize d.stores.filter (·.id == store) = found at h hs' hr'
  match found, h with
  | [q], _ => rw [mem_singleton.mp hs', mem_singleton.mp hr']

theorem symbol?_eq_some_iff (h : d.population id.store ≤ 1) :
    d.symbol? id = some x ↔ ∃ s ∈ d.stores, s.symbol? id = some x := by
  refine ⟨exists_of_findSome?_eq_some, fun ⟨s, hs, hx⟩ => ?_⟩
  cases hfind : d.symbol? id with
  | none =>
    rw [findSome?_eq_none_iff.mp hfind s hs] at hx
    cases hx
  | some y =>
    obtain ⟨r, hr, hy⟩ := exists_of_findSome?_eq_some hfind
    obtain rfl := eq_of_population h hr hs (Store.store_of_symbol? hy).symm
      (Store.store_of_symbol? hx).symm
    exact hy.symm.trans hx

/-! ### What a handle denotes -/

/-- The handle denotes the symbol `x`, perhaps under another name or at another address. -/
def Denotes (d : Workbench) (id : SymbolId) (x : Symbol) : Prop :=
  (d.symbol? id).map Symbol.essence = some x.essence

def Gone (d : Workbench) (store : StoreId) : Prop := ∀ s ∈ d.stores, s.id ≠ store

theorem Gone.symbol?_eq_none (h : d.Gone id.store) : d.symbol? id = none :=
  findSome?_eq_none_iff.mpr fun s hs => if_neg fun hid => h s hs hid.symm

theorem Gone.next (h : d.Gone store) (hnext : LeadsTo cleared new d.stores d'.stores)
    (hnew : store ∉ new) : d'.Gone store := by
  intro s' hs' hid
  rcases hnext.kept s' hs' with ⟨hmade, -⟩ | ⟨s, hs, hgrows | ⟨⟨hsame, -⟩, -⟩⟩
  · exact hnew (hid ▸ hmade)
  · exact h s hs (hgrows.id.symm.trans hid)
  · exact h s hs (hsame.symm.trans hid)

theorem Gone.run (hd : d.Tidy) (h : d.Gone store) {steps : List TableStep}
    (hmade : store ∉ d.made steps) : (d.run steps).Gone store := by
  induction steps generalizing d with
  | nil => exact h
  | cons step steps ih =>
    rw [made, mem_append, not_or] at hmade
    exact ih (hd.step step) (h.next (hd.leadsTo_step step) hmade.1) hmade.2

theorem Denotes.next (h : d.Denotes id x) (hnext : LeadsTo cleared new d.stores d'.stores)
    (hnew : id.store ∉ new) (hone : d.population id.store ≤ 1)
    (hone' : d'.population id.store ≤ 1) :
    cleared id.store ∨ d'.Gone id.store ∨ d'.Denotes id x := by
  obtain ⟨y, hy, hsame⟩ := Option.map_eq_some_iff.mp h
  obtain ⟨s, hs, hy⟩ := (symbol?_eq_some_iff hone).mp hy
  obtain ⟨hid, hslot⟩ := Store.symbol?_eq_some.mp hy
  by_cases hgone : d'.Gone id.store
  · exact .inr (.inl hgone)
  unfold Gone at hgone
  push Not at hgone
  obtain ⟨s', hs', hid'⟩ := hgone
  rcases hnext.kept s' hs' with ⟨hmade, -⟩ | ⟨r, hr, hgrows | ⟨⟨hrid, -⟩, hcleared⟩⟩
  · exact absurd (hid' ▸ hmade) hnew
  · obtain rfl := eq_of_population hone hr hs (hgrows.id.symm.trans hid') hid.symm
    obtain ⟨z, hz, hess⟩ := Option.map_eq_some_iff.mp (hgrows.symbols id.slot y hslot)
    refine .inr (.inr ?_)
    rw [Denotes, (symbol?_eq_some_iff hone').mpr
      ⟨s', hs', Store.symbol?_eq_some.mpr ⟨hid'.symm, hz⟩⟩, Option.map_some, hess, hsame]
  · exact .inl (hrid.symm.trans hid' ▸ hcleared)

/-- **Over a run**, a handle denotes the same symbol all the time, or its store has been cleared
or is gone. -/
theorem Denotes.run (hd : d.Tidy) (h : d.Denotes id x) (hone : d.population id.store ≤ 1)
    {steps : List TableStep} (hmade : id.store ∉ d.made steps) :
    d.clearsIn steps id.store ∨ (d.run steps).Gone id.store ∨
      ∀ n ≤ steps.length, (d.run (steps.take n)).Denotes id x := by
  induction steps generalizing d with
  | nil => exact .inr (.inr fun n _ => by rwa [take_nil])
  | cons step steps ih =>
    rw [made, mem_append, not_or] at hmade
    have hfollows := hd.leadsTo_step step
    have hone' : (d.step step).2.population id.store ≤ 1 := by
      have hids := hfollows.ids id.store
      rw [count_eq_zero.mpr hmade.1] at hids
      exact hids.trans hone
    rcases h.next hfollows hmade.1 hone hone' with hcleared | hgone | hdenotes
    · exact .inl (.inl hcleared)
    · exact .inr (.inl (hgone.run (hd.step step) hmade.2))
    · rcases ih (hd.step step) hdenotes hone' hmade.2 with hcleared | hgone | hall
      · exact .inl (.inr hcleared)
      · exact .inr (.inl hgone)
      · refine .inr (.inr fun n hn => ?_)
        cases n with
        | zero => exact h
        | succ n => exact hall n (Nat.le_of_succ_le_succ hn)

/-! ### What definitions return -/

/-- **A handle that is returned** is the next one of a store, which may be new, and the symbol
is put there. -/
theorem returns_cases (h : d.returns step = some (id, x)) :
    ∃ s s', (s ∈ d.stores ∨ s.id ∈ d.makes step) ∧ id = s.handle s.symbols.length ∧
      s' ∈ (d.step step).2.stores ∧ s.Becomes (s.symbols ++ [x]) s' := by
  cases step with
  | define symbol =>
    obtain ⟨i, hi, heq⟩ := Option.map_eq_some_iff.mp h
    cases heq
    rcases d.table.define_cases x with ⟨e, -, heq | heq⟩ | ⟨-, s', hs', heq⟩ <;> rw [heq] at hi <;>
      cases hi
    refine ⟨_, s', ?_, rfl, mem_append_left _ ?_, hs'⟩
    · rcases d.table.register_cases x.unit with ⟨s, hs, -, hregister⟩ | ⟨-, hregister⟩
      · exact .inl (mem_append_left _ (hregister ▸ hs))
      · have hmakes : d.makes (.define x) = [d.table.supply] := by
          refine Table.given_next ?_
          rw [operate, heq, Table.supply_put, hregister]
        rw [hmakes, hregister]
        exact .inr (mem_singleton_self _)
    · rw [Workbench.step, operate, heq]
      exact Table.mem_put.mpr (.inl rfl)
  | edit index change =>
    cases change with
    | define symbol =>
      obtain ⟨s, hs, h⟩ := Option.bind_eq_some_iff.mp h
      obtain ⟨⟨i, s'⟩, hdefine, heq⟩ := Option.map_eq_some_iff.mp h
      cases heq
      have hok := eq_ok_of_toOption hdefine
      obtain ⟨rfl, hbecomes⟩ := Store.eq_of_define hok
      refine ⟨s, s', .inl (mem_append_right _ (mem_of_getElem? hs)), rfl, mem_append_right _ ?_,
        hbecomes⟩
      simp only [Workbench.step, operate, wrap, hs, StoreEdit.apply, hok]
      exact mem_set (List.getElem?_eq_some_iff.mp hs).1 _
    | _ => cases h
  | _ => cases h

theorem symbol?_of_returns (hone : (d.step step).2.population id.store ≤ 1)
    (hreturns : d.returns step = some (id, x)) : (d.step step).2.symbol? id = some x := by
  obtain ⟨s, s', -, rfl, hmem, hs⟩ := returns_cases hreturns
  refine (symbol?_eq_some_iff hone).mpr ⟨s', hmem, Store.symbol?_eq_some.mpr ⟨hs.id.symm, ?_⟩⟩
  rw [hs.symbols]
  exact getElem?_concat_length

/-- **A handle is not returned again**, unless a store gets the identity again. -/
theorem makes_of_returns (hone : d.population id.store ≤ 1) (hid : d.Gone id.store ∨ d.Denotes id x)
    {y : Symbol} (hreturns : d.returns step = some (id, y)) : id.store ∈ d.makes step := by
  obtain ⟨s, -, hs, rfl, -⟩ := returns_cases hreturns
  refine hs.resolve_left fun hs => ?_
  rcases hid with hgone | hdenotes
  · exact hgone s hs rfl
  · obtain ⟨z, hz, -⟩ := Option.map_eq_some_iff.mp hdenotes
    obtain ⟨r, hr, hz⟩ := (symbol?_eq_some_iff hone).mp hz
    obtain ⟨hsame, hslot⟩ := Store.symbol?_eq_some.mp hz
    obtain rfl := eq_of_population hone hs hr rfl hsame.symm
    exact absurd (List.getElem?_eq_some_iff.mp hslot).1 (Nat.lt_irrefl _)

theorem Tidy.define_local (h : d.Tidy) {symbol : Symbol} {scope : SymbolId}
    (hone : d.population scope.store ≤ 1) (hscope : symbol.scope = some scope) :
    (∃ g, d.symbol? scope = some g ∧ g.isGlobal = true ∧
      ∃ id, (d.table.define symbol).1 = .ok id ∧ id.store = scope.store ∧
        (d.step (.define symbol)).2.symbol? id = some symbol) ∨
    (d.table.define symbol).1 = .error (.invalidScope symbol.name) ∨
    (d.table.define symbol).1 = .error (.duplicateSymbol symbol.name) ∧
      (d.table.find? symbol.name (some scope)).isSome := by
  have hglobal : ¬ (symbol.isGlobal && (d.table.global? symbol.name).isSome) = true := by
    simp [Symbol.isGlobal, hscope]
  rcases (d.table.register symbol.unit).1.define_cases symbol with ⟨-, heq⟩ | ⟨hadmits, hrest⟩
  · rw [Table.define, if_neg hglobal]
    simp only [heq]
    exact .inr (.inl trivial)
  -- the store has the scope, so it was there before
  simp only [Store.admits, hscope, Bool.and_eq_true, Option.any_eq_true] at hadmits
  obtain ⟨-, g, hg, houter⟩ := hadmits
  have hid := Store.store_of_symbol? hg
  obtain ⟨r, hr, -, hregister⟩ | ⟨-, hregister⟩ := d.table.register_cases symbol.unit
  swap
  · rw [hregister] at hg
    cases Store.mem_of_symbol? hg
  rw [hregister] at hrest hg hid
  have hmem : r ∈ d.stores := mem_append_left _ hr
  rcases hrest with ⟨hin, heq⟩ | ⟨-, s', heq, hs'⟩
  · refine .inr (.inr ⟨?_, ?_⟩)
    · rw [Table.define, if_neg hglobal, hregister]
      simp only [heq]
    · obtain ⟨q, hq⟩ : ∃ q, d.table.owner? scope = some q :=
        Option.isSome_iff_exists.mp (find?_isSome.mpr ⟨r, hr, beq_iff_eq.mpr hid.symm⟩)
      obtain ⟨hqt, hqid⟩ := Table.mem_of_owner? hq
      obtain rfl := eq_of_population hone (mem_append_left _ hqt) hmem hqid hid.symm
      rw [Table.find?, hq, Option.bind_some, Store.isSome_find?, ← hscope]
      exact hin
  · have hdefine : d.table.define symbol = (.ok (r.handle r.symbols.length), d.table.put s') := by
      rw [Table.define, if_neg hglobal, hregister]
      simp only [heq]
    have hmakes : d.makes (.define symbol) = [] := by
      refine Table.given_same ?_
      rw [operate, hdefine, Table.supply_put]
    have hone' : (d.step (.define symbol)).2.population scope.store ≤ 1 := by
      have hids := (h.leadsTo_step (.define symbol)).ids scope.store
      rw [hmakes, count_nil] at hids
      exact hids.trans hone
    refine .inl ⟨g, (symbol?_eq_some_iff hone).mpr ⟨r, hmem, hg⟩, houter, _,
      congrArg Prod.fst hdefine, hid.symm, symbol?_of_returns ?_ ?_⟩
    · exact (show (r.handle r.symbols.length).store = scope.store from hid.symm) ▸ hone'
    · rw [returns, hdefine]
      rfl

end Workbench

/-- **Handles of symbols** that a definition returns, after any run and followed by any run.
Unless the identity of the store is given out twice, or the store is cleared on the way, the
handle denotes the symbol all the time, perhaps under another name or at another address, or it
denotes nothing in the end; it is not returned again but by a step that gives out the identity
again; and a local symbol under it is put under the same symbol, or is refused, for its scope or
because there is another one of its name. -/
theorem handles_denote_until_cleared (before after : List TableStep) (step : TableStep)
    (id : SymbolId) (x : Symbol)
    (hreturns : (Workbench.run {} before).returns step = some (id, x)) :
    let d := ((Workbench.run {} before).step step).2
    let e := d.run after
    1 < (Workbench.made {} (before ++ step :: after)).count id.store ∨
    d.symbol? id = some x ∧ (d.clearsIn after id.store ∨
      (e.symbol? id = none ∨ ∀ n ≤ after.length,
        ((d.run (after.take n)).symbol? id).map Symbol.essence = some x.essence) ∧
      (∀ step' y, e.returns step' = some (id, y) → id.store ∈ e.makes step') ∧
      ∀ symbol : Symbol, symbol.scope = some id →
        (∃ g, e.symbol? id = some g ∧ g.essence = x.essence ∧ g.isGlobal = true ∧
          ∃ i, (e.table.define symbol).1 = .ok i ∧ i.store = id.store ∧
            (e.step (.define symbol)).2.symbol? i = some symbol) ∨
        (e.table.define symbol).1 = .error (.invalidScope symbol.name) ∨
        (e.table.define symbol).1 = .error (.duplicateSymbol symbol.name) ∧
          (e.table.find? symbol.name (some id)).isSome) := by
  intro d e
  refine or_iff_not_imp_left.mpr fun hcount => ?_
  have hbefore := Workbench.tidy_new.run before
  have hd : d.Tidy := hbefore.step step
  have he : e.Tidy := hd.run after
  -- the store is there, so its identity has been given out already
  have hrun : Workbench.run {} (before ++ [step]) = d := foldl_append
  have hmade : Workbench.made {} (before ++ step :: after) =
      Workbench.made {} (before ++ [step]) ++ d.made after := by
    rw [← hrun, ← Workbench.made_append, append_assoc]
    rfl
  have hpopulation := Workbench.tidy_new.population_run (before ++ [step]) id.store
  rw [hrun] at hpopulation
  rw [hmade, count_append] at hcount
  have hexists : 0 < d.population id.store := by
    obtain ⟨s, s', -, rfl, hmem, hs⟩ := Workbench.returns_cases hreturns
    exact countP_pos_iff.mpr ⟨s', hmem, beq_iff_eq.mpr hs.id⟩
  have hzero : Workbench.population {} id.store = 0 := rfl
  have hafter : id.store ∉ d.made after := by
    rw [← count_eq_zero]
    omega
  have hone : d.population id.store ≤ 1 := by omega
  have hone' : e.population id.store ≤ 1 := by
    have hrest := hd.population_run after id.store
    rw [count_eq_zero.mpr hafter] at hrest
    exact hrest.trans hone
  have hx : d.symbol? id = some x := Workbench.symbol?_of_returns hone hreturns
  have hdenotes : d.Denotes id x := congrArg (Option.map Symbol.essence) hx
  refine ⟨hx, ?_⟩
  rcases hdenotes.run hd hone hafter with hcleared | hlater
  · exact .inl hcleared
  right
  have hend : e.Gone id.store ∨ e.Denotes id x :=
    hlater.imp_right fun hall => by simpa using hall after.length (Nat.le_refl _)
  refine ⟨hlater.imp_left Workbench.Gone.symbol?_eq_none,
    fun step' y => Workbench.makes_of_returns hone' hend, fun symbol hscope => ?_⟩
  refine (he.define_local hone' hscope).imp_left fun ⟨g, hg, hrest⟩ => ⟨g, hg, ?_, hrest⟩
  rcases hend with hgone | hsame
  · cases hg.symm.trans hgone.symbol?_eq_none
  · rw [Workbench.Denotes, hg] at hsame
    exact Option.some.inj hsame

/-- The store of a symbol is replaced by a copy of it: the handle of the symbol denotes nothing,
and nothing can be put under it. -/
theorem handles_denote_until_cleared_copied :
    let a := Symbol.label "a" 0 ⟨0, 0, 0, 1⟩
    let d := ((Workbench.run {} []).step (.define a)).2
    let e := d.run [.rename ⟨1, 0⟩ "c", .copyUnit 0, .adopt 0]
    (Workbench.run {} []).returns (.define a) = some (⟨1, 0⟩, a) ∧
    e.symbol? ⟨1, 0⟩ = none ∧ e.symbol? ⟨2, 0⟩ = some { a with name := "c" } ∧
    (e.table.define { Symbol.label "x" 0 ⟨1, 1, 0, 1⟩ with scope := some ⟨1, 0⟩ }).1 =
      .error (.invalidScope "x") ∧
    ∀ step y, e.returns step = some (⟨1, 0⟩, y) → 1 ∈ e.makes step := by
  intro a d e
  have hreturns : (Workbench.run {} []).returns (.define a) = some (⟨1, 0⟩, a) := by
    decide +kernel
  have honce : ¬ 1 < (Workbench.made {} ([] ++ .define a ::
      [.rename ⟨1, 0⟩ "c", .copyUnit 0, .adopt 0])).count 1 := by decide +kernel
  obtain ⟨-, hlater⟩ := (handles_denote_until_cleared []
    [.rename ⟨1, 0⟩ "c", .copyUnit 0, .adopt 0] (.define a) ⟨1, 0⟩ a hreturns).resolve_left honce
  refine ⟨hreturns, by decide +kernel, by decide +kernel, by decide +kernel, ?_⟩
  rcases hlater with (h | h | h | h) | ⟨-, hnever, -⟩
  · exact h.elim
  · exact h.elim
  · exact h.elim
  · exact h.elim
  · exact hnever

/-- **A handle may be returned twice.** After a unit is cleared, its next symbol gets the handle
of its first one, and a local symbol under the old handle is put under the new symbol. After
2³² stores the first symbol of a store gets the handle of the first symbol of another one, which
still denotes that. -/
theorem handle_returned_twice :
    let a := Symbol.label "a" 0 ⟨0, 0, 0, 1⟩
    let b := Symbol.label "b" 0 ⟨2, 1, 0, 1⟩
    let d := Workbench.run {} [.define a, .clearUnit 0]
    let e := Workbench.run {} [.define a, .elsewhere 0xFFFFFFFF]
    (Workbench.run {} []).returns (.define a) = some (⟨1, 0⟩, a) ∧
    d.symbol? ⟨1, 0⟩ = none ∧ d.returns (.define b) = some (⟨1, 0⟩, b) ∧
    ((d.step (.define b)).2.table.define
      { Symbol.label "x" 0 ⟨4, 2, 0, 1⟩ with scope := some ⟨1, 0⟩ }).1 = .ok ⟨1, 1⟩ ∧
    e.symbol? ⟨1, 0⟩ = some a ∧
    e.returns (.define { b with unit := 1 }) = some (⟨1, 0⟩, { b with unit := 1 }) := by
  decide +kernel

end WordAsm
