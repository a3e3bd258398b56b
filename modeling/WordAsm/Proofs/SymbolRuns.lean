/-
# Runs of operations on a symbol table

Symbols are defined and renamed, stores are made apart from the table, copied and taken
in, units are cleared and labels get addresses, in any order and any number of times. A
`Workbench` is a table with the stores that are apart from it, and a `TableStep` is one
such operation, which may fail. Identities of stores are counted with 32 bits, and other
tables take theirs from the same supply, so a long run may come to an identity again.

Every step keeps names tidy whatever the identities are (`Workbench.Tidy.step`), and so does
every run (`Workbench.Tidy.run`). What becomes of the stores is `LeadsTo`: each is one from
before, with all its symbols or cleared, or it is new and has the identity that the step has
given out (`Workbench.Tidy.leadsTo_step`). What follows for names, for renaming and for steps
that fail is `runs_keep_names_tidy`.
-/
import WordAsm.Proofs.Attempts
import WordAsm.Proofs.Names
import Mathlib.Data.List.Perm.Subperm

namespace WordAsm

open List

/-- A symbol table, and stores apart from it. -/
structure Workbench where
  table : Table := {}
  loose : List Store := []
  deriving DecidableEq

/-- What may be done to a store that is apart from the table. -/
inductive StoreEdit
  | define (symbol : Symbol)
  | rename (id : SymbolId) (name : String)
  | assign (id : SymbolId) (address : Option Address)
  | clear

def StoreEdit.apply : StoreEdit → Store → Except Error Unit × Store
  | define symbol, s =>
    match s.define symbol with
    | .ok (_, s') => (.ok (), s')
    | .error e => (.error e, s)
  | rename id name, s => s.rename id name
  | assign id address, s => (.ok (), s.modify id (·.withAddress address))
  | clear, s => (.ok (), s.clear)

/-- What may be done to a table and to the stores apart from it, which go by their
positions. -/
inductive TableStep
  | register (unit : UnitId)
  | define (symbol : Symbol)
  | rename (id : SymbolId) (name : String)
  | assign (id : SymbolId) (address : Option Address)
  | clearUnit (unit : UnitId)
  | clear
  /-- Makes an empty store apart from the table. -/
  | create (unit : UnitId)
  | edit (index : ℕ) (change : StoreEdit)
  /-- Copies a store that is apart from the table. -/
  | copyLoose (index : ℕ)
  /-- Copies the store that the table has for a unit. -/
  | copyUnit (unit : UnitId)
  /-- Moves a store into the table. If the table refuses it, it is gone all the same. -/
  | adopt (index : ℕ)
  /-- So many stores are made for other tables. -/
  | elsewhere (count : ℕ)

/-- The identity that has been given out on the way from `t` to `t'`, if there is one. -/
def Table.given (t t' : Table) : List StoreId :=
  if t'.supply = t.supply then [] else [t.supply]

namespace Workbench

def copy (d : Workbench) (s : Store) : Except Error Unit × Workbench :=
  match s.copy d.table.supply with
  | .ok copied => (.ok (), { table := d.table.fresh.2, loose := d.loose ++ [copied] })
  | .error e => (.error e, { d with table := d.table.fresh.2 })

/-- What a step does, with a supply of identities that never ends. -/
def operate (d : Workbench) : TableStep → Except Error Unit × Workbench
  | .register unit => (.ok (), { d with table := (d.table.register unit).2 })
  | .define symbol =>
    ((d.table.define symbol).1.map fun _ => (), { d with table := (d.table.define symbol).2 })
  | .rename id name =>
    ((d.table.rename id name).1, { d with table := (d.table.rename id name).2 })
  | .assign id address =>
    (.ok (), { d with table := d.table.modify id (·.withAddress address) })
  | .clearUnit unit => (.ok (), { d with table := d.table.clearUnit unit })
  | .clear => (.ok (), { d with table := d.table.clear })
  | .create unit =>
    (.ok (), { table := d.table.fresh.2, loose := d.loose ++ [{ id := d.table.supply, unit }] })
  | .edit index change =>
    match d.loose[index]? with
    | none => (.ok (), d)
    | some s => ((change.apply s).1, { d with loose := d.loose.set index (change.apply s).2 })
  | .copyLoose index =>
    match d.loose[index]? with
    | none => (.ok (), d)
    | some s => d.copy s
  | .copyUnit unit =>
    match d.table.store? unit with
    | none => (.ok (), d)
    | some s => d.copy s
  | .adopt index =>
    match d.loose[index]? with
    | none => (.ok (), d)
    | some s =>
      match d.table.adopt s with
      | .ok table => (.ok (), { table, loose := d.loose.eraseIdx index })
      | .error e => (.error e, { d with loose := d.loose.eraseIdx index })
  | .elsewhere count => (.ok (), { d with table.supply := d.table.supply + count })

/-- The supply of identities starts again behind 32 bits. -/
def wrap (d : Workbench) : Workbench :=
  { d with table.supply := (UInt32.ofNat d.table.supply).toNat }

def step (d : Workbench) (step : TableStep) : Except Error Unit × Workbench :=
  ((d.operate step).1, (d.operate step).2.wrap)

/-- Takes steps one after another, whether they fail or not. -/
def run (d : Workbench) (steps : List TableStep) : Workbench :=
  steps.foldl (fun d step => (d.step step).2) d

def stores (d : Workbench) : List Store := d.table.stores ++ d.loose

/-- The table is tidy, and no macro is under a global symbol. -/
structure Tidy (d : Workbench) : Prop where
  table : d.table.Tidy
  plain : ∀ s ∈ d.stores, s.PlainLocals

/-- The identity that a step gives to a store of its own, if it makes one. -/
def makes (d : Workbench) : TableStep → List StoreId
  | .elsewhere _ => []
  | step => d.table.given (d.operate step).2.table

def clears (d : Workbench) : TableStep → StoreId → Prop
  | .clearUnit unit, store => ∃ s ∈ d.table.stores, s.unit = unit ∧ s.id = store
  | .edit index .clear, store => ∃ s, d.loose[index]? = some s ∧ s.id = store
  | _, _ => False

end Workbench

/-! ### What stores keep -/

/-- What a symbol keeps: all but its name and, if it is a label, its address. -/
def Symbol.essence (x : Symbol) : Symbol := { x with name := "" }.withAddress none

namespace Store

variable {s s' : Store} {id : SymbolId} {x : Symbol} {name : String}

/-- `s'` has the symbols of `s` in their places, and perhaps more. -/
structure Grows (s s' : Store) : Prop where
  id : s'.id = s.id
  symbols : ∀ (slot : ℕ) (x : Symbol), s.symbols[slot]? = some x →
    (s'.symbols[slot]?).map Symbol.essence = some x.essence
  plain : s.PlainLocals → s'.PlainLocals

theorem Grows.refl (s : Store) : s.Grows s := ⟨rfl, fun slot x hx => by rw [hx]; rfl, fun hs => hs⟩

theorem Grows.trans {r : Store} (h : r.Grows s) (h' : s.Grows s') : r.Grows s' := by
  refine ⟨h'.id.trans h.id, fun slot x hx => ?_, fun hr => h'.plain (h.plain hr)⟩
  obtain ⟨y, hy, hsame⟩ := Option.map_eq_some_iff.mp (h.symbols slot x hx)
  exact hsame ▸ h'.symbols slot y hy

theorem grows_append (h : s.Becomes (s.symbols ++ [x]) s') (hx : s.admits x = true) :
    s.Grows s' := by
  refine ⟨h.id, fun slot y hy => ?_, fun hs y hy hkind => ?_⟩
  · rw [h.symbols, getElem?_append_left (List.getElem?_eq_some_iff.mp hy).1, hy]
    rfl
  · rw [h.symbols] at hy
    rcases mem_append.mp hy with hy | hy
    · exact hs y hy hkind
    · rw [mem_singleton.mp hy] at hkind ⊢
      unfold admits at hx
      split at hx
      · rename_i hscope
        rw [Symbol.isGlobal, hscope]
        rfl
      · simp [hkind] at hx

theorem grows_define {result : SymbolId × Store} (h : s.define x = .ok result) :
    s.Grows result.2 := by
  rcases s.define_cases x with ⟨-, he⟩ | ⟨hadmits, ⟨-, he⟩ | ⟨-, r, he, hr⟩⟩ <;> rw [h] at he <;>
    cases he
  exact grows_append hr hadmits

theorem Renaming.grows {outcome : Except Error Unit} (h : s.Renaming id x name outcome s')
    (hx : s.symbol? id = some x) : s.Grows s' := by
  obtain ⟨-, hslot⟩ := symbol?_eq_some.mp hx
  refine ⟨h.id, fun slot y hy => ?_, fun hs y hy => ?_⟩
  · rw [h.symbols]
    by_cases hi : id.slot = slot
    · subst hi
      obtain rfl := Option.mem_unique hslot hy
      rw [getElem?_set_self (List.getElem?_eq_some_iff.mp hy).1]
      rfl
    · rw [getElem?_set_ne hi, hy]
      rfl
  · rw [h.symbols] at hy
    rcases mem_or_eq_of_mem_set hy with hy | rfl
    · exact hs y hy
    · exact hs x (mem_of_symbol? hx)

theorem grows_rename (s : Store) (id : SymbolId) (name : String) :
    s.Grows (s.rename id name).2 := by
  rcases s.rename_cases id name with ⟨-, h⟩ | ⟨x, hx, ⟨-, h⟩ | ⟨-, ⟨-, h⟩ | ⟨-, h⟩⟩⟩
  · exact h ▸ .refl s
  · exact h ▸ .refl s
  · exact h ▸ .refl s
  · exact h.grows hx

theorem plainLocals_mapKinds {f : SymbolId → SymbolKind → SymbolKind}
    (hf : ∀ i (x : Symbol), (x.mapKind (f i)).isMacro = x.isMacro) (hs : s.PlainLocals) :
    (s.mapKinds f).PlainLocals := by
  intro y hy hkind
  obtain ⟨slot, hslot, rfl⟩ := mem_mapIdx.mp hy
  rw [hf] at hkind
  exact hs s.symbols[slot] (getElem_mem hslot) hkind

theorem grows_assign (s : Store) (id : SymbolId) (address : Option Address) :
    s.Grows (s.modify id (·.withAddress address)) := by
  have hkept : ∀ i (x : Symbol), (x.mapKind fun kind => if i = id then kind.withAddress address
      else kind).essence = x.essence ∧ (x.mapKind fun kind => if i = id then
        kind.withAddress address else kind).isMacro = x.isMacro := by
    intro i ⟨name, unit, location, scope, kind⟩
    split
    · cases kind <;> exact ⟨rfl, rfl⟩
    · exact ⟨rfl, rfl⟩
  refine ⟨rfl, fun slot x hx => ?_, plainLocals_mapKinds fun i x => (hkept i x).2⟩
  have hmoved : (s.modify id (·.withAddress address)).symbols[slot]? = s.symbols[slot]?.map
      (Symbol.mapKind fun kind => if s.handle slot = id then kind.withAddress address else kind) :=
    getElem?_mapIdx
  rw [hmoved, hx]
  exact congrArg some (hkept _ x).1

theorem grows_edit {change : StoreEdit} (hchange : change ≠ .clear) :
    s.Grows (change.apply s).2 := by
  cases change with
  | define symbol =>
    rw [StoreEdit.apply]
    split
    · exact grows_define ‹_›
    · exact .refl s
  | rename id name => exact s.grows_rename id name
  | assign id address => exact s.grows_assign id address
  | clear => exact absurd rfl hchange

theorem grows_defineFamily {symbol : Symbol} {locals : List Symbol}
    (hok : s.defineFamily symbol locals = .ok s') : s.Grows s' := by
  unfold Store.defineFamily at hok
  split at hok
  · cases hok
  · rename_i hfirst
    refine foldlM_induct (P := s.Grows) (fun a x a' ha hx => ?_) (grows_define hfirst) hok
    obtain ⟨y, -, hx⟩ := bind_eq_ok hx
    obtain ⟨result, hy, hx⟩ := bind_eq_ok hx
    cases hx
    exact ha.trans (grows_define hy)

theorem copy_spec {new : StoreId} (hok : s.copy new = .ok s') : s'.id = new ∧ s'.PlainLocals := by
  obtain ⟨target, htarget, hok⟩ := bind_eq_ok hok
  cases hok
  have hgrows : Grows { id := new, unit := s.unit } target :=
    foldlM_induct (P := Grows _) (fun a x a' ha hx => ha.trans (grows_defineFamily hx)) (.refl _)
      htarget
  refine ⟨hgrows.id, plainLocals_mapKinds (fun i x => ?_) (hgrows.plain fun x hx => by cases hx)⟩
  obtain ⟨name, unit, location, scope, kind⟩ := x
  cases kind <;> rfl

end Store

/-- What becomes of stores: each is one from before, with all its symbols or cleared, or has a
new identity; and apart from new ones, no identity comes more often than before. -/
structure LeadsTo (cleared : StoreId → Prop) (new : List StoreId)
    (stores stores' : List Store) : Prop where
  kept : ∀ s' ∈ stores', (s'.id ∈ new ∧ s'.PlainLocals) ∨
    ∃ s ∈ stores, s.Grows s' ∨ (s'.id = s.id ∧ s'.symbols = []) ∧ cleared s.id
  ids : ∀ i, stores'.countP (·.id == i) ≤ stores.countP (·.id == i) + new.count i

namespace LeadsTo

variable {cleared : StoreId → Prop} {new : List StoreId} {a a' b l : List Store}
  {s s' : Store}

theorem countP_eq {R : Store → Store → Prop} (hR : ∀ s s', R s s' → s'.id = s.id)
    (h : Forall₂ R a b) (i : StoreId) : b.countP (·.id == i) = a.countP (·.id == i) := by
  induction h with
  | nil => rfl
  | cons hss _ ih => rw [countP_cons, countP_cons, ih, hR _ _ hss]

theorem of_forall₂ (h : Forall₂ (fun s s' : Store =>
    s.Grows s' ∨ (s'.id = s.id ∧ s'.symbols = []) ∧ cleared s.id) a b) : LeadsTo cleared [] a b := by
  refine ⟨fun s' hs' => ?_, fun i => ?_⟩
  · obtain ⟨s, hs, hss⟩ := forall₂_mem_right h hs'
    exact .inr ⟨s, hs, hss⟩
  · exact Nat.le_of_eq (countP_eq (fun s s' hss => hss.elim (·.id) (·.1.1)) h i)

theorem of_subperm (h : b <+~ a) : LeadsTo cleared [] a b :=
  ⟨fun s hs => .inr ⟨s, h.subset hs, .inl (.refl s)⟩, fun _ => h.countP_le _⟩

theorem refl (a : List Store) : LeadsTo cleared [] a a := of_subperm (.refl a)

theorem concat (a : List Store) (hs : s.PlainLocals) :
    LeadsTo cleared [s.id] a (a ++ [s]) := by
  refine ⟨fun s' hs' => ?_, fun i => ?_⟩
  · rcases mem_append.mp hs' with hs' | hs'
    · exact .inr ⟨s', hs', .inl (.refl s')⟩
    · rw [mem_singleton.mp hs']
      exact .inl ⟨mem_singleton_self _, hs⟩
  · simp [countP_append, countP_singleton, count_singleton]

theorem grow (h : LeadsTo (fun _ => False) new a a') (h' : Forall₂ Store.Grows a' b) :
    LeadsTo cleared new a b := by
  refine ⟨fun s' hs' => ?_, fun i => countP_eq (fun _ _ hss => hss.id) h' i ▸ h.ids i⟩
  obtain ⟨r, hr, hrs⟩ := forall₂_mem_right h' hs'
  rcases h.kept r hr with ⟨hnew, hplain⟩ | ⟨q, hq, hqr | ⟨-, hnever⟩⟩
  · exact .inl ⟨hrs.id ▸ hnew, hrs.plain hplain⟩
  · exact .inr ⟨q, hq, .inl (hqr.trans hrs)⟩
  · exact hnever.elim

theorem append_right (h : LeadsTo cleared new a b) (l : List Store) :
    LeadsTo cleared new (a ++ l) (b ++ l) := by
  refine ⟨fun s hs => ?_, fun i => ?_⟩
  · rcases mem_append.mp hs with hs | hs
    · exact (h.kept s hs).imp_right fun ⟨r, hr, hrs⟩ => ⟨r, mem_append_left _ hr, hrs⟩
    · exact .inr ⟨s, mem_append_right _ hs, .inl (.refl s)⟩
  · have hids := h.ids i
    rw [countP_append, countP_append]
    omega

theorem append_left (h : LeadsTo cleared new a b) (l : List Store) :
    LeadsTo cleared new (l ++ a) (l ++ b) := by
  refine ⟨fun s hs => ?_, fun i => ?_⟩
  · rcases mem_append.mp hs with hs | hs
    · exact .inr ⟨s, mem_append_left _ hs, .inl (.refl s)⟩
    · exact (h.kept s hs).imp_right fun ⟨r, hr, hrs⟩ => ⟨r, mem_append_right _ hr, hrs⟩
  · have hids := h.ids i
    rw [countP_append, countP_append]
    omega

end LeadsTo

/-! ### What tables keep -/

namespace Table

variable {t t' : Table} {s store : Store} {cleared : StoreId → Prop}

theorem given_same (h : t'.supply = t.supply) : t.given t' = [] := if_pos h

theorem given_next (h : t'.supply = t.supply + 1) : t.given t' = [t.supply] :=
  if_neg (h ▸ Nat.succ_ne_self _)

theorem leadsTo_register (t : Table) (unit : UnitId) :
    LeadsTo cleared (t.given (t.register unit).2) t.stores (t.register unit).2.stores := by
  rcases t.register_cases unit with ⟨s, -, -, heq⟩ | ⟨-, heq⟩ <;> rw [heq]
  · rw [given_same rfl]
    exact .refl _
  · rw [given_next rfl]
    exact .concat t.stores (s := { id := t.supply, unit, attached := true }) fun x hx => by cases hx

theorem Tidy.forall₂_put_back (h : t.Tidy) (hs : s ∈ t.stores) (hunit : store.unit = s.unit)
    (hgrows : s.Grows store) : Forall₂ Store.Grows t.stores (t.put store).stores := by
  rw [put_old hs hunit, forall₂_map_right_iff, forall₂_same]
  intro r hr
  by_cases hr' : r.unit = store.unit
  · rw [if_pos (beq_iff_eq.mpr hr'), h.unit_inj hr hs (hr'.trans hunit)]
    exact hgrows
  · rw [if_neg (by simpa using hr')]
    exact .refl r

theorem Tidy.leadsTo_define (h : t.Tidy) (symbol : Symbol) :
    LeadsTo cleared (t.given (t.define symbol).2) t.stores (t.define symbol).2.stores := by
  obtain ⟨hmem, -⟩ := t.register_spec symbol.unit
  rcases t.define_cases symbol with ⟨e, -, heq | heq⟩ | ⟨⟨-, hadmits⟩, s, hs, heq⟩ <;> rw [heq]
  · rw [given_same rfl]
    exact .refl _
  · exact t.leadsTo_register symbol.unit
  · have hgiven : t.given ((t.register symbol.unit).2.put s) = t.given (t.register symbol.unit).2 := by
      rw [given, given, supply_put]
    rw [hgiven]
    exact (t.leadsTo_register symbol.unit).grow ((h.register symbol.unit).forall₂_put_back hmem
      hs.unit (Store.grows_append hs hadmits))

theorem Tidy.leadsTo_rename (h : t.Tidy) (id : SymbolId) (name : String) :
    (t.rename id name).2.supply = t.supply ∧
      LeadsTo cleared [] t.stores (t.rename id name).2.stores := by
  rcases h.rename_cases id name with ⟨e, heq⟩ | ⟨s, x, outcome, s', howner, hx, -, hs, heq⟩ <;>
    rw [heq]
  · exact ⟨rfl, .refl _⟩
  · exact ⟨t.supply_put s', (LeadsTo.refl _).grow
      (h.forall₂_put_back (mem_of_owner? howner).1 hs.unit (hs.grows hx))⟩

/-- A store that is taken in comes beside those of other units. -/
theorem subperm_put (hput : (t.put store).Tidy) :
    (t.put store).stores <+~ store :: t.stores := by
  refine subperm_of_subset (Nodup.of_map _ hput.units) fun s hs => ?_
  rcases mem_put.mp hs with rfl | ⟨hs, -⟩
  · exact mem_cons_self
  · exact mem_cons_of_mem _ hs

end Table

/-! ### What steps keep -/

namespace Workbench

variable {t : Table} {index : ℕ} {id : SymbolId} {name : String} {e : Error}
  {d d' : Workbench} {cleared : StoreId → Prop} {s : Store}

theorem leadsTo_copy (d : Workbench) (s : Store) :
    LeadsTo cleared (d.table.given (d.copy s).2.table) d.stores (d.copy s).2.stores := by
  unfold copy
  cases hcopy : s.copy d.table.supply with
  | error e => exact ⟨fun r hr => .inr ⟨r, hr, .inl (.refl r)⟩, fun i => Nat.le_add_right _ _⟩
  | ok copied =>
    obtain ⟨hid, hplain⟩ := Store.copy_spec hcopy
    rw [Table.given_next rfl, ← hid]
    exact (LeadsTo.concat d.loose hplain).append_left d.table.stores

theorem leadsTo_edit (hs : d.loose[index]? = some s) (change : StoreEdit) :
    LeadsTo (d.clears (.edit index change)) [] d.loose (d.loose.set index (change.apply s).2) := by
  refine .of_forall₂ (forall₂_iff_get.mpr ⟨by simp, fun i hi hi' => ?_⟩)
  simp only [get_eq_getElem, getElem_set]
  by_cases hindex : index = i
  · subst hindex
    have hget := (List.getElem?_eq_some_iff.mp hs).2
    rw [if_pos rfl, hget]
    by_cases hchange : change = .clear
    · subst hchange
      exact .inr ⟨⟨rfl, rfl⟩, _, hs, rfl⟩
    · exact .inl (Store.grows_edit hchange)
  · rw [if_neg hindex]
    exact .inl (.refl _)

/-- **A store that is moved into the table** is no longer beside it. -/
theorem leadsTo_adopt (h : d.table.Tidy) (hs : d.loose[index]? = some s)
    (hok : d.table.adopt s = .ok t) : LeadsTo cleared [] d.stores (t.stores ++ d.loose.eraseIdx index) := by
  have hput := h.adopt hok
  obtain rfl := Table.adopt_eq hok
  have htable := Table.subperm_put hput
  obtain ⟨hlt, rfl⟩ := List.getElem?_eq_some_iff.mp hs
  have hloose := getElem_cons_eraseIdx_perm hlt
  refine ⟨fun r hr => .inr ?_, fun i => ?_⟩
  · rcases mem_append.mp hr with hr | hr
    · rcases mem_cons.mp (htable.subset hr) with rfl | hr
      · exact ⟨d.loose[index], mem_append_right _ (getElem_mem hlt),
          .inl ⟨rfl, fun slot x hx => by rw [hx]; rfl, fun hs => hs⟩⟩
      · exact ⟨r, mem_append_left _ hr, .inl (.refl r)⟩
    · exact ⟨r, mem_append_right _ ((eraseIdx_sublist ..).subset hr), .inl (.refl r)⟩
  · have hcount := htable.countP_le (·.id == i)
    have hcount' := hloose.countP_eq (·.id == i)
    rw [countP_cons] at hcount hcount'
    rw [stores, countP_append, countP_append, count_nil]
    dsimp only at hcount
    omega

theorem leadsTo_keeping {t' : Table} {stores stores' : List Store}
    (hsupply : t'.supply = t.supply) (h : LeadsTo cleared [] stores stores') :
    LeadsTo cleared (t.given t') stores stores' := by
  rw [Table.given_same hsupply]
  exact h

theorem Tidy.leadsTo_operate (h : d.Tidy) (step : TableStep) (hstep : ∀ n, step ≠ .elsewhere n) :
    LeadsTo (d.clears step) (d.table.given (d.operate step).2.table) d.stores
      (d.operate step).2.stores := by
  cases step with
  | register unit => exact (d.table.leadsTo_register unit).append_right d.loose
  | define symbol => exact (h.table.leadsTo_define symbol).append_right d.loose
  | rename id name =>
    obtain ⟨hsupply, hfollows⟩ := h.table.leadsTo_rename id name
    exact leadsTo_keeping hsupply (hfollows.append_right d.loose)
  | assign id address =>
    refine leadsTo_keeping rfl (LeadsTo.append_right (.of_forall₂ ?_) d.loose)
    exact forall₂_map_right_iff.mpr (forall₂_same.mpr fun s _ => .inl (s.grows_assign id address))
  | clearUnit unit =>
    refine leadsTo_keeping rfl (LeadsTo.append_right (.of_forall₂ ?_) d.loose)
    refine forall₂_map_right_iff.mpr (forall₂_same.mpr fun s hs => ?_)
    split
    · exact .inr ⟨⟨rfl, rfl⟩, s, hs, beq_iff_eq.mp ‹_›, rfl⟩
    · exact .inl (.refl s)
  | clear => exact leadsTo_keeping rfl (.of_subperm (sublist_append_right ..).subperm)
  | create unit =>
    rw [operate, Table.given_next rfl]
    exact (LeadsTo.concat d.loose (s := { id := d.table.supply, unit })
      fun x hx => by cases hx).append_left d.table.stores
  | edit index change =>
    rw [operate]
    cases hs : d.loose[index]? with
    | none => exact leadsTo_keeping rfl (.refl _)
    | some s => exact leadsTo_keeping rfl ((leadsTo_edit hs change).append_left d.table.stores)
  | copyLoose index =>
    rw [operate]
    cases d.loose[index]? with
    | none => exact leadsTo_keeping rfl (.refl _)
    | some s => exact d.leadsTo_copy s
  | copyUnit unit =>
    rw [operate]
    cases d.table.store? unit with
    | none => exact leadsTo_keeping rfl (.refl _)
    | some s => exact d.leadsTo_copy s
  | adopt index =>
    rw [operate]
    cases hs : d.loose[index]? with
    | none => exact leadsTo_keeping rfl (.refl _)
    | some s =>
      cases hok : d.table.adopt s with
      | error e =>
        simp only [hok]
        exact leadsTo_keeping rfl (.of_subperm ((eraseIdx_sublist ..).append_left _).subperm)
      | ok t =>
        simp only [hok]
        exact leadsTo_keeping (Table.adopt_eq hok ▸ Table.supply_put _ _)
          (leadsTo_adopt h.table hs hok)
  | elsewhere count => exact absurd rfl (hstep count)

/-- **What a step does to the stores**, in the table and beside it. -/
theorem Tidy.leadsTo_step (h : d.Tidy) (step : TableStep) :
    LeadsTo (d.clears step) (d.makes step) d.stores (d.step step).2.stores := by
  cases step with
  | elsewhere count => exact .refl _
  | _ => exact h.leadsTo_operate _ (by simp)

theorem Tidy.table_operate (h : d.Tidy) (step : TableStep) : (d.operate step).2.table.Tidy := by
  cases step with
  | register unit => exact h.table.register unit
  | define symbol => exact h.table.define symbol
  | rename id name => exact h.table.rename id name
  | assign id address => exact h.table.mapKinds _
  | clearUnit unit => exact h.table.clearUnit unit
  | clear => exact Table.tidy_of_nil rfl
  | create | elsewhere => exact h.table.of_stores rfl
  | edit index change =>
    rw [operate]
    split <;> exact h.table
  | copyLoose | copyUnit =>
    rw [operate]
    split
    · exact h.table
    · unfold copy
      split <;> exact h.table.of_stores rfl
  | adopt index =>
    rw [operate]
    split
    · exact h.table
    · split
      · exact h.table.adopt ‹_›
      · exact h.table

/-- **One step** keeps names tidy, whether it fails or not. -/
theorem Tidy.step (h : d.Tidy) (step : TableStep) : (d.step step).2.Tidy := by
  refine ⟨(h.table_operate step).of_stores rfl, fun s' hs' => ?_⟩
  rcases (h.leadsTo_step step).kept s' hs' with ⟨-, hplain⟩ | ⟨s, hs, hgrows | ⟨⟨-, hnil⟩, -⟩⟩
  · exact hplain
  · exact hgrows.plain (h.plain s hs)
  · intro x hx
    rw [hnil] at hx
    cases hx

/-- **A run** keeps names tidy. -/
theorem Tidy.run (h : d.Tidy) (steps : List TableStep) : (d.run steps).Tidy := by
  induction steps generalizing d with
  | nil => exact h
  | cons step steps ih => exact ih (h.step step)

theorem tidy_new : Tidy {} := ⟨Table.tidy_of_nil rfl, fun s hs => by cases hs⟩

theorem Tidy.renamed_of_step (h : d.Tidy) (hok : (d.step (.rename id name)).1 = .ok ()) :
    ∃ x, d.table.symbol? id = some x ∧
      d.table.Renamed id x name (d.step (.rename id name)).2.table := by
  have hcases := h.table.rename_cases id name
  rw [Workbench.step, operate] at hok ⊢
  rcases hcases with ⟨e, heq⟩ | ⟨s, x, outcome, s', howner, hx, hfree, hs, heq⟩
  · rw [heq] at hok
    cases hok
  · obtain ⟨h₁, h₂, h₃, h₄, h₅, h₆, h₇, h₈⟩ := h.table.renamed howner hx hfree hs
    rw [heq]
    exact ⟨x, by rw [Table.symbol?, howner, Option.bind_some, hx],
      h₁, h₂, h₃, h₄, h₅, h₆, h₇, h₈⟩

theorem sameAnswers_of_define {symbol : Symbol} (hfailed : (d.step (.define symbol)).1 = .error e) :
    d.table.SameAnswers (d.step (.define symbol)).2.table := by
  rcases hdefine : d.table.define symbol with ⟨outcome, t⟩
  rw [step, operate, hdefine] at hfailed ⊢
  cases outcome with
  | ok id => cases hfailed
  | error e' =>
    obtain ⟨empties, hstores, hempty⟩ := Table.stores_of_refused hdefine
    exact Table.sameAnswers_append hstores hempty

theorem Tidy.sameAnswers_of_rename (h : d.Tidy) (hfailed : (d.step (.rename id name)).1 = .error e) :
    d.table.SameAnswers (d.step (.rename id name)).2.table := by
  rw [Workbench.step, operate] at hfailed ⊢
  rcases h.table.rename_cases id name with ⟨e, heq⟩ | ⟨s, x, outcome, s', howner, -, -, hs, heq⟩ <;>
    rw [heq] at hfailed ⊢
  · exact Table.sameAnswers_append (append_nil _).symm (by simp)
  · -- the locals are no macros, so they can all be put under the symbol again
    have hplain := h.plain s (mem_append_left _ (Table.mem_of_owner? howner).1)
    cases hfailed.symm.trans (hs.outcome hplain)

end Workbench

/-! ### What tidy names are good for -/

section Found

variable {s r : Store} {t : Table} {id : SymbolId} {x : Symbol} {name : String}
  {scope : Option SymbolId}

theorem Store.find?_iff (hx : s.symbol? id = some x) :
    s.find? name scope = some id ↔ name = x.name ∧ scope = x.scope := by
  rw [Store.find?_eq_some, hx]
  simp [eq_comm]

theorem Store.get?_self (hx : s.symbol? id = some x) : s.get? x.name x.scope = some x := by
  rw [Store.get?, (Store.find?_iff hx).mpr ⟨rfl, rfl⟩, Option.bind_some, hx]

theorem Store.outer_of_symbol? (hx : s.symbol? id = some x) {outer : SymbolId}
    (houter : x.scope = some outer) :
    ∃ g, s.symbol? outer = some g ∧ g.isGlobal = true ∧ s.find? g.name none = some outer := by
  obtain ⟨g, hg, hglobal⟩ := Store.outer_of_mem (Store.mem_of_symbol? hx) houter
  refine ⟨g, hg, hglobal, (Store.find?_iff hg).mpr ⟨rfl, ?_⟩⟩
  exact (Option.isNone_iff_eq_none.mp hglobal).symm

theorem Table.Tidy.find?_iff (h : t.Tidy) (hids : (t.stores.map Store.id).Nodup)
    (hx : t.symbol? id = some x) :
    (∀ name scope, t.find? name scope = some id ↔ name = x.name ∧ scope = x.scope) ∧
      t.get? x.name x.scope = some x := by
  have hdistinct : t.Distinct :=
    ⟨fun s hs r hr => h.unit_inj hs hr, fun s hs r hr => inj_on_of_nodup_map hids hs hr⟩
  have hfind : ∀ name scope, t.find? name scope = some id ↔
      ∃ y, t.symbol? id = some y ∧ y.name = name ∧ y.scope = scope :=
    fun name scope => h.find?_eq_some hdistinct
  refine ⟨fun name scope => by rw [hfind, hx]; simp [eq_comm], ?_⟩
  rw [t.get?_eq_find?, (hfind x.name x.scope).mpr ⟨x, hx, rfl, rfl⟩, Option.bind_some, hx]

theorem Table.Tidy.index_unique (h : t.Tidy) {i j : ℕ} (hs : t.stores[i]? = some s)
    (hr : t.stores[j]? = some r) (hname : (s.find? name none).isSome)
    (hname' : (r.find? name none).isSome) : i = j := by
  have hsame := h.globals s (mem_of_getElem? hs) r (mem_of_getElem? hr) name
    (Store.isSome_find?.mp hname) (Store.isSome_find?.mp hname')
  have hlt : i < (t.stores.map Store.unit).length := by
    simpa using (List.getElem?_eq_some_iff.mp hs).1
  refine (getElem?_inj hlt h.units).mp ?_
  rw [getElem?_map, getElem?_map, hs, hr, hsame]

end Found

/-- **Names stay tidy over every run.** Whatever has been done to a table and to stores
beside it: no global name is in two stores of the table; in every store, in the table or
not, the maps of names hold the names of the symbols and nothing else, a symbol is found by its
name in its scope and by nothing else, and a local symbol is under a global one that the store
still has; in the whole table it is the same, as long as no two stores have one identity; a symbol
that is renamed moves from one name to another and all the rest stays; and a definition or
a renaming that fails changes no answer of the table. -/
theorem runs_keep_names_tidy (steps : List TableStep) :
    let d := Workbench.run {} steps
    (∀ (i j : ℕ) (s r : Store) name, d.table.stores[i]? = some s →
      d.table.stores[j]? = some r →
      (s.find? name none).isSome → (r.find? name none).isSome → i = j) ∧
    (∀ s, s ∈ d.table.stores ∨ s ∈ d.loose →
      (∀ scope name slot, (name, slot) ∈ s.names scope ↔
        ∃ x, s.symbols[slot]? = some x ∧ x.name = name ∧ x.scope = scope) ∧
      ∀ id x, s.symbol? id = some x →
        (∀ name scope, s.find? name scope = some id ↔ name = x.name ∧ scope = x.scope) ∧
        s.get? x.name x.scope = some x ∧
        ∀ scope, x.scope = some scope → ∃ g, s.symbol? scope = some g ∧ g.isGlobal = true ∧
          s.find? g.name none = some scope) ∧
    ((d.table.stores.map Store.id).Nodup → ∀ id x, d.table.symbol? id = some x →
      (∀ name scope, d.table.find? name scope = some id ↔ name = x.name ∧ scope = x.scope) ∧
      d.table.get? x.name x.scope = some x) ∧
    (∀ id name, (d.step (.rename id name)).1 = .ok () →
      ∃ x, d.table.symbol? id = some x ∧
        d.table.Renamed id x name (d.step (.rename id name)).2.table) ∧
    ∀ step e, (d.step step).1 = .error e →
      ((∃ symbol, step = .define symbol) ∨ ∃ id name, step = .rename id name) →
      d.table.SameAnswers (d.step step).2.table := by
  intro d
  have h : d.Tidy := Workbench.tidy_new.run steps
  refine ⟨fun i j s r name hs hr => h.table.index_unique hs hr, ?_, ?_, ?_, ?_⟩
  · intro s _
    exact ⟨fun scope name slot => Store.mem_names, fun id x hx =>
      ⟨fun name scope => Store.find?_iff hx, Store.get?_self hx,
        fun scope hscope => Store.outer_of_symbol? hx hscope⟩⟩
  · intro hids id x hx
    exact h.table.find?_iff hids hx
  · intro id name hok
    exact h.renamed_of_step hok
  · rintro step e hfailed (⟨symbol, rfl⟩ | ⟨id, name, rfl⟩)
    · exact Workbench.sameAnswers_of_define hfailed
    · exact h.sameAnswers_of_rename hfailed

/-- A copy of the store of unit 0, in which `a` is called `c`, takes its place. -/
def exchange : List TableStep :=
  [.define (.label "a" 0 ⟨0, 0, 0, 1⟩),
    .define { Symbol.label "x" 0 ⟨2, 1, 0, 1⟩ with scope := some ⟨1, 0⟩ },
    .define (.label "b" 1 ⟨0, 0, 0, 1⟩), .copyUnit 0, .edit 0 (.rename ⟨3, 0⟩ "c"), .adopt 0]

/-- After `exchange`, `c` may be called `a`, with its local symbol under it, but not `b`, and
there is no second `b`. -/
theorem runs_keep_names_tidy_exchange :
    let d := Workbench.run {} exchange
    d.table.symbol? ⟨3, 1⟩ = some { Symbol.label "x" 0 ⟨2, 1, 0, 1⟩ with scope := some ⟨3, 0⟩ } ∧
    (d.step (.rename ⟨3, 0⟩ "a")).1 = .ok () ∧
    (∃ x, d.table.symbol? ⟨3, 0⟩ = some x ∧
      d.table.Renamed ⟨3, 0⟩ x "a" (d.step (.rename ⟨3, 0⟩ "a")).2.table) ∧
    (d.step (.rename ⟨3, 0⟩ "b")).1 = .error (.duplicateSymbol "b") ∧
    d.table.SameAnswers (d.step (.rename ⟨3, 0⟩ "b")).2.table ∧
    (d.step (.define (.label "b" 2 ⟨0, 0, 0, 1⟩))).1 = .error (.duplicateSymbol "b") ∧
    d.table.SameAnswers (d.step (.define (.label "b" 2 ⟨0, 0, 0, 1⟩))).2.table := by
  intro d
  obtain ⟨-, -, -, hrename, hfailed⟩ := runs_keep_names_tidy exchange
  have hmoved : (d.step (.rename ⟨3, 0⟩ "a")).1 = .ok () := by decide +kernel
  have htaken : (d.step (.rename ⟨3, 0⟩ "b")).1 = .error (.duplicateSymbol "b") := by
    decide +kernel
  have hrefused : (d.step (.define (.label "b" 2 ⟨0, 0, 0, 1⟩))).1 =
      .error (.duplicateSymbol "b") := by decide +kernel
  exact ⟨by decide +kernel, hmoved, hrename _ _ hmoved, htaken,
    hfailed _ _ htaken (.inr ⟨_, _, rfl⟩), hrefused, hfailed _ _ hrefused (.inl ⟨_, rfl⟩)⟩

end WordAsm
