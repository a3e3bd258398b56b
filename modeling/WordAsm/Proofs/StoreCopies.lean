/-
# Copies of symbol stores

A copy is made by walking the store: each global symbol is defined again, and then those
local to it, under the handle that the new one got. So the symbols of a copy stand in the
order of the walk, and the handle of a symbol in the copy is its place in the walk
(`Store.place`). Contexts are looked up by name afterwards, which finds the same
symbol because a name in a scope finds one symbol.

The copy of a store as definitions and renamings make it never fails, and its walk is the
walk of the store with every handle moved (`Store.PlainLocals.exists_copy`,
`Store.Copied.ordered`).
-/
import WordAsm.Proofs.SymbolRuns

namespace WordAsm

open List

variable {g x : Symbol} {i : SymbolId}

def Symbol.context? (x : Symbol) : Option SymbolId :=
  match x.kind with
  | .equation _ context => context
  | _ => none

theorem Symbol.mem_context? {e : Option Expr} (hkind : x.kind = .equation e (some i)) :
    i ∈ x.context? := by
  simp [context?, hkind]

namespace Store

variable {scope id : SymbolId} {locals : List Symbol} {s s' : Store} {new : StoreId}

/-! ### Stores that are made step by step -/

/-- A store as definitions, renamings and the other edits make it, whether they fail or not. -/
inductive Built : Store → Prop
  | empty (id : StoreId) (unit : UnitId) (attached : Bool) : Built { id, unit, attached }
  | edit {s : Store} (h : Built s) (change : StoreEdit) : Built (change.apply s).2

theorem Built.run (h : s.Built) (changes : List StoreEdit) :
    (changes.foldl (fun s change => (change.apply s).2) s).Built := by
  induction changes generalizing s with
  | nil => exact h
  | cons change changes ih => exact ih (h.edit change)

/-- **No macro is local** in a store that is built. -/
theorem Built.plainLocals (h : s.Built) : s.PlainLocals := by
  induction h with
  | empty id unit attached => exact fun x hx => by cases hx
  | edit h change ih =>
    by_cases hchange : change = .clear
    · subst hchange
      exact fun x hx => by cases hx
    · exact (grows_edit hchange).plain ih

/-! ### The walk of a store -/

theorem map_fst_entries (s : Store) : s.entries.map Prod.fst = s.handles := by
  unfold entries handles
  rw [map_map, range_eq_range', ← zipIdx_map_snd 0 s.symbols, map_map]
  rfl

theorem nodup_entries (s : Store) : (s.entries.map Prod.fst).Nodup := by
  rw [map_fst_entries]
  exact nodup_range.map fun _ _ h => congrArg SymbolId.slot h

def family (s : Store) (entry : SymbolId × Symbol) : List (SymbolId × Symbol) :=
  entry :: s.locals entry.1

theorem ordered_eq_flatMap (s : Store) : s.ordered = s.globals.flatMap s.family := rfl

theorem not_local (hg : (id, g) ∈ s.globals) : (id, x) ∉ s.locals scope := by
  intro hx
  obtain ⟨hsymbol, hscope⟩ := mem_locals.mp hx
  obtain ⟨hsymbol', hglobal⟩ := mem_globals.mp hg
  obtain rfl : g = x := Option.mem_unique hsymbol' hsymbol
  simp [Symbol.isGlobal, hscope] at hglobal

theorem nodup_globals (s : Store) : (s.globals.map Prod.fst).Nodup := by
  rw [globals_eq]
  exact s.nodup_entries.sublist (filter_sublist.map _)

theorem nodup_locals (s : Store) (scope : SymbolId) :
    ((s.locals scope).map Prod.fst).Nodup := by
  rw [locals_eq]
  exact s.nodup_entries.sublist (filter_sublist.map _)

/-- **The walk meets no symbol twice.** -/
theorem nodup_ordered (s : Store) : (s.ordered.map Prod.fst).Nodup := by
  rw [ordered_eq_flatMap, map_flatMap, nodup_flatMap]
  constructor
  · rintro ⟨i, g⟩ hg
    rw [family, map_cons, nodup_cons]
    refine ⟨fun hmem => ?_, s.nodup_locals i⟩
    obtain ⟨⟨j, x⟩, hx, rfl⟩ := mem_map.mp hmem
    exact not_local hg hx
  · refine (pairwise_map.mp s.nodup_globals).imp_of_mem ?_
    rintro ⟨i, g⟩ ⟨j, g'⟩ hg hg' hne k hk hk'
    simp only [family, map_cons, mem_cons] at hk hk'
    rcases hk with rfl | hk <;> rcases hk' with rfl | hk'
    · exact hne rfl
    · obtain ⟨⟨_, x⟩, hx, rfl⟩ := mem_map.mp hk'
      exact not_local hg hx
    · obtain ⟨⟨_, x⟩, hx, rfl⟩ := mem_map.mp hk
      exact not_local hg' hx
    · obtain ⟨⟨_, x⟩, hx, rfl⟩ := mem_map.mp hk
      obtain ⟨⟨_, y⟩, hy, rfl⟩ := mem_map.mp hk'
      obtain ⟨hx, hscope⟩ := mem_locals.mp hx
      obtain ⟨hy, hscope'⟩ := mem_locals.mp hy
      obtain rfl : x = y := Option.mem_unique hx hy
      exact hne (Option.mem_unique hscope hscope')

theorem filter_isGlobal_ordered (s : Store) :
    s.ordered.filter (·.2.isGlobal) = s.globals := by
  have hfamily : ∀ e ∈ s.globals, (s.family e).filter (·.2.isGlobal) = [e] := by
    rintro ⟨i, g⟩ hg
    have hnone : (s.locals i).filter (·.2.isGlobal) = [] := by
      refine filter_eq_nil_iff.mpr ?_
      rintro ⟨j, x⟩ hx
      simp [Symbol.isGlobal, (mem_locals.mp hx).2]
    have hglobal : g.isGlobal = true := (mem_globals.mp hg).2
    simp [family, hglobal, hnone]
  rw [ordered_eq_flatMap, filter_flatMap, flatMap_congr hfamily]
  simp

theorem filter_scope_ordered (hg : (id, g) ∈ s.globals) :
    s.ordered.filter (·.2.scope == some id) = s.locals id := by
  have hself : (s.locals id).filter (·.2.scope == some id) = s.locals id :=
    filter_eq_self.mpr fun ⟨i, x⟩ hx => beq_iff_eq.mpr (mem_locals.mp hx).2
  -- no other family has a member in this scope
  have hother : ∀ e ∈ s.globals, e.1 ≠ id → (s.family e).filter (·.2.scope == some id) = [] := by
    rintro ⟨j, g'⟩ hg' hne
    refine filter_eq_nil_iff.mpr ?_
    rintro ⟨k, x⟩ hx
    rcases mem_cons.mp hx with hx | hx
    · cases hx
      have hglobal := (mem_globals.mp hg').2
      rw [Symbol.isGlobal, Option.isNone_iff_eq_none] at hglobal
      simp [hglobal]
    · simpa [(mem_locals.mp hx).2] using hne
  obtain ⟨front, back, hsplit⟩ := append_of_mem hg
  have hnodup := s.nodup_globals
  rw [hsplit] at hnodup hother
  simp only [map_append, map_cons, nodup_append, nodup_cons, mem_map, mem_cons] at hnodup
  have hfront : ∀ e ∈ front, (s.family e).filter (·.2.scope == some id) = [] := fun e he =>
    hother e (mem_append_left _ he) fun hid =>
      hnodup.2.2 e.1 ⟨e, he, rfl⟩ id (.inl rfl) hid
  have hback : ∀ e ∈ back, (s.family e).filter (·.2.scope == some id) = [] := fun e he =>
    hother e (mem_append_right _ (mem_cons_of_mem _ he)) fun hid =>
      hnodup.2.1.1 ⟨e, he, hid⟩
  have hscope : g.scope = none := Option.isNone_iff_eq_none.mp (mem_globals.mp hg).2
  rw [ordered_eq_flatMap, hsplit, filter_flatMap, flatMap_append, flatMap_cons,
    flatMap_eq_nil_iff.mpr hfront, flatMap_eq_nil_iff.mpr hback]
  simp [family, hscope, hself]

/-! ### Definitions that succeed -/

theorem Becomes.trans {r : Store} {symbols symbols' : List Symbol} (h : r.Becomes symbols s)
    (h' : s.Becomes symbols' s') : r.Becomes symbols' s' :=
  ⟨h'.id.trans h.id, h'.unit.trans h.unit, h'.attached.trans h.attached, h'.symbols⟩

/-- Symbols under a global symbol of the store are accepted, as long as none is a macro and
no name is used twice. -/
theorem foldlM_define_locals (hg : s.symbol? scope = some g) (hglobal : g.isGlobal = true)
    (hmacros : ∀ x ∈ locals, x.isMacro = false)
    (hnodup : (s.keys ++ locals.map fun x => SymbolKey.mk x.name (some scope)).Nodup) :
    ∃ s', (locals.foldlM (fun s x => do
      let (_, s) ← s.define (← x.under scope)
      return s) s : Except Error Store) = .ok s' ∧
      s.Becomes (s.symbols ++ locals.map fun x => { x with scope := some scope }) s' := by
  induction locals generalizing s with
  | nil => exact ⟨s, rfl, rfl, rfl, rfl, (append_nil _).symm⟩
  | cons x locals ih =>
    have hmacro := hmacros x mem_cons_self
    have hunder : x.under scope = .ok { x with scope := some scope } := by
      simp [Symbol.under, hmacro]
    have hadmits : s.admits { x with scope := some scope } = true := by
      have hkind : ({ x with scope := some scope } : Symbol).isMacro = false := hmacro
      simp [admits, hkind, hg, hglobal]
    have hfree : ⟨x.name, some scope⟩ ∉ s.keys := fun hin =>
      (nodup_append.mp hnodup).2.2 _ hin _ mem_cons_self rfl
    obtain ⟨s₁, hdefine, hs₁⟩ := define_free hadmits hfree
    have hg₁ : s₁.symbol? scope = some g := by
      obtain ⟨hstore, hslot⟩ := symbol?_eq_some.mp hg
      refine symbol?_eq_some.mpr ⟨hstore.trans hs₁.id.symm, ?_⟩
      rw [hs₁.symbols, getElem?_append_left (List.getElem?_eq_some_iff.mp hslot).1, hslot]
    obtain ⟨s', hrest, hs'⟩ := ih hg₁ (fun y hy => hmacros y (mem_cons_of_mem _ hy))
      (by simpa [keys, hs₁.symbols, Symbol.key] using hnodup)
    refine ⟨s', ?_, ?_⟩
    · rw [foldlM_cons, hunder]
      simp only [bind, Except.bind, hdefine, pure, Except.pure] at hrest ⊢
      exact hrest
    · have hboth := hs₁.trans hs'
      rwa [hs₁.symbols, append_assoc] at hboth

/-- **A global symbol and its locals are accepted** as long as no local is a macro and no name
is used twice. -/
theorem defineFamily_eq (hglobal : g.scope = none) (hmacros : ∀ x ∈ locals, x.isMacro = false)
    (hnodup : (s.keys ++ SymbolKey.mk g.name none ::
      locals.map fun x => SymbolKey.mk x.name (some (s.handle s.symbols.length))).Nodup) :
    ∃ s', s.defineFamily g locals = .ok s' ∧ s.Becomes (s.symbols ++ g ::
      locals.map fun x => { x with scope := some (s.handle s.symbols.length) }) s' := by
  have hadmits : s.admits g = true := by simp [admits, hglobal]
  have hkey : g.key = ⟨g.name, none⟩ := by rw [Symbol.key, hglobal]
  have hfree : g.key ∉ s.keys := fun hin =>
    (nodup_append.mp hnodup).2.2 _ hin _ (hkey ▸ mem_cons_self) rfl
  obtain ⟨s₁, hdefine, hs₁⟩ := define_free hadmits hfree
  have hself : s₁.symbol? (s.handle s.symbols.length) = some g := by
    refine symbol?_eq_some.mpr ⟨hs₁.id.symm, ?_⟩
    rw [hs₁.symbols]
    exact getElem?_concat_length
  obtain ⟨s', hlocals, hs'⟩ := foldlM_define_locals hself (by simp [Symbol.isGlobal, hglobal]) hmacros
    (by simpa [keys, hs₁.symbols, hkey] using hnodup)
  refine ⟨s', ?_, ?_⟩
  · unfold defineFamily
    simp only [hdefine]
    exact hlocals
  · have hboth := hs₁.trans hs'
    rwa [hs₁.symbols, append_assoc] at hboth

/-! ### Places in a copy -/

/-- The handle of a symbol in the copy: its place in the walk. -/
def place (s : Store) (new : StoreId) (i : SymbolId) : SymbolId :=
  ⟨new, (s.ordered.map Prod.fst).idxOf i⟩

theorem place_inj {j : SymbolId} (hi : (i, x) ∈ s.ordered) :
    s.place new i = s.place new j ↔ i = j := by
  have hmem : i ∈ s.ordered.map Prod.fst := mem_map.mpr ⟨(i, x), hi, rfl⟩
  unfold place
  rw [SymbolId.mk.injEq, idxOf_inj hmem]
  simp

theorem map_place_inj {scope scope' : Option SymbolId}
    (hmem : ∀ i, scope = some i → ∃ g, (i, g) ∈ s.ordered) :
    scope.map (s.place new) = scope'.map (s.place new) ↔ scope = scope' := by
  cases scope with
  | none => cases scope' <;> simp
  | some i =>
    obtain ⟨g, hg⟩ := hmem i rfl
    cases scope' with
    | none => simp
    | some j => rw [Option.map_some, Option.map_some, Option.some_inj, Option.some_inj, place_inj hg]

theorem place_of_getElem? {k : ℕ} (hk : s.ordered[k]? = some (i, x)) :
    s.place new i = ⟨new, k⟩ := by
  obtain ⟨hlt, hget⟩ := List.getElem?_eq_some_iff.mp hk
  have hidx := s.nodup_ordered.idxOf_getElem k (by simpa using hlt)
  rw [getElem_map, hget] at hidx
  rw [place, hidx]

def OwnContexts (s : Store) : Prop :=
  ∀ x ∈ s.symbols, ∀ i ∈ x.context?, i ∈ s.globals.map Prod.fst

/-- `c` is the copy of `s` under the identity `new`. -/
abbrev Copied (s : Store) (new : StoreId) : Store → Prop :=
  Becomes { id := new, unit := s.unit } (s.ordered.map fun e => e.2.relocate (s.place new))

/-- A symbol of the copy before contexts are moved. -/
def rescoped (s : Store) (new : StoreId) (e : SymbolId × Symbol) : Symbol :=
  { e.2 with scope := e.2.scope.map (s.place new) }

theorem mem_ordered_scope (hx : x ∈ s.symbols) (hscope : x.scope = some i) :
    ∃ g, (i, g) ∈ s.ordered := by
  obtain ⟨g, hg, -⟩ := outer_of_mem hx hscope
  exact ⟨g, mem_ordered.mpr hg⟩

/-- **No name is used twice** where the symbols of a store stand under other scopes. -/
theorem nodup_rescoped (s : Store) (new : StoreId) :
    ((s.ordered.map (s.rescoped new)).map Symbol.key).Nodup := by
  rw [map_map]
  refine List.Nodup.map_on ?_ (List.Nodup.of_map _ s.nodup_ordered)
  rintro ⟨i, x⟩ hx ⟨j, y⟩ hy hkeys
  obtain ⟨hname, hscope⟩ := SymbolKey.mk.inj hkeys
  have hsymbol := mem_ordered.mp hx
  have hsymbol' := mem_ordered.mp hy
  have hscopes : x.scope = y.scope := (map_place_inj fun i hi =>
    mem_ordered_scope (mem_of_symbol? hsymbol) hi).mp hscope
  -- one name in one scope finds one symbol
  have hfind := (find?_iff hsymbol).mpr ⟨rfl, rfl⟩
  have hfind' := (find?_iff hsymbol').mpr ⟨hname, hscopes⟩
  obtain rfl : i = j := Option.mem_unique hfind hfind'
  rw [Option.mem_unique hsymbol hsymbol']

/-! ### Copying -/

/-- **Families are copied one after another.** Those of `done` are there already, and the
handle that the next global symbol gets is its place in the walk. -/
theorem PlainLocals.foldlM_defineFamily (h : s.PlainLocals) (target : Store)
    (done todo : List (SymbolId × Symbol)) (hsplit : s.globals = done ++ todo)
    (htarget : Becomes { id := new, unit := s.unit } ((done.flatMap s.family).map (s.rescoped new))
      target) :
    ∃ c, todo.foldlM (fun (target : Store) (entry : SymbolId × Symbol) =>
        target.defineFamily entry.2 ((s.locals entry.1).map Prod.snd)) target = .ok c ∧
      Becomes { id := new, unit := s.unit } (s.ordered.map (s.rescoped new)) c := by
  induction todo generalizing done target with
  | nil =>
    refine ⟨target, rfl, ?_⟩
    rwa [ordered_eq_flatMap, hsplit, append_nil]
  | cons entry todo ih =>
    obtain ⟨i, g⟩ := entry
    have hwalk : s.ordered = done.flatMap s.family ++ (i, g) ::
        (s.locals i ++ todo.flatMap s.family) := by
      rw [ordered_eq_flatMap, hsplit, flatMap_append, flatMap_cons]
      simp [family]
    have hat : s.ordered[(done.flatMap s.family).length]? = some (i, g) := by
      rw [hwalk]
      simp
    have hplace : s.place new i = ⟨new, (done.flatMap s.family).length⟩ := place_of_getElem? hat
    have hscope : g.scope = none := by
      have hg : (i, g) ∈ s.globals := by simp [hsplit]
      exact Option.isNone_iff_eq_none.mp (mem_globals.mp hg).2
    have hfamily : (s.family (i, g)).map (s.rescoped new) =
        g :: ((s.locals i).map Prod.snd).map fun x => { x with scope := some (s.place new i) } := by
      have hglobal : s.rescoped new (i, g) = g := by
        obtain ⟨_, _, _, _, _⟩ := g
        simp_all [rescoped]
      rw [family, map_cons, hglobal, map_map]
      congr 1
      refine map_congr_left ?_
      rintro ⟨j, x⟩ hx
      simp [rescoped, (mem_locals.mp hx).2]
    have hmacros : ∀ x ∈ (s.locals i).map Prod.snd, x.isMacro = false := by
      intro x hx
      obtain ⟨⟨j, y⟩, hy, rfl⟩ := mem_map.mp hx
      obtain ⟨hsymbol, hlocal⟩ := mem_locals.mp hy
      by_contra hmacro
      have hglobal := h y (mem_of_symbol? hsymbol) (by simpa using hmacro)
      simp [Symbol.isGlobal, hlocal] at hglobal
    have hhandle : target.handle target.symbols.length = s.place new i := by
      rw [hplace, handle, htarget.symbols, htarget.id, length_map]
    -- with the family the copy is a front part of the whole, where no name is used twice
    have hnodup : (target.keys ++ SymbolKey.mk g.name none :: ((s.locals i).map Prod.snd).map fun x =>
        SymbolKey.mk x.name (some (target.handle target.symbols.length))).Nodup := by
      have hfront : (done.flatMap s.family ++ s.family (i, g)).Sublist s.ordered := by
        rw [hwalk]
        simp [family]
      have hkeys := (s.nodup_rescoped new).sublist ((hfront.map _).map _)
      rw [map_append, hfamily] at hkeys
      rw [hhandle, keys, htarget.symbols]
      simpa [Symbol.key, hscope, Function.comp_def] using hkeys
    obtain ⟨next, hnext, hbecomes⟩ := defineFamily_eq hscope hmacros hnodup
    obtain ⟨c, hrest, hc⟩ := ih next (done ++ [(i, g)])
      (by rw [hsplit, append_assoc]; rfl) (by
        have hboth := htarget.trans hbecomes
        rw [hhandle, htarget.symbols, ← hfamily] at hboth
        simpa using hboth)
    exact ⟨c, by rw [foldlM_cons, hnext]; exact hrest, hc⟩

section Moved

variable {target : Store}
  (htarget : Becomes { id := new, unit := s.unit } (s.ordered.map (s.rescoped new)) target)

include htarget

theorem find?_rescoped (hg : (id, g) ∈ s.globals) :
    target.find? g.name none = some (s.place new id) := by
  obtain ⟨hsymbol, hglobal⟩ := mem_globals.mp hg
  obtain ⟨k, hk⟩ := mem_iff_getElem?.mp (mem_ordered.mpr hsymbol)
  refine find?_eq_some.mpr ⟨s.rescoped new (id, g), ?_, rfl, ?_⟩
  · rw [place_of_getElem? hk, symbol?_eq_some, htarget.symbols, htarget.id]
    simp [hk]
  · rw [rescoped, Option.isNone_iff_eq_none.mp hglobal]
    rfl

theorem moveContext_rescoped (hcontexts : s.OwnContexts) (hx : s.symbol? id = some x) :
    (s.rescoped new (id, x)).mapKind (s.moveContext target) = x.relocate (s.place new) := by
  unfold Symbol.mapKind moveContext
  cases hkind : x.kind with
  | label | macroDef => simp [rescoped, Symbol.relocate, hkind, SymbolKind.relocate]
  | equation e context =>
    have hcontext : ((context.bind s.symbol?).bind fun old => target.find? old.name none) =
        context.map (s.place new) := by
      cases context with
      | none => rfl
      | some i =>
        obtain ⟨⟨_, g⟩, hg, rfl⟩ := mem_map.mp
          (hcontexts x (mem_of_symbol? hx) i (Symbol.mem_context? hkind))
        rw [Option.bind_some, (mem_globals.mp hg).1, Option.bind_some, find?_rescoped htarget hg,
          Option.map_some]
    simp [rescoped, Symbol.relocate, hkind, SymbolKind.relocate, hcontext]

end Moved

/-- **A store can be copied** if no macro is local. -/
theorem PlainLocals.exists_copy (h : s.PlainLocals) (hcontexts : s.OwnContexts) (new : StoreId) :
    ∃ c, s.copy new = .ok c ∧ s.Copied new c := by
  obtain ⟨target, hfold, htarget⟩ := h.foldlM_defineFamily { id := new, unit := s.unit } []
    s.globals rfl ⟨rfl, rfl, rfl, rfl⟩
  have hcopy : s.copy new = .ok (target.mapKinds fun _ => s.moveContext target) := by
    unfold copy
    rw [hfold]
    rfl
  refine ⟨_, hcopy, htarget.id, htarget.unit, htarget.attached, ?_⟩
  have hmap : (target.mapKinds fun _ => s.moveContext target).symbols =
      target.symbols.map (Symbol.mapKind (s.moveContext target)) :=
    ext_getElem? fun slot => by simp [mapKinds]
  rw [hmap, htarget.symbols, map_map]
  refine map_congr_left ?_
  rintro ⟨i, x⟩ hx
  exact moveContext_rescoped htarget hcontexts (mem_ordered.mp hx)

/-! ### The walk of a copy -/

/-- A symbol with its handle, in the copy. -/
abbrev movedEntry (s : Store) (new : StoreId) : SymbolId × Symbol → SymbolId × Symbol :=
  Prod.map (s.place new) (Symbol.relocate (s.place new))

section Copies

variable {c : Store} (hc : s.Copied new c)

include hc

theorem Copied.entries : c.entries = s.ordered.map (s.movedEntry new) := by
  refine ext_getElem? fun k => ?_
  unfold Store.entries
  rw [getElem?_map, getElem?_zipIdx, getElem?_map, hc.symbols, getElem?_map]
  cases hk : s.ordered[k]? with
  | none => rfl
  | some entry =>
    obtain ⟨i, x⟩ := entry
    simp [handle, hc.id, place_of_getElem? hk]

theorem Copied.globals : c.globals = s.globals.map (s.movedEntry new) := by
  have hglobal : ∀ e : SymbolId × Symbol, (s.movedEntry new e).2.isGlobal = e.2.isGlobal := by
    simp [movedEntry, Symbol.isGlobal, Symbol.relocate]
  rw [globals_eq, hc.entries, filter_map, ← filter_isGlobal_ordered]
  simp only [Function.comp_def, hglobal]

theorem Copied.locals_place (hg : (id, g) ∈ s.globals) :
    c.locals (s.place new id) = (s.locals id).map (s.movedEntry new) := by
  rw [← filter_scope_ordered hg, locals_eq, hc.entries, filter_map]
  congr 1
  refine filter_congr ?_
  rintro ⟨i, x⟩ hx
  have hmem := mem_of_symbol? (mem_ordered.mp hx)
  have hscope : x.scope.map (s.place new) = (some id).map (s.place new) ↔ x.scope = some id :=
    map_place_inj fun j hj => mem_ordered_scope hmem hj
  rw [Bool.eq_iff_iff, Function.comp_apply, decide_eq_true_iff, beq_iff_eq]
  exact hscope

/-- **The walk of a copy** is that of the store, with every handle moved. -/
theorem Copied.ordered : c.ordered = s.ordered.map (s.movedEntry new) := by
  rw [ordered_eq_flatMap, ordered_eq_flatMap, hc.globals, flatMap_map, map_flatMap]
  refine flatMap_congr ?_
  rintro ⟨i, g⟩ hg
  rw [family, family, map_cons, ← hc.locals_place hg]
  rfl

/-! ### What is found in a copy -/

theorem Copied.symbol?_place (hx : s.symbol? id = some x) :
    c.symbol? (s.place new id) = some (x.relocate (s.place new)) := by
  rw [← mem_entries, hc.entries]
  exact mem_map.mpr ⟨(id, x), mem_ordered.mpr hx, rfl⟩

theorem Copied.exists_of_symbol? {y : Symbol} (hy : c.symbol? id = some y) :
    ∃ i x, s.symbol? i = some x ∧ s.place new i = id ∧ x.relocate (s.place new) = y := by
  rw [← mem_entries, hc.entries] at hy
  obtain ⟨⟨i, x⟩, hx, hsame⟩ := mem_map.mp hy
  obtain ⟨hplace, hrelocate⟩ := Prod.mk.inj hsame
  exact ⟨i, x, mem_ordered.mp hx, hplace, hrelocate⟩

/-- **Names find in a copy** what they find in the store. -/
theorem Copied.find? (name : String) {scope : Option SymbolId}
    (hscope : ∀ i ∈ scope, i ∈ s.globals.map Prod.fst) :
    c.find? name (scope.map (s.place new)) = (s.find? name scope).map (s.place new) := by
  have hmem : ∀ i, scope = some i → ∃ g, (i, g) ∈ s.ordered := by
    intro i hi
    obtain ⟨⟨_, g⟩, hg, rfl⟩ := mem_map.mp (hscope i hi)
    exact ⟨g, mem_ordered.mpr (mem_globals.mp hg).1⟩
  refine Option.ext fun j => ?_
  rw [find?_eq_some, Option.map_eq_some_iff]
  constructor
  · rintro ⟨y, hy, rfl, hscopes⟩
    obtain ⟨i, x, hx, rfl, rfl⟩ := hc.exists_of_symbol? hy
    have hscope' : scope = x.scope := (map_place_inj hmem).mp hscopes.symm
    exact ⟨i, (find?_iff hx).mpr ⟨rfl, hscope'⟩, rfl⟩
  · rintro ⟨i, hi, rfl⟩
    obtain ⟨x, hx, rfl, rfl⟩ := find?_eq_some.mp hi
    exact ⟨_, hc.symbol?_place hx, rfl, rfl⟩

end Copies

end Store

end WordAsm
