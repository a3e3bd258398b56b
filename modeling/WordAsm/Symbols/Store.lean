/-
# Symbol stores

A store holds the symbols of one unit in definition order. A name is used once
among the globals and once among the locals of each global, so a name and a
scope find at most one symbol; the store has a map for each of these, which stays in
step with the symbols. Symbols are never removed one by one, and a handle is the
identity of the store with a position in it.
-/
import WordAsm.Symbols.NameIndex

namespace WordAsm

structure Store where
  id : StoreId
  unit : UnitId
  /-- Whether the store is part of a symbol table. -/
  attached : Bool := false
  symbols : List Symbol := []
  /-- The slots of the globals by their names. -/
  globalNames : IndexMap String Nat := []
  /-- The slots of the locals by their names, for the slot of each global that has some. -/
  localNames : IndexMap Nat (IndexMap String Nat) := []
  inStep : NamesInStep id (symbols.map Symbol.key) globalNames localNames := by exact .empty
  deriving DecidableEq

namespace Store

variable (s : Store)

def handle (slot : Nat) : SymbolId := ⟨s.id, slot⟩

def handles : List SymbolId :=
  (List.range s.symbols.length).map s.handle

def symbol? (id : SymbolId) : Option Symbol :=
  if id.store = s.id then s.symbols[id.slot]? else none

/-- The slot of a scope, if it is a global of this store. -/
def scopeSlot? (scope : SymbolId) : Option Nat :=
  (s.symbol? scope).bind fun symbol =>
    if s.globalNames.get? symbol.name = some scope.slot ∧ symbol.isGlobal then some scope.slot
    else none

/-- The names in exactly that scope; no scope means the globals. -/
def names : Option SymbolId → IndexMap String Nat
  | none => s.globalNames
  | some scope => ((s.scopeSlot? scope).bind s.localNames.get?).getD []

def find? (name : String) (scope : Option SymbolId) : Option SymbolId :=
  ((s.names scope).get? name).map s.handle

/-- What a name means in a scope: a local of it, or else a global. -/
def lookup (name : String) (scope : Option SymbolId) : Option SymbolId :=
  s.find? name scope <|> s.find? name none

def get? (name : String) (scope : Option SymbolId) : Option Symbol :=
  (s.find? name scope).bind s.symbol?

def getLocal? (scope name : String) : Option Symbol :=
  (s.find? scope none).bind fun id => s.get? name (some id)

def listed (names : IndexMap String Nat) : List (SymbolId × Symbol) :=
  names.values.filterMap fun slot => s.symbols[slot]?.map fun symbol => (s.handle slot, symbol)

def globals : List (SymbolId × Symbol) := s.listed (s.names none)

def locals (scope : SymbolId) : List (SymbolId × Symbol) :=
  s.listed (s.names (some scope))

def ordered : List (SymbolId × Symbol) :=
  s.globals.flatMap fun (id, symbol) => (id, symbol) :: s.locals id

/-! ### Definitions -/

section Scopes

variable {s} {id scope : SymbolId} {symbol : Symbol}

theorem key_of_symbol? (h : s.symbol? id = some symbol) :
    id.store = s.id ∧ (s.symbols.map Symbol.key)[id.slot]? = some symbol.key := by
  unfold symbol? at h
  split at h
  · exact ⟨‹_›, by rw [List.getElem?_map, h]; rfl⟩
  · cases h

theorem outer_of_scopeSlot? {slot : Nat} (h : s.scopeSlot? scope = some slot) :
    slot = scope.slot ∧ IsGlobal s.id (s.symbols.map Symbol.key) scope := by
  obtain ⟨symbol, hsymbol, h⟩ := Option.bind_eq_some_iff.mp h
  obtain ⟨hstore, hkey⟩ := key_of_symbol? hsymbol
  split at h
  · rename_i hglobal
    cases h
    refine ⟨rfl, hstore, symbol.name, ?_⟩
    rw [hkey, Symbol.key, Option.isNone_iff_eq_none.mp hglobal.2]
  · cases h

end Scopes

def define (symbol : Symbol) : Except Error (SymbolId × Store) :=
  match hscope : symbol.scope with
  | none =>
    if hfree : s.globalNames.contains symbol.name then .error (.duplicateSymbol symbol.name)
    else
      .ok (s.handle s.symbols.length, { s with
        symbols := s.symbols ++ [symbol]
        globalNames := s.globalNames.insert symbol.name s.symbols.length
        inStep := by simpa [Symbol.key, hscope] using s.inStep.addGlobal hfree })
  | some scope =>
    if symbol.isMacro then .error (.invalidScope symbol.name)
    else match hslot : s.scopeSlot? scope with
    | none => .error (.invalidScope symbol.name)
    | some parent =>
      if hfree : ((s.localNames.get? parent).getD []).contains symbol.name then
        .error (.duplicateSymbol symbol.name)
      else
        .ok (s.handle s.symbols.length, { s with
          symbols := s.symbols ++ [symbol]
          localNames := s.localNames.insert parent
            (((s.localNames.get? parent).getD []).insert symbol.name s.symbols.length)
          inStep := by
            obtain ⟨rfl, houter⟩ := outer_of_scopeSlot? hslot
            simpa [Symbol.key, hscope] using s.inStep.addLocal houter hfree })

/-! ### Renaming -/

/-- Puts the symbols at the slots under a global symbol, up to the first that cannot be. -/
def rescope (scope : SymbolId) : List Nat → List Symbol → Except Error Unit × List Symbol
  | [], symbols => (.ok (), symbols)
  | slot :: slots, symbols =>
    match symbols[slot]? with
    | none => rescope scope slots symbols
    | some symbol =>
      match symbol.under scope with
      | .error e => (.error e, symbols)
      | .ok moved => rescope scope slots (symbols.set slot moved)

theorem rescope_eq {scope : SymbolId} {slots : List Nat} {symbols : List Symbol}
    (h : ∀ slot ∈ slots, ∀ symbol, symbols[slot]? = some symbol → symbol.scope = some scope) :
    (rescope scope slots symbols).2 = symbols := by
  induction slots with
  | nil => rfl
  | cons slot slots ih =>
    have hrest := ih fun i hi => h i (List.mem_cons_of_mem _ hi)
    unfold rescope
    split
    · exact hrest
    · rename_i symbol hsymbol
      split
      · rfl
      · -- a symbol that is under its scope already stays what it is
        rename_i moved hmoved
        have hsame : moved = symbol := by
          have hscope := h slot List.mem_cons_self symbol hsymbol
          unfold Symbol.under at hmoved
          split at hmoved <;> cases hmoved
          rw [← hscope]
        obtain ⟨hlt, hget⟩ := List.getElem?_eq_some_iff.mp hsymbol
        rw [hsame, ← hget, List.set_getElem_self, hrest]

theorem scope_of_local {s : Store} {id : SymbolId} {old : Symbol} (name : String)
    (hold : s.symbol? id = some old) (hglobal : old.scope = none) :
    ∀ slot ∈ ((s.localNames.get? id.slot).getD []).values, ∀ symbol,
      (s.symbols.set id.slot { old with name })[slot]? = some symbol → symbol.scope = some id := by
  intro slot hslot symbol hsymbol
  obtain ⟨hstore, hkey⟩ := key_of_symbol? hold
  obtain ⟨n, hlocal⟩ := s.inStep.local_of_mem_values hslot
  have hne : id.slot ≠ slot := by
    rintro rfl
    rw [hkey, Symbol.key, hglobal] at hlocal
    cases hlocal
  rw [List.getElem?_set_ne hne] at hsymbol
  rw [List.getElem?_map, hsymbol, Option.map_some, Option.some_inj] at hlocal
  have hscope : symbol.scope = some ⟨s.id, id.slot⟩ := congrArg SymbolKey.scope hlocal
  rw [hscope, ← hstore]

/-- Gives a global symbol another name, and puts its locals under it again. -/
def renameGlobal (id : SymbolId) (old : Symbol) (name : String)
    (hold : s.symbol? id = some old) (hglobal : old.scope = none) :
    Except Error Unit × Store :=
  if hfree : s.globalNames.contains name then (.error (.duplicateSymbol name), s)
  else match hrekey : s.globalNames.rekey old.name name id.slot with
  | none => (.error (.unknownSymbol old.name), s)
  | some globalNames =>
    let moved := rescope id ((s.localNames.get? id.slot).getD []).values
      (s.symbols.set id.slot { old with name })
    (moved.1, { s with
      symbols := moved.2
      globalNames
      inStep := by
        rw [rescope_eq (scope_of_local name hold hglobal), List.map_set]
        exact s.inStep.renameGlobal (key_of_symbol? hold).2 hglobal hfree hrekey })

def renameLocal (id : SymbolId) (old : Symbol) (name : String)
    (hold : s.symbol? id = some old) {scope : SymbolId} (hscope : old.scope = some scope) :
    Except Error Unit × Store :=
  match hnames : s.localNames.get? scope.slot with
  | none => (.error (.invalidScope old.name), s)
  | some names =>
    if hfree : names.contains name then (.error (.duplicateSymbol name), s)
    else match hrekey : names.rekey old.name name id.slot with
    | none => (.error (.unknownSymbol old.name), s)
    | some names =>
      (.ok (), { s with
        symbols := s.symbols.set id.slot { old with name }
        localNames := s.localNames.insert scope.slot names
        inStep := by
          rw [List.map_set]
          exact s.inStep.renameLocal (key_of_symbol? hold).2 hscope hnames hfree hrekey })

/-- Gives a symbol another name; everything else stays, its place too. -/
def rename (id : SymbolId) (name : String) : Except Error Unit × Store :=
  match hold : s.symbol? id with
  | none => (.error (.unknownSymbol s!"#{id.slot}"), s)
  | some old =>
    if old.name = name then (.ok (), s)
    else match hscope : old.scope with
    | none => s.renameGlobal id old name hold hscope
    | some _ => s.renameLocal id old name hold hscope

/-! ### Other changes -/

/-- Changes what symbols mean, in their places. -/
def mapKinds (f : SymbolId → SymbolKind → SymbolKind) : Store :=
  { s with
    symbols := s.symbols.mapIdx fun slot symbol => symbol.mapKind (f (s.handle slot))
    inStep := by
      have hkeys : (s.symbols.mapIdx fun slot symbol => symbol.mapKind (f (s.handle slot))).map
          Symbol.key = s.symbols.map Symbol.key := by
        refine List.ext_getElem? fun slot => ?_
        simp [Function.comp_def, Symbol.key, Symbol.mapKind]
        rfl
      rw [hkeys]
      exact s.inStep }

def modify (id : SymbolId) (f : SymbolKind → SymbolKind) : Store :=
  s.mapKinds fun i kind => if i = id then f kind else kind

def clear : Store :=
  { s with symbols := [], globalNames := [], localNames := [], inStep := .empty }

def defineFamily (symbol : Symbol) (locals : List Symbol) :
    Except Error Store :=
  match s.define symbol with
  | .error e => .error e
  | .ok (scope, s) =>
    locals.foldlM (fun s symbol => do
      let (_, s) ← s.define (← symbol.under scope)
      return s) s

/-- The context of a copied symbol: the global of the same name as before. -/
def moveContext (source target : Store) (kind : SymbolKind) : SymbolKind :=
  match kind with
  | .equation e context =>
    .equation e ((context.bind source.symbol?).bind fun old => target.find? old.name none)
  | kind => kind

/-- A store of its own with the same symbols, in the order of `ordered`. -/
def copy (id : StoreId) : Except Error Store := do
  let target ← s.globals.foldlM (fun (target : Store) (scope, symbol) =>
    target.defineFamily symbol ((s.locals scope).map (·.2))) { id, unit := s.unit }
  return target.mapKinds fun _ => s.moveContext target

end Store

end WordAsm
