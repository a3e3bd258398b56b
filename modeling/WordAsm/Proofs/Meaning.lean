/-
# What expressions mean

An expression means what can be derived for it by rules that know nothing of how
symbols are read: a number means itself, `$` the current address, a label its
address, and an equation whatever its expression means in the unit and the context
of the equation, where there is no current address. `Denotes` are these rules, for
values and for relocation weights alike; what differs is in `Meaning`.

A table is read under a guard: no equation is entered again while it is being read.
The guard hides nothing. If an equation has a meaning at all, it has one that goes
through fewer equations than any meaning that comes back to it, so the rules never
need what the guard refuses (`read_of_readWithin`). Hence reading finds exactly what
can be derived (`eval_iff_denotes`).
-/
import WordAsm.Proofs.Definitions
import WordAsm.Symbols.Evaluation

namespace WordAsm

variable {unit : UnitId} {scope : Option SymbolId} {id : SymbolId} {n : ℕ}

/-- What the parts of an expression stand for. -/
structure Meaning (α : Type) where
  number : Int64 → α
  /-- `$`, where the current address may be unknown. -/
  here : Option Address → Option α
  /-- A label, which may have no address. -/
  label : Option Address → Option α
  unary : UnaryOp → α → Option α
  binary : BinaryOp → α → α → Option α

namespace Meaning

def value (labels : Bool) : Meaning Int64 where
  number v := v
  here address := address.map fun a => Int64.ofNat a.toNat
  label address := if labels then address.map fun a => Int64.ofNat a.toNat else none
  unary op v := some (op.apply v)
  binary op l r := op.apply l r

/-- Relocation weights, which wrap around at 2^32. Numbers weigh nothing, `$` and labels
weigh 1 wherever they are, and only `+` and `-` take anything that weighs. -/
def weight : Meaning Int32 where
  number _ := 0
  here _ := some 1
  label _ := some 1
  unary
    | .neg, w => some (-w)
    | .not, w => if w = 0 then some 0 else none
  binary
    | .add, l, r => some (l + r)
    | .sub, l, r => some (l - r)
    | _, l, r => if l = 0 ∧ r = 0 then some 0 else none

end Meaning

/-- **The meaning of expressions.** `Denotes t m unit scope here e a` has a derivation if
`e`, written in `unit` under `scope` at the address `here`, means `a`. -/
inductive Denotes {α : Type} (t : Table) (m : Meaning α) :
    UnitId → Option SymbolId → Option Address → Expr → α → Prop
  | number {unit : UnitId} {scope : Option SymbolId} {here : Option Address} (v : Int64) :
    Denotes t m unit scope here (.number v) (m.number v)
  | here {unit : UnitId} {scope : Option SymbolId} {here : Option Address} {a : α}
    (ha : m.here here = some a) : Denotes t m unit scope here .current a
  | label {unit : UnitId} {scope : Option SymbolId} {here : Option Address} {name : String}
    {id : SymbolId} {symbol : Symbol} {address : Option Address} {a : α}
    (hname : t.resolve unit name scope = some id) (hsymbol : t.symbol? id = some symbol)
    (hkind : symbol.kind = .label address) (ha : m.label address = some a) :
    Denotes t m unit scope here (.ident name) a
  | equation {unit : UnitId} {scope : Option SymbolId} {here : Option Address} {name : String}
    {id : SymbolId} {symbol : Symbol} {e : Expr} {context : Option SymbolId} {a : α}
    (hname : t.resolve unit name scope = some id) (hsymbol : t.symbol? id = some symbol)
    (hkind : symbol.kind = .equation (some e) context)
    (ha : Denotes t m symbol.unit context none e a) : Denotes t m unit scope here (.ident name) a
  | unary {unit : UnitId} {scope : Option SymbolId} {here : Option Address} {op : UnaryOp}
    {e : Expr} {a b : α} (ha : Denotes t m unit scope here e a) (hb : m.unary op a = some b) :
    Denotes t m unit scope here (.unary op e) b
  | binary {unit : UnitId} {scope : Option SymbolId} {here : Option Address} {op : BinaryOp}
    {l r : Expr} {a b c : α} (ha : Denotes t m unit scope here l a)
    (hb : Denotes t m unit scope here r b) (hc : m.binary op a b = some c) :
    Denotes t m unit scope here (.binary op l r) c

/-! ### Expressions, given the meaning of names -/

namespace Meaning

variable {α : Type}

def expr (m : Meaning α) (names : String → Option α) (here : Option Address) : Expr → Option α
  | .number v => some (m.number v)
  | .ident name => names name
  | .current => m.here here
  | .unary op e => (m.expr names here e).bind (m.unary op)
  | .binary op l r => (m.expr names here l).bind fun a =>
    (m.expr names here r).bind (m.binary op a)

/-- How the symbols of a table are read for a meaning. -/
def interpretation (m : Meaning α) : Interpretation α where
  label := m.label
  expr names := m.expr names none

theorem expr_value (labels : Bool) (names : String → Option Int64) (here : Option Address) :
    ∀ e, (value labels).expr names here e =
      e.eval { lookup := names, current := here.map fun a => Int64.ofNat a.toNat }
  | .number _ => rfl
  | .ident _ => rfl
  | .current => rfl
  | .unary op e => by
    rw [expr, Expr.eval, expr_value labels names here e]
    cases e.eval _ <;> rfl
  | .binary op l r => by
    rw [expr, Expr.eval, expr_value labels names here l, expr_value labels names here r]
    cases l.eval _ <;> cases r.eval _ <;> rfl

theorem expr_weight (names : String → Option Int32) (here : Option Address) :
    ∀ e, weight.expr names here e = e.weight names
  | .number _ => rfl
  | .ident _ => rfl
  | .current => rfl
  | .unary .neg e => by
    rw [expr, Expr.weight, expr_weight names here e]
    cases e.weight names <;> rfl
  | .unary .not e => by
    rw [expr, Expr.weight, expr_weight names here e]
    cases e.weight names <;> rfl
  | .binary op l r => by
    rw [expr, Expr.weight, expr_weight names here l, expr_weight names here r]
    cases l.weight names with
    | none => rfl
    | some a =>
      cases r.weight names with
      | none => rfl
      | some b => cases op <;> rfl

theorem interpretation_value (labels : Bool) :
    (value labels).interpretation = Interpretation.value labels := by
  unfold interpretation Interpretation.value
  congr 1
  funext names e
  exact expr_value labels names none e

theorem interpretation_weight : weight.interpretation = Interpretation.weight := by
  unfold interpretation Interpretation.weight
  congr 1
  funext names e
  exact expr_weight names none e

variable {m : Meaning α} {names names' : String → Option α} {here : Option Address}

theorem expr_of_known (h : ∀ name a, names name = some a → names' name = some a) :
    ∀ e a, m.expr names here e = some a → m.expr names' here e = some a
  | .number _, _, ha => ha
  | .ident name, a, ha => h name a ha
  | .current, _, ha => ha
  | .unary op e, a, ha => by
    obtain ⟨b, hb, ha⟩ := Option.bind_eq_some_iff.mp ha
    rw [expr, expr_of_known h e b hb]
    exact ha
  | .binary op l r, a, ha => by
    obtain ⟨b, hb, ha⟩ := Option.bind_eq_some_iff.mp ha
    obtain ⟨c, hc, ha⟩ := Option.bind_eq_some_iff.mp ha
    rw [expr, expr_of_known h l b hb, Option.bind_some, expr_of_known h r c hc]
    exact ha

theorem denotes_expr {t : Table}
    (h : ∀ name a, names name = some a → Denotes t m unit scope here (.ident name) a) :
    ∀ e a, m.expr names here e = some a → Denotes t m unit scope here e a
  | .number v, a, ha => by
    cases ha
    exact Denotes.number v
  | .ident name, a, ha => h name a ha
  | .current, a, ha => Denotes.here ha
  | .unary op e, a, ha => by
    obtain ⟨b, hb, ha⟩ := Option.bind_eq_some_iff.mp ha
    exact .unary (denotes_expr h e b hb) ha
  | .binary op l r, a, ha => by
    obtain ⟨b, hb, ha⟩ := Option.bind_eq_some_iff.mp ha
    obtain ⟨c, hc, ha⟩ := Option.bind_eq_some_iff.mp ha
    exact .binary (denotes_expr h l b hb) (denotes_expr h r c hc) ha

end Meaning

namespace Table

variable {α : Type} (t : Table) (m : Meaning α) {a : α} {name : String} {symbol : Symbol}
  {e : Expr} {k : ℕ}

/-! ### What is read can be derived -/

/-- **What is read for a symbol can be derived** for every name that finds the symbol. The
induction is on the equations that may still be entered. -/
theorem denotes_of_read (remaining : List SymbolId)
    (h : t.read m.interpretation remaining id = some a) (here : Option Address)
    (hname : t.resolve unit name scope = some id) :
    Denotes t m unit scope here (.ident name) a := by
  induction hn : remaining.length using Nat.strongRecOn
    generalizing remaining id a unit name scope here with
  | _ n ih =>
    rw [read] at h
    split at h
    · cases h
    · rename_i symbol hsymbol
      split at h
      · rename_i address hkind
        exact .label hname hsymbol hkind h
      · cases h
      · cases h
      · rename_i e context hkind
        split at h
        · rename_i hmem
          refine .equation hname hsymbol hkind (Meaning.denotes_expr ?_ e a h)
          intro other b hb
          split at hb
          · rename_i next hnext
            exact ih _ (hn ▸ length_without_lt hmem) _ hb none hnext rfl
          · cases hb
        · cases h

/-! ### What can be derived is read -/

/-- Reads a symbol through at most `n` equations, one inside the other. There is no
guard: an equation may be entered again. -/
def readWithin : ℕ → SymbolId → Option α
  | n, id =>
    match t.symbol? id with
    | none => none
    | some symbol =>
      match symbol.kind with
      | .label address => m.label address
      | .macroDef _ => none
      | .equation none _ => none
      | .equation (some e) context =>
        match n with
        | 0 => none
        | n + 1 =>
          m.expr (fun name => (t.resolve symbol.unit name context).bind (readWithin n)) none e

/-- What names mean when symbols are read through at most `n` equations. -/
def namesWithin (n : ℕ) (unit : UnitId) (scope : Option SymbolId) (name : String) : Option α :=
  (t.resolve unit name scope).bind (t.readWithin m n)

variable {t m}

theorem readWithin_label {address : Option Address} (hsymbol : t.symbol? id = some symbol)
    (hkind : symbol.kind = .label address) (n : ℕ) : t.readWithin m n id = m.label address := by
  rw [readWithin, hsymbol]
  simp only [hkind]

theorem readWithin_equation {context : Option SymbolId} (hsymbol : t.symbol? id = some symbol)
    (hkind : symbol.kind = .equation (some e) context) (n : ℕ) :
    t.readWithin m (n + 1) id = m.expr (t.namesWithin m n symbol.unit context) none e := by
  rw [readWithin, hsymbol]
  simp only [hkind]
  rfl

theorem readWithin_cases (h : t.readWithin m n id = some a) : ∃ symbol, t.symbol? id = some symbol ∧
      ((∃ address, symbol.kind = .label address ∧ m.label address = some a) ∨
        ∃ e context k, symbol.kind = .equation (some e) context ∧ n = k + 1 ∧
          m.expr (t.namesWithin m k symbol.unit context) none e = some a) := by
  rw [readWithin] at h
  split at h
  · cases h
  · rename_i symbol hsymbol
    refine ⟨symbol, hsymbol, ?_⟩
    split at h
    · rename_i address hkind
      exact .inl ⟨address, hkind, h⟩
    · cases h
    · cases h
    · rename_i e context hkind
      split at h
      · cases h
      · rename_i k
        exact .inr ⟨e, context, k, hkind, rfl, h⟩

theorem namesWithin_of_known
    (h : ∀ id a, t.readWithin m n id = some a → t.readWithin m k id = some a)
    (ha : t.namesWithin m n unit scope name = some a) :
    t.namesWithin m k unit scope name = some a := by
  obtain ⟨id, hid, ha⟩ := Option.bind_eq_some_iff.mp ha
  exact Option.bind_eq_some_iff.mpr ⟨id, hid, h id a ha⟩

theorem readWithin_mono (hle : n ≤ k) (h : t.readWithin m n id = some a) :
    t.readWithin m k id = some a := by
  induction n generalizing k id a with
  | zero =>
    obtain ⟨symbol, hsymbol, ⟨address, hkind, ha⟩ | ⟨_, _, _, _, hk, _⟩⟩ := readWithin_cases h
    · rw [readWithin_label hsymbol hkind, ha]
    · cases hk
  | succ n ih =>
    obtain ⟨symbol, hsymbol, ⟨address, hkind, ha⟩ | ⟨e, context, j, hkind, hj, ha⟩⟩ :=
      readWithin_cases h
    · rw [readWithin_label hsymbol hkind, ha]
    · cases hj
      obtain ⟨k, rfl⟩ : ∃ k', k = k' + 1 := ⟨k - 1, by omega⟩
      have hle' : n ≤ k := by omega
      rw [readWithin_equation hsymbol hkind]
      exact Meaning.expr_of_known
        (fun name b hb => namesWithin_of_known (fun id c hc => ih hle' hc) hb) e a ha

/-- **The guard hides nothing.** A symbol that can be read through at most `n` equations is
read under the guard, as long as all such symbols may be entered.

If the symbol can be read through fewer equations, the induction has it. Otherwise the
symbols it needs can all be read through fewer equations and it cannot, so none of them
is the symbol itself, and the guard may well refuse to enter it again. -/
theorem read_of_readWithin {remaining : List SymbolId}
    (hremaining : ∀ id, (t.readWithin m n id).isSome → id ∈ remaining)
    (h : t.readWithin m n id = some a) : t.read m.interpretation remaining id = some a := by
  induction n generalizing remaining id a with
  | zero =>
    obtain ⟨symbol, hsymbol, ⟨address, hkind, ha⟩ | ⟨_, _, _, _, hk, _⟩⟩ := readWithin_cases h
    · rw [read, hsymbol]
      simp only [hkind]
      exact ha
    · cases hk
  | succ n ih =>
    have hmono : ∀ id, (t.readWithin m n id).isSome → id ∈ remaining := by
      intro id hid
      obtain ⟨b, hb⟩ := Option.isSome_iff_exists.mp hid
      refine hremaining id ?_
      rw [readWithin_mono (Nat.le_succ n) hb]
      rfl
    cases hless : t.readWithin m n id with
    | some b =>
      have hab : b = a := by
        rw [readWithin_mono (Nat.le_succ n) hless] at h
        exact Option.some.inj h
      exact hab ▸ ih hmono hless
    | none =>
      have hmem : id ∈ remaining := hremaining id (by rw [h]; rfl)
      have hinner : ∀ j, (t.readWithin m n j).isSome → j ∈ without remaining id := by
        intro j hj
        have hne : j ≠ id := by
          rintro rfl
          rw [hless] at hj
          cases hj
        exact List.mem_filter.mpr ⟨hmono j hj, by simpa using hne⟩
      obtain ⟨symbol, hsymbol, ⟨address, hkind, ha⟩ | ⟨e, context, k, hkind, hk, ha⟩⟩ :=
        readWithin_cases h
      · rw [read, hsymbol]
        simp only [hkind]
        exact ha
      · cases hk
        rw [read, hsymbol]
        simp only [hkind, dif_pos hmem]
        refine Meaning.expr_of_known (fun name b hb => ?_) e a ha
        obtain ⟨next, hnext, hb⟩ := Option.bind_eq_some_iff.mp hb
        simp only [hnext]
        exact ih hinner hb

/-- **A derivation goes through finitely many equations.** -/
theorem exists_readWithin {here : Option Address} (h : Denotes t m unit scope here e a) :
    ∃ n, m.expr (t.namesWithin m n unit scope) here e = some a := by
  have hmono : ∀ {n k : ℕ} {unit : UnitId} {scope : Option SymbolId} {here : Option Address}
      {e : Expr} {a : α}, n ≤ k → m.expr (t.namesWithin m n unit scope) here e = some a →
        m.expr (t.namesWithin m k unit scope) here e = some a := fun hle =>
    Meaning.expr_of_known
      (fun name b hb => namesWithin_of_known (fun id c hc => readWithin_mono hle hc) hb) _ _
  induction h with
  | number v => exact ⟨0, rfl⟩
  | here ha => exact ⟨0, ha⟩
  | label hname hsymbol hkind ha =>
    refine ⟨0, Option.bind_eq_some_iff.mpr ⟨_, hname, ?_⟩⟩
    rw [readWithin_label hsymbol hkind, ha]
  | equation hname hsymbol hkind _ ih =>
    obtain ⟨n, hn⟩ := ih
    refine ⟨n + 1, Option.bind_eq_some_iff.mpr ⟨_, hname, ?_⟩⟩
    rw [readWithin_equation hsymbol hkind, hn]
  | unary _ hb ih =>
    obtain ⟨n, hn⟩ := ih
    exact ⟨n, by rw [Meaning.expr, hn]; exact hb⟩
  | binary _ _ hc ihl ihr =>
    obtain ⟨n, hn⟩ := ihl
    obtain ⟨k, hk⟩ := ihr
    refine ⟨max n k, ?_⟩
    rw [Meaning.expr, hmono (Nat.le_max_left n k) hn, Option.bind_some,
      hmono (Nat.le_max_right n k) hk]
    exact hc

theorem denotes_iff {v : Viewpoint} :
    m.expr (t.readName m.interpretation v) v.current e = some a ↔
      Denotes t m v.unit v.scope v.current e a := by
  constructor
  · refine Meaning.denotes_expr (fun name b hb => ?_) e a
    obtain ⟨id, hname, hb⟩ := Option.bind_eq_some_iff.mp hb
    exact t.denotes_of_read m _ hb v.current hname
  · intro h
    obtain ⟨n, hn⟩ := exists_readWithin h
    refine Meaning.expr_of_known (fun name b hb => ?_) e a hn
    obtain ⟨id, hname, hb⟩ := Option.bind_eq_some_iff.mp hb
    refine Option.bind_eq_some_iff.mpr ⟨id, hname, read_of_readWithin (fun j hj => ?_) hb⟩
    obtain ⟨c, hc⟩ := Option.isSome_iff_exists.mp hj
    obtain ⟨symbol, hsymbol, -⟩ := readWithin_cases hc
    exact mem_handles_of_symbol? hsymbol

end Table

/-- **Reading finds exactly what can be derived**, on every table, cycles or not: the value
of an expression is the one that it means, it has none if it means nothing, and so for
its weight. -/
theorem eval_iff_denotes (t : Table) (v : Viewpoint) (e : Expr) : (∀ x, t.eval v e = some x ↔
      Denotes t (.value v.labels) v.unit v.scope v.current e x) ∧
    ∀ w, t.weigh v e = some w ↔ Denotes t .weight v.unit v.scope v.current e w := by
  refine ⟨fun x => ?_, fun w => ?_⟩
  · have hiff := t.denotes_iff (m := .value v.labels) (v := v) (e := e) (a := x)
    rw [Meaning.interpretation_value, Meaning.expr_value] at hiff
    exact hiff
  · have hiff := t.denotes_iff (m := .weight) (v := v) (e := e) (a := w)
    rw [Meaning.interpretation_weight, Meaning.expr_weight] at hiff
    exact hiff

end WordAsm
