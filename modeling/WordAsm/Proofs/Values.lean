/-
# What expressions mean in tables that are alike

Three facts about values. Folding an expression keeps its value and its weight
(`Expr.fold_spec`). A value stays as it is when more labels get their addresses
(`Table.eval_later`). And when everything moves by `d` words, an expression of weight `k`
changes by `k * d` (`Table.eval_shift`): the weight of an expression really counts the
addresses in it. That is so of weights without a bound (`Expr.exactWeight`); the weights in use
are these as long as they do not wrap around (`Table.WeighsExactly`).

Reading a symbol goes through equations of any unit, so the last two rest on one
induction over reading in two tables at once (`Table.read_alike`).
-/
import WordAsm.Proofs.TablePairs
import WordAsm.Symbols.Evaluation

namespace WordAsm

/-! ### Expressions in an environment -/

namespace Expr

variable {env env' : Environment} {weigh : String → Option Int32}

theorem constant?_some {e : Expr} {v : Int64} (h : constant? env weigh e = some v) :
    e.weight weigh = some 0 ∧ e.eval env = some v := by
  unfold constant? at h
  split at h
  · exact ⟨‹_›, h⟩
  · cases h

theorem fold_spec (env : Environment) (weigh : String → Option Int32) (e : Expr) :
    (e.fold env weigh).eval env = e.eval env ∧
      (e.fold env weigh).weight weigh = e.weight weigh := by
  have hconstant : ∀ {e v}, constant? env weigh e = some v →
      (number v).eval env = e.eval env ∧ (number v).weight weigh = e.weight weigh :=
    fun h => ⟨(constant?_some h).2.symm, (constant?_some h).1.symm⟩
  induction e with
  | number v => unfold fold; split <;> simp_all [constant?, eval, weight]
  | ident | current =>
    unfold fold
    split
    · exact hconstant ‹_›
    · exact ⟨rfl, rfl⟩
  | unary op e ih =>
    unfold fold
    split
    · exact hconstant ‹_›
    · exact ⟨by simp only [eval, ih.1], by cases op <;> simp only [weight, ih.2]⟩
  | binary op l r ihl ihr =>
    unfold fold
    split
    · exact hconstant ‹_›
    · exact ⟨by simp only [eval, ihl.1, ihr.1], by simp only [weight, ihl.2, ihr.2]⟩

theorem eval_fold (env : Environment) (weigh : String → Option Int32) (e : Expr) :
    (e.fold env weigh).eval env = e.eval env :=
  (fold_spec env weigh e).1

theorem weight_fold (env : Environment) (weigh : String → Option Int32) (e : Expr) :
    (e.fold env weigh).weight weigh = e.weight weigh :=
  (fold_spec env weigh e).2

theorem eval_of_known (hname : ∀ name v, env.lookup name = some v → env'.lookup name = some v)
    (hcurrent : ∀ v, env.current = some v → env'.current = some v) :
    ∀ (e : Expr) (v : Int64), e.eval env = some v → e.eval env' = some v
  | number _, _, h => h
  | ident name, v, h => hname name v h
  | current, v, h => hcurrent v h
  | unary op e, v, h => by
    simp only [eval] at h ⊢
    cases he : e.eval env with
    | none => rw [he] at h; cases h
    | some a =>
      rw [he] at h
      rw [eval_of_known hname hcurrent e a he]
      exact h
  | binary op l r, v, h => by
    simp only [eval] at h ⊢
    cases hl : l.eval env with
    | none => rw [hl] at h; cases h
    | some a =>
      cases hr : r.eval env with
      | none => rw [hl, hr] at h; cases h
      | some b =>
        rw [hl, hr] at h
        rw [eval_of_known hname hcurrent l a hl, eval_of_known hname hcurrent r b hr]
        exact h

theorem weight_congr {weigh' : String → Option Int32} (h : ∀ name, weigh' name = weigh name)
    (e : Expr) : e.weight weigh' = e.weight weigh := by
  rw [funext h]

def combineExactly (op : BinaryOp) (l r : Int) : Option Int :=
  match op with
  | .add => some (l + r)
  | .sub => some (l - r)
  | _ => if l = 0 ∧ r = 0 then some 0 else none

/-- The weight, counted without a bound. -/
def exactWeight (weigh : String → Option Int) : Expr → Option Int
  | number _ => some 0
  | ident name => weigh name
  | current => some 1
  | unary .neg e => (e.exactWeight weigh).map (- ·)
  | unary .not e =>
    match e.exactWeight weigh with
    | some 0 => some 0
    | _ => none
  | binary op l r =>
    match l.exactWeight weigh, r.exactWeight weigh with
    | some a, some b => combineExactly op a b
    | _, _ => none

/-- The weight has not wrapped around: it is what it is without a bound. -/
def WeighsExactly (weigh : String → Option Int32) (e : Expr) : Prop :=
  e.exactWeight (fun name => (weigh name).map Int32.toInt) = (e.weight weigh).map Int32.toInt

theorem combineExactly_zero {op : BinaryOp} {a b k : Int} (hadd : op ≠ .add) (hsub : op ≠ .sub)
    (h : combineExactly op a b = some k) : a = 0 ∧ b = 0 ∧ k = 0 := by
  cases op <;> simp_all [combineExactly]

/-- **The weight counts addresses.** If every name moves by its weight times `d`
and `$` by `d`, then so does every expression that has a weight. -/
theorem eval_of_moved {weigh : String → Option Int} {d : Int64}
    (hname : ∀ name k, weigh name = some k →
      env'.lookup name = (env.lookup name).map (· + Int64.ofInt k * d))
    (hcurrent : env'.current = env.current.map (· + d)) :
    ∀ (e : Expr) (k : Int), e.exactWeight weigh = some k →
      e.eval env' = (e.eval env).map (· + Int64.ofInt k * d)
  | number v, k, h => by
    simp only [exactWeight, Option.some.injEq] at h
    subst h
    simp [eval]
  | ident name, k, h => hname name k h
  | current, k, h => by
    simp only [exactWeight, Option.some.injEq] at h
    subst h
    simp [eval, hcurrent]
  | unary .neg e, k, h => by
    simp only [exactWeight, Option.map_eq_some_iff] at h
    obtain ⟨a, ha, rfl⟩ := h
    simp only [eval, eval_of_moved hname hcurrent e a ha]
    cases e.eval env with
    | none => rfl
    | some x =>
      simp only [Option.map_some, UnaryOp.apply, Int64.ofInt_neg, Option.some.injEq]
      grind
  | unary .not e, k, h => by
    simp only [exactWeight] at h
    split at h
    · cases h
      simp only [eval, eval_of_moved hname hcurrent e 0 ‹_›]
      cases e.eval env <;> simp
    · cases h
  | binary op l r, k, h => by
    simp only [exactWeight] at h
    split at h
    · rename_i a b ha hb
      simp only [eval, eval_of_moved hname hcurrent l a ha, eval_of_moved hname hcurrent r b hb]
      cases l.eval env with
      | none => rfl
      | some x =>
        cases r.eval env with
        | none => rfl
        | some y =>
          simp only [Option.map_some]
          by_cases hadd : op = .add
          · subst hadd
            cases h
            simp only [BinaryOp.apply, Option.map_some, Int64.ofInt_add, Option.some.injEq]
            grind
          by_cases hsub : op = .sub
          · subst hsub
            cases h
            simp only [BinaryOp.apply, Option.map_some, Int64.ofInt_sub, Option.some.injEq]
            grind
          · obtain ⟨rfl, rfl, rfl⟩ := combineExactly_zero hadd hsub h
            simp
    · cases h

end Expr

/-! ### Reading in two tables -/

namespace Table

variable {g : UnitId → UnitId} {t t' : Table} {v v' : Viewpoint} {e : Expr}

section Reading

variable {g : UnitId → UnitId} {L : Option Address → Option Address → Prop} {t t' : Table}
  {α β γ : Type} {S : Option α → Option β → Option γ → Prop}
  {r : Interpretation α} {r' : Interpretation β} {w : Interpretation γ}
  (hg : Function.Injective g) (h : TableAlike g L t t') (hnone : S none none none)
  (hlabel : ∀ a b, L a b → S (r.label a) (r'.label b) (w.label a))
  (hexpr : ∀ f f' k e, (∀ name, S (f name) (f' name) (k name)) →
    S (r.expr f e) (r'.expr f' e) (w.expr k e))

include hg h hnone hlabel hexpr

/-- **Reading a symbol in two tables that are alike.** What relates the readings
of labels and is kept by expressions relates the readings of all symbols. A
third reading, in the first table, comes along: values are compared by weight. -/
theorem read_alike (remaining : List SymbolId) (id : SymbolId) :
    S (t.read r remaining id) (t'.read r' remaining id) (t.read w remaining id) := by
  rw [read, read, read]
  cases hs : t.symbol? id with
  | none =>
    rw [rel_none (h.symbol? id) hs]
    exact hnone
  | some a =>
    obtain ⟨b, hb, hab⟩ := rel_some (h.symbol? id) hs
    simp only [hb]
    have hkind := hab.kind
    generalize a.kind = ka, b.kind = kb at hkind
    cases hkind with
    | label hL => exact hlabel _ _ hL
    | macroDef _ => exact hnone
    | equation e context =>
      cases e with
      | none => exact hnone
      | some e =>
        by_cases hmem : id ∈ remaining
        · simp only [dif_pos hmem]
          refine hexpr _ _ _ e fun name => ?_
          rw [hab.unit, h.resolve hg]
          cases t.resolve a.unit name context with
          | none => exact hnone
          | some next => exact read_alike (without remaining id) next
        · simp only [dif_neg hmem]
          exact hnone
termination_by remaining.length
decreasing_by
  exact length_without_lt hmem

theorem readName_alike {v' : Viewpoint} (hunit : v'.unit = g v.unit) (hscope : v'.scope = v.scope)
    (name : String) : S (t.readName r v name) (t'.readName r' v' name) (t.readName w v name) := by
  unfold readName
  rw [hunit, hscope, h.resolve hg, h.handles]
  cases t.resolve v.unit name v.scope with
  | none => exact hnone
  | some next => exact read_alike hg h hnone hlabel hexpr t.handles next

end Reading

/-! ### Weights -/

theorem weigh_alike {L : Option Address → Option Address → Prop} (hg : Function.Injective g)
    (h : TableAlike g L t t') (hunit : v'.unit = g v.unit) (hscope : v'.scope = v.scope)
    (e : Expr) : t'.weigh v' e = t.weigh v e := by
  refine Expr.weight_congr (fun name => ?_) e
  refine readName_alike (S := fun x y _ => y = x) (w := .weight) hg h rfl (fun _ _ _ => rfl) ?_
    hunit hscope name
  exact fun _ _ _ e hf => Expr.weight_congr hf e

/-! ### More addresses -/

/-- **Values stay.** What an expression is worth at one time it is worth at every
later time. -/
theorem eval_later (h : TableAlike id Later t t') {x : Int64} (he : t.eval v e = some x) :
    t'.eval v e = some x := by
  refine Expr.eval_of_known (fun name => ?_) (by exact fun _ hc => hc) e x he
  refine readName_alike (S := fun x y _ => ∀ a, x = some a → y = some a) (w := .weight)
    Function.injective_id h (fun _ hx => hx) ?_ ?_ rfl rfl name
  · intro a b hab x hx
    unfold Interpretation.value at hx ⊢
    simp only at hx ⊢
    split at hx
    · obtain ⟨address, ha, rfl⟩ := Option.map_eq_some_iff.mp hx
      rw [if_pos ‹_›, hab.eq_some ha, Option.map_some]
    · cases hx
  · exact fun _ _ _ e hf x hx => Expr.eval_of_known hf (by exact fun _ hc => hc) e x hx

/-! ### Everything moved -/

/-- Relocation weights, counted without a bound. -/
def exactReading : Interpretation Int where
  label _ := some 1
  expr weigh e := e.exactWeight weigh

def exactWeigh (t : Table) (v : Viewpoint) (e : Expr) : Option Int :=
  e.exactWeight (t.readName exactReading v)

/-- The weight of an expression, and of the equations it goes through, has not wrapped around. -/
def WeighsExactly (t : Table) (v : Viewpoint) (e : Expr) : Prop :=
  t.exactWeigh v e = (t.weigh v e).map Int32.toInt

instance (t : Table) (v : Viewpoint) (e : Expr) : Decidable (t.WeighsExactly v e) :=
  inferInstanceAs (Decidable (_ = _))

/-- **Values move by their weights.** When all labels and `$` are `d` words further
up, an expression of weight `k` is worth `k * d` more. -/
theorem eval_shift {d : ℕ} (hg : Function.Injective g) (h : TableAlike g (Shifted d) t t')
    (hunit : v'.unit = g v.unit) (hscope : v'.scope = v.scope)
    (hcurrent : Shifted d v.current v'.current) (hlabels : v.labels = true)
    (hlabels' : v'.labels = true) {k : Int} (hk : t.exactWeigh v e = some k) :
    t'.eval v' e = (t.eval v e).map (· + Int64.ofInt k * Int64.ofNat d) := by
  refine Expr.eval_of_moved (fun name => ?_) hcurrent.value e k hk
  unfold environment
  simp only [hlabels, hlabels']
  refine readName_alike (S := fun x y z => ∀ k, z = some k →
      y = x.map (· + Int64.ofInt k * Int64.ofNat d)) (w := exactReading) hg h (fun _ _ => rfl) ?_ ?_ hunit hscope name
  · intro a b hab k hk
    obtain rfl : (1 : Int) = k := Option.some.inj hk
    simp [Interpretation.value, hab.value]
  · intro f f' w e hf k hk
    exact Expr.eval_of_moved hf rfl e k hk

/-! ### Folding -/

theorem eval_fold (t : Table) (v : Viewpoint) (e : Expr) :
    t.eval v (t.fold v e) = t.eval v e :=
  Expr.eval_fold _ _ e

theorem weigh_fold (t : Table) (v : Viewpoint) (e : Expr) :
    t.weigh v (t.fold v e) = t.weigh v e :=
  Expr.weight_fold _ _ e

end Table

end WordAsm
