/-
# What the weight of an expression is good for

The weight of an expression says how its value moves. Put every name as many steps further on
as its weight says, and `$` one step: then an expression of weight `k` is `k` steps further on,
whatever operators are in it and however long a step is (`weight_measures_motion`). Values wrap
around at 2^64, and so do steps; the weight must not have wrapped around.

Weight 0 means that a value stays, and folding puts such values in the place of their
expressions. It goes by two oracles, values and weights, that may know nothing of each other.
It changes the answer of neither, and it leaves nothing over: what is left is a number, moves,
or has no value (`Expr.Folded`). That is all that folding looks for, so folding again changes
nothing (`Expr.fold_of_folded`).
-/
import Mathlib.Data.Int.ModEq
import WordAsm.Proofs.Values

namespace WordAsm

open List

/-! ### Values that move -/

/-- The value `y` is `x` moved by `n`, modulo 2^64. A value that is unknown stays unknown. -/
inductive MovedBy (n : ℤ) : Option Int64 → Option Int64 → Prop
  | unknown : MovedBy n none none
  | known {v v' : Int64} (h : v'.toInt ≡ v.toInt + n [ZMOD 2 ^ 64]) : MovedBy n (some v) (some v')

theorem ofInt_eq_ofInt_iff {a b : ℤ} : Int64.ofInt a = Int64.ofInt b ↔ a ≡ b [ZMOD 2 ^ 64] := by
  have hsize : (2 : ℤ) ^ 64 = (Int64.size : ℕ) := rfl
  rw [← Int64.toInt_inj, Int64.toInt_ofInt, Int64.toInt_ofInt, Int.ModEq, hsize]
  constructor
  · intro h
    rw [← Int.bmod_emod (x := a), h, Int.bmod_emod]
  · intro h
    rw [← Int.emod_bmod a, h, Int.emod_bmod]

theorem movedBy_iff {n : ℤ} {x y : Option Int64} :
    MovedBy n x y ↔ y = x.map (· + Int64.ofInt n) := by
  have hvalue : ∀ v v' : Int64, v'.toInt ≡ v.toInt + n [ZMOD 2 ^ 64] ↔ v' = v + Int64.ofInt n := by
    intro v v'
    rw [← ofInt_eq_ofInt_iff, Int64.ofInt_add, Int64.ofInt_toInt, Int64.ofInt_toInt]
  constructor
  · rintro (_ | h)
    · rfl
    · rw [Option.map_some, (hvalue _ _).mp h]
  · rintro rfl
    cases x with
    | none => exact .unknown
    | some v => exact .known ((hvalue v _).mpr rfl)

theorem MovedBy.isSome_iff {n : ℤ} {x y : Option Int64} (h : MovedBy n x y) :
    y.isSome ↔ x.isSome := by
  cases h <;> simp

theorem MovedBy.modEq {n : ℤ} {v v' : Int64} (h : MovedBy n (some v) (some v')) :
    v'.toInt ≡ v.toInt + n [ZMOD 2 ^ 64] := by
  cases h
  assumption

/-- In `env'` every name of weight `w` is `w` steps of `d` further on than in `env`, and `$` is
one step further on. Names without a weight may have any value. -/
structure Environment.Moved (weigh : String → Option Int32) (d : ℤ) (env env' : Environment) : Prop where
  names : ∀ name w, weigh name = some w → MovedBy (w.toInt * d) (env.lookup name) (env'.lookup name)
  current : MovedBy d env.current env'.current

/-- The environment with names and `$` moved, and names without a weight left where they are. -/
def Environment.shift (weigh : String → Option Int32) (d : ℤ) (env : Environment) : Environment where
  lookup name := (env.lookup name).map (· + Int64.ofInt (((weigh name).getD 0).toInt * d))
  current := env.current.map (· + Int64.ofInt d)

theorem Environment.moved_shift (weigh : String → Option Int32) (d : ℤ) (env : Environment) :
    env.Moved weigh d (env.shift weigh d) where
  names name w hw := movedBy_iff.mpr (by simp [shift, hw])
  current := movedBy_iff.mpr rfl

/-- **The weight of an expression measures how it moves**, in steps of any length and modulo
2^64: with its names moved by their weights and `$` by 1, an expression of weight `k`, which has not
wrapped around, has a value just if it had one, and is `k` steps further on. -/
theorem weight_measures_motion {env env' : Environment} {weigh : String → Option Int32} {d : ℤ}
    (hmoved : env.Moved weigh d env') (e : Expr) {k : Int32} (hk : e.weight weigh = some k)
    (hexact : e.WeighsExactly weigh) :
    ((e.eval env').isSome ↔ (e.eval env).isSome) ∧
      ∀ v v', e.eval env = some v → e.eval env' = some v' →
        v'.toInt ≡ v.toInt + k.toInt * d [ZMOD 2 ^ 64] := by
  have hvalue : MovedBy (k.toInt * d) (e.eval env) (e.eval env') := by
    rw [movedBy_iff, Int64.ofInt_mul]
    refine Expr.eval_of_moved (fun name n hn => ?_) (movedBy_iff.mp hmoved.current) e k.toInt
      (hexact.trans (by rw [hk]; rfl))
    obtain ⟨w, hw, rfl⟩ := Option.map_eq_some_iff.mp hn
    rw [movedBy_iff.mp (hmoved.names name w hw), Int64.ofInt_mul]
  refine ⟨hvalue.isSome_iff, fun v v' hv hv' => ?_⟩
  rw [hv, hv'] at hvalue
  exact hvalue.modEq

/-- `-(t + .l) + ((~c & 6) - $)`, where `t` weighs 2 and `.l` weighs -5. -/
def movingExpr : Expr :=
  .binary .add (.unary .neg (.binary .add (.ident "t") (.ident ".l")))
    (.binary .sub (.binary .and (.unary .not (.ident "c")) (.number 6)) .current)

def movingWeights (name : String) : Option Int32 :=
  if name = "t" then some 2 else if name = ".l" then some (-5) else if name = "c" then some 0 else none

def movingEnvironment : Environment where
  lookup name :=
    if name = "t" then some Int64.maxValue else if name = ".l" then some 256
    else if name = "c" then some 9 else none
  current := some 7

/-- An expression of weight 2 in steps of 2^62 and 1: its value wraps around. -/
theorem weight_measures_motion_wrapped :
    movingExpr.weight movingWeights = some 2 ∧
    movingExpr.eval movingEnvironment = some (0x7FFFFFFFFFFFFF00) ∧
    movingExpr.eval (movingEnvironment.shift movingWeights (2 ^ 62 + 1)) = some (-254) ∧
    (-254 : Int64).toInt ≡ (0x7FFFFFFFFFFFFF00 : Int64).toInt + 2 * (2 ^ 62 + 1) [ZMOD 2 ^ 64] := by
  have hweight : movingExpr.weight movingWeights = some 2 := by decide +kernel
  have hvalue : movingExpr.eval movingEnvironment = some (0x7FFFFFFFFFFFFF00) := by decide +kernel
  have hshifted : movingExpr.eval (movingEnvironment.shift movingWeights (2 ^ 62 + 1)) =
      some (-254) := by decide +kernel
  have hmotion := weight_measures_motion
    (movingEnvironment.moved_shift movingWeights (2 ^ 62 + 1)) movingExpr hweight
    (by unfold Expr.WeighsExactly; decide +kernel)
  exact ⟨hweight, hvalue, hshifted, hmotion.2 _ _ hvalue hshifted⟩

/-! ### What folding leaves -/

namespace Expr

/-- All parts of an expression, itself first. -/
def parts : Expr → List Expr
  | unary op e => unary op e :: e.parts
  | binary op l r => binary op l r :: (l.parts ++ r.parts)
  | e => [e]

/-- Whatever is in the expression is a number, moves, or has no value. -/
def Folded (env : Environment) (weigh : String → Option Int32) (e : Expr) : Prop :=
  ∀ p ∈ e.parts, p.asNumber? = none → constant? env weigh p = none

variable {env : Environment} {weigh : String → Option Int32}

theorem constant?_eq_none {e : Expr} :
    constant? env weigh e = none ↔ ¬ (e.weight weigh = some 0 ∧ (e.eval env).isSome) := by
  unfold constant?
  split
  · rename_i hweight
    simp [hweight]
  · rename_i hweight
    simp [hweight]

theorem constant?_congr {e e' : Expr} (hweight : e'.weight weigh = e.weight weigh)
    (heval : e'.eval env = e.eval env) : constant? env weigh e' = constant? env weigh e := by
  unfold constant?
  rw [hweight, heval]

/-- **Folding leaves nothing over.** Where it keeps an operator, the whole below it is not
constant, and folding the operands changes neither the value nor the weight of the whole. -/
theorem folded_fold (e : Expr) : Folded env weigh (e.fold env weigh) := by
  have hnumber : ∀ v, Folded env weigh (number v) := by
    intro v p hp hnone
    rw [mem_singleton.mp hp] at hnone
    cases hnone
  -- what is kept is not constant, and neither is what has its value and its weight
  have hkept : ∀ e : Expr, constant? env weigh e = none →
      constant? env weigh (e.fold env weigh) = none := fun e hnone =>
    (constant?_congr (weight_fold env weigh e) (eval_fold env weigh e)).trans hnone
  induction e with
  | number v =>
    unfold fold
    split
    · exact hnumber _
    · exact hnumber _
  | ident | current =>
    unfold fold
    split
    · exact hnumber _
    · rename_i hnone
      intro p hp _
      rw [mem_singleton.mp hp]
      exact hnone
  | unary op e ih =>
    have hwhole := hkept (unary op e)
    unfold fold at hwhole ⊢
    split
    · exact hnumber _
    · rename_i hnone
      intro p hp hp'
      rw [hnone] at hwhole
      rcases mem_cons.mp hp with rfl | hp
      · exact hwhole rfl
      · exact ih p hp hp'
  | binary op l r ihl ihr =>
    have hwhole := hkept (binary op l r)
    unfold fold at hwhole ⊢
    split
    · exact hnumber _
    · rename_i hnone
      intro p hp hp'
      rw [hnone] at hwhole
      rcases mem_cons.mp hp with rfl | hp
      · exact hwhole rfl
      · rcases mem_append.mp hp with hp | hp
        · exact ihl p hp hp'
        · exact ihr p hp hp'

theorem fold_of_folded {e : Expr} (h : Folded env weigh e) : e.fold env weigh = e := by
  induction e with
  | number v => simp [fold, constant?, weight, eval]
  | ident name =>
    unfold fold
    rw [h (ident name) (mem_singleton_self _) rfl]
  | current =>
    unfold fold
    rw [h current (mem_singleton_self _) rfl]
  | unary op e ih =>
    have hoperand : Folded env weigh e := fun p hp => h p (mem_cons_of_mem _ hp)
    rw [fold, h (unary op e) mem_cons_self rfl]
    simp only [ih hoperand]
  | binary op l r ihl ihr =>
    have hleft : Folded env weigh l := fun p hp =>
      h p (mem_cons_of_mem _ (mem_append_left _ hp))
    have hright : Folded env weigh r := fun p hp =>
      h p (mem_cons_of_mem _ (mem_append_right _ hp))
    rw [fold, h (binary op l r) mem_cons_self rfl]
    simp only [ihl hleft, ihr hright]

end Expr

/-- **Folding is faithful and complete**, whatever values and weights names have: it keeps the
value of an expression, also that there is none, and its weight; folding again changes nothing;
and but for numbers, no part of the result both weighs 0 and has a value. -/
theorem fold_is_faithful_and_complete (env : Environment) (weigh : String → Option Int32) (e : Expr) :
    (e.fold env weigh).eval env = e.eval env ∧
    (e.fold env weigh).weight weigh = e.weight weigh ∧
    (e.fold env weigh).fold env weigh = e.fold env weigh ∧
    ∀ p ∈ (e.fold env weigh).parts, (∀ v, p ≠ .number v) →
      ¬ (p.weight weigh = some 0 ∧ (p.eval env).isSome) := by
  refine ⟨Expr.eval_fold env weigh e, Expr.weight_fold env weigh e,
    Expr.fold_of_folded (Expr.folded_fold e), fun p hp hnumber => ?_⟩
  refine Expr.constant?_eq_none.mp (Expr.folded_fold e p hp ?_)
  cases p with
  | number v => exact absurd rfl (hnumber v)
  | _ => rfl

/-- `((s + (c << 3)) - (u + (c / 0))) ^ (s - s)`, where `s` and `u` weigh 1, and `u` and `c / 0`
have no value. -/
def partlyConstant : Expr :=
  .binary .xor
    (.binary .sub (.binary .add (.ident "s") (.binary .shl (.ident "c") (.number 3)))
      (.binary .add (.ident "u") (.binary .div (.ident "c") (.number 0))))
    (.binary .sub (.ident "s") (.ident "s"))

def partlyWeights (name : String) : Option Int32 :=
  if name = "s" ∨ name = "u" then some 1 else if name = "c" then some 0 else none

def partlyEnvironment : Environment where
  lookup name := if name = "s" then some 0x100 else if name = "c" then some 5 else none
  current := none

/-- It folds to `((s + 40) - (u + (5 / 0))) ^ 0`. The left side weighs 0 and is kept, since it has
no value; `s + 40` has one and is kept, since it moves. -/
theorem fold_is_faithful_and_complete_partly :
    let left : Expr := .binary .sub (.binary .add (.ident "s") (.number 40))
      (.binary .add (.ident "u") (.binary .div (.number 5) (.number 0)))
    let folded := .binary .xor left (.number 0)
    partlyConstant.fold partlyEnvironment partlyWeights = folded ∧
    folded.fold partlyEnvironment partlyWeights = folded ∧
    left ∈ folded.parts ∧ left.weight partlyWeights = some 0 ∧
    ¬ (left.weight partlyWeights = some 0 ∧ (left.eval partlyEnvironment).isSome) := by
  intro left folded
  have hfold : partlyConstant.fold partlyEnvironment partlyWeights = folded := by decide +kernel
  have hmem : left ∈ folded.parts := by decide +kernel
  obtain ⟨-, -, hagain, hparts⟩ :=
    fold_is_faithful_and_complete partlyEnvironment partlyWeights partlyConstant
  rw [hfold] at hagain hparts
  exact ⟨hfold, hagain, hmem, by decide +kernel, hparts left hmem fun v h => by simp [left] at h⟩

end WordAsm
