/-
# Computations that may fail

What is known of the parts of a computation whose result is known: one step after another,
the same work for every member of a list, sums of addresses.

Key theorems: `bind_eq_ok`, `bind_eq_error`, `forall₂_of_mapM`, `split_of_mapM_error`.
-/
import WordAsm.Proofs.TablePairs

namespace WordAsm

open List

variable {ε α β : Type} {x : Except ε α} {f : α → Except ε β} {xs : List α} {ys : List β} {e : ε}

theorem bind_eq_ok {b : β} (h : (x >>= f) = .ok b) : ∃ a, x = .ok a ∧ f a = .ok b := by
  cases x with
  | error e => cases h
  | ok a => exact ⟨a, rfl, h⟩

theorem eq_ok_of_toOption {a : α} (h : x.toOption = some a) : x = .ok a := by
  cases x with
  | error e => cases h
  | ok b => exact congrArg _ (Option.some.inj h)

theorem bind_eq_error (h : (x >>= f) = .error e) :
    x = .error e ∨ ∃ a, x = .ok a ∧ f a = .error e := by
  cases x with
  | error e' =>
    cases h
    exact .inl rfl
  | ok a => exact .inr ⟨a, rfl, h⟩

theorem mapM_eq_ok {g : α → β} (h : ∀ x ∈ xs, f x = .ok (g x)) : xs.mapM f = .ok (xs.map g) := by
  induction xs with
  | nil => rfl
  | cons x xs ih =>
    rw [mapM_cons, h x mem_cons_self, ih fun y hy => h y (mem_cons_of_mem _ hy)]
    rfl

theorem forall₂_of_mapM (h : xs.mapM f = .ok ys) : Forall₂ (fun x y => f x = .ok y) xs ys := by
  induction xs generalizing ys with
  | nil =>
    cases h
    exact .nil
  | cons x xs ih =>
    rw [mapM_cons] at h
    obtain ⟨y, hy, h⟩ := bind_eq_ok h
    obtain ⟨zs, hzs, h⟩ := bind_eq_ok h
    cases h
    exact .cons hy (ih hzs)

theorem exists_of_mapM (h : xs.mapM f = .ok ys) {x : α} (hx : x ∈ xs) :
    ∃ y, f x = .ok y ∧ y ∈ ys := by
  obtain ⟨i, hi⟩ := mem_iff_getElem?.mp hx
  obtain ⟨y, hy, hxy⟩ := rel_some (forall₂_getElem? (forall₂_of_mapM h) i) hi
  exact ⟨y, hxy, mem_of_getElem? hy⟩

theorem of_mem_mapM (h : xs.mapM f = .ok ys) {y : β} (hy : y ∈ ys) : ∃ x ∈ xs, f x = .ok y := by
  obtain ⟨i, hi⟩ := mem_iff_getElem?.mp hy
  obtain ⟨x, hx, hxy⟩ := rel_some (forall₂_getElem? (forall₂_of_mapM h).flip i) hi
  exact ⟨x, mem_of_getElem? hx, hxy⟩

theorem split_of_mapM_error (h : xs.mapM f = .error e) :
    ∃ front x back, xs = front ++ x :: back ∧ f x = .error e ∧ ∀ y ∈ front, ∃ z, f y = .ok z := by
  induction xs with
  | nil => cases h
  | cons x xs ih =>
    rw [mapM_cons] at h
    rcases bind_eq_error h with hx | ⟨y, hy, h⟩
    · exact ⟨[], x, xs, rfl, hx, by simp⟩
    · rcases bind_eq_error h with hxs | ⟨ys, -, h⟩
      · obtain ⟨front, z, back, rfl, hz, hfront⟩ := ih hxs
        exact ⟨x :: front, z, back, rfl, hz, forall_mem_cons.mpr ⟨⟨y, hy⟩, hfront⟩⟩
      · cases h

theorem exists_error_of_mapM (h : xs.mapM f = .error e) :
    ∃ x ∈ xs, f x = .error e := by
  obtain ⟨front, x, back, rfl, hx, -⟩ := split_of_mapM_error h
  exact ⟨x, by simp, hx⟩

theorem exists_error_of_forM {f : α → Except ε Unit}
    (h : xs.forM f = .error e) : ∃ x ∈ xs, f x = .error e := by
  induction xs with
  | nil => cases h
  | cons x xs ih =>
    have hcons : (f x >>= fun _ => xs.forM f) = .error e := h
    rcases bind_eq_error hcons with hx | ⟨-, -, hxs⟩
    · exact ⟨x, .head _, hx⟩
    · obtain ⟨z, hz, he⟩ := ih hxs
      exact ⟨z, .tail _ hz, he⟩

theorem foldlM_induct {f : α → β → Except ε α} {P : α → Prop}
    (hf : ∀ a b a', P a → f a b = .ok a' → P a') {items : List β} {a a' : α} (h : P a)
    (hok : items.foldlM f a = .ok a') : P a' := by
  induction items generalizing a with
  | nil =>
    cases hok
    exact h
  | cons b items ih =>
    obtain ⟨c, hc, hok⟩ := bind_eq_ok hok
    exact ih (hf a b c h hc) hok

theorem addWords_eq_ok {base offset sum : Word} (h : addWords base offset = .ok sum) :
    sum.toNat = base.toNat + offset.toNat := by
  unfold addWords at h
  split at h
  · cases h
    rw [UInt16.toNat_add, Nat.mod_eq_of_lt ‹_›]
  · cases h

theorem addWords_eq_error {base offset : Word} {e : Error} (h : addWords base offset = .error e) :
    e = .addressOutOfRange base offset ∧ 0xFFFF < base.toNat + offset.toNat := by
  unfold addWords at h
  split at h
  · cases h
  · cases h
    exact ⟨rfl, by omega⟩

end WordAsm
