/-
# Maps in insertion order

A map is the list of its entries, each new key behind the others. A value that is replaced
keeps its place, and so does one that gets another key (`rekey_append`), although it is taken
out, put in again at the end and moved back from there.
-/

namespace WordAsm

abbrev IndexMap (α β : Type) := List (α × β)

namespace IndexMap

variable {α β : Type} [DecidableEq α]

def get? (m : IndexMap α β) (key : α) : Option β := m.lookup key

def contains (m : IndexMap α β) (key : α) : Bool := (m.get? key).isSome

def values (m : IndexMap α β) : List β := m.map Prod.snd

def insert (m : IndexMap α β) (key : α) (value : β) : IndexMap α β :=
  if m.contains key then m.map fun entry => if entry.1 = key then (key, value) else entry
  else m ++ [(key, value)]

/-- Takes out an entry; those behind it move up. -/
def remove (m : IndexMap α β) (key : α) : IndexMap α β := m.eraseP (·.1 = key)

def indexOf? (m : IndexMap α β) (key : α) : Option Nat := m.findIdx? (·.1 = key)

def moveIndex (m : IndexMap α β) (start stop : Nat) : IndexMap α β :=
  match m[start]? with
  | some entry => (m.eraseIdx start).insertIdx stop entry
  | none => m

/-- Puts a value under a new key, in the place of an old one. -/
def rekey (m : IndexMap α β) (old new : α) (value : β) : Option (IndexMap α β) :=
  (m.indexOf? old).map fun index =>
    let m := (m.remove old).insert new value
    m.moveIndex (m.length - 1) index

/-! ### Keys -/

variable {m before behind : IndexMap α β} {key old new : α} {value : β}

theorem contains_iff : m.contains key = true ↔ key ∈ m.map Prod.fst := by
  simp [contains, get?]

theorem get?_eq_some (h : (m.map Prod.fst).Nodup) : m.get? key = some value ↔ (key, value) ∈ m := by
  unfold get?
  induction m with
  | nil => simp
  | cons entry m ih =>
    obtain ⟨k, v⟩ := entry
    obtain ⟨hnew, hrest⟩ := List.nodup_cons.mp h
    by_cases hkey : key = k
    · subst hkey
      have hnone : (key, value) ∉ m := fun hin => hnew (List.mem_map.mpr ⟨_, hin, rfl⟩)
      simp [hnone, eq_comm]
    · simp [List.lookup_cons, beq_eq_false_iff_ne.mpr hkey, ih hrest, hkey]

theorem insert_of_notMem (h : key ∉ m.map Prod.fst) : m.insert key value = m ++ [(key, value)] := by
  rw [insert, if_neg (fun hin => h (contains_iff.mp hin))]

theorem insert_of_mem (h : key ∈ m.map Prod.fst) :
    m.insert key value = m.map fun entry => if entry.1 = key then (key, value) else entry := by
  rw [insert, if_pos (contains_iff.mpr h)]

/-- **A new key** takes the place of the old one. -/
theorem rekey_append (hold : old ∉ before.map Prod.fst)
    (hnew : new ∉ (before ++ behind).map Prod.fst) :
    rekey (before ++ (old, value) :: behind) old new value =
      some (before ++ (new, value) :: behind) := by
  have hbefore : ∀ entry ∈ before, ¬ decide (entry.1 = old) = true := fun entry hentry he =>
    hold (List.mem_map.mpr ⟨entry, hentry, of_decide_eq_true he⟩)
  have hindex : indexOf? (before ++ (old, value) :: behind) old = some before.length := by
    rw [indexOf?, List.findIdx?_append, List.findIdx?_eq_none_iff.mpr (by simpa using hbefore)]
    simp [List.findIdx?_cons]
  have hremove : remove (before ++ (old, value) :: behind) old = before ++ behind := by
    rw [remove, List.eraseP_append_right _ hbefore]
    simp
  have hinsert : insert (before ++ behind) new value = before ++ behind ++ [(new, value)] :=
    insert_of_notMem hnew
  have hmove : ∀ xs : IndexMap α β, (xs ++ behind).insertIdx xs.length (new, value) =
      xs ++ (new, value) :: behind := by
    intro xs
    induction xs with
    | nil => rfl
    | cons entry xs ih => simp [ih]
  rw [rekey, hindex, Option.map_some, hremove, hinsert]
  simp only [moveIndex]
  rw [List.length_append, List.length_singleton, Nat.add_sub_cancel, List.getElem?_concat_length]
  simp only [List.eraseIdx_append_of_length_le (Nat.le_refl _), Nat.sub_self]
  simp [hmove before]

end IndexMap

end WordAsm
