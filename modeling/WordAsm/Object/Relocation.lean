/-
# Relocation tables

A relocation table is the set of places whose words hold addresses of the
code itself. It is kept as a strictly ascending list, and written out as the
number of entries followed by the entries, each a word.
-/
import WordAsm.Error

namespace WordAsm

def dropRepeats (xs : List Address) : List Address :=
  xs.foldr (fun a acc => if acc.head? = some a then acc else a :: acc) []

theorem mem_dropRepeats (a : Address) (xs : List Address) : a ∈ dropRepeats xs ↔ a ∈ xs := by
  induction xs with
  | nil => simp [dropRepeats]
  | cons x xs ih =>
    simp only [dropRepeats, List.foldr_cons] at ih ⊢
    split
    · rename_i h
      have hx := List.mem_of_head? h
      grind
    · simp [ih]

theorem dropRepeats_ascending (xs : List Address) (h : xs.Pairwise (· ≤ ·)) :
    (dropRepeats xs).Pairwise (· < ·) := by
  induction xs with
  | nil => simp [dropRepeats]
  | cons x xs ih =>
    obtain ⟨hx, hxs⟩ := List.pairwise_cons.mp h
    have hmem : ∀ a, a ∈ dropRepeats xs ↔ a ∈ xs := fun a => mem_dropRepeats a xs
    have hsorted := ih hxs
    simp only [dropRepeats, List.foldr_cons] at hsorted hmem ⊢
    split
    · exact hsorted
    · rename_i hne
      generalize List.foldr _ _ xs = ys at hne hsorted hmem
      refine List.pairwise_cons.mpr ⟨fun b hb => ?_, hsorted⟩
      have hle : x ≤ b := hx b ((hmem b).mp hb)
      refine UInt16.lt_of_le_of_ne hle fun heq => ?_
      subst heq
      cases ys with
      | nil => simp at hb
      | cons y ys =>
        simp only [List.head?_cons, Option.some.injEq] at hne
        rcases List.mem_cons.mp hb with rfl | hb
        · exact hne rfl
        · have hlt := (List.pairwise_cons.mp hsorted).1 x hb
          have hge := hx y ((hmem y).mp (List.mem_cons_self ..))
          exact absurd (UInt16.lt_of_lt_of_le hlt hge) (UInt16.lt_irrefl y)

def notAbove (a b : Address) : Bool := a ≤ b

def ascending (xs : List Address) : List Address := dropRepeats (xs.mergeSort notAbove)

theorem ascending_pairwise (xs : List Address) : (ascending xs).Pairwise (· < ·) := by
  have htrans : ∀ a b c : Address, notAbove a b → notAbove b c → notAbove a c := by
    simp only [notAbove, decide_eq_true_eq]
    exact fun a b c hab hbc => UInt16.le_trans hab hbc
  have htotal : ∀ a b : Address, notAbove a b || notAbove b a := by
    simp only [notAbove, Bool.or_eq_true, decide_eq_true_eq]
    exact UInt16.le_total
  refine dropRepeats_ascending _ ((List.pairwise_mergeSort htrans htotal xs).imp ?_)
  exact fun h => of_decide_eq_true h

theorem mem_ascending (a : Address) (xs : List Address) : a ∈ ascending xs ↔ a ∈ xs := by
  rw [ascending, mem_dropRepeats, List.mem_mergeSort]

structure RelocationTable where
  entries : List Address
  isAscending : entries.Pairwise (· < ·)
  deriving DecidableEq

namespace RelocationTable

def empty : RelocationTable := ⟨[], List.Pairwise.nil⟩

def ofList (xs : List Address) : RelocationTable := ⟨ascending xs, ascending_pairwise xs⟩

def contains (t : RelocationTable) (a : Address) : Bool := t.entries.contains a

def insertAll (t : RelocationTable) (xs : List Address) : RelocationTable :=
  ofList (t.entries ++ xs)

def insert (t : RelocationTable) (a : Address) : RelocationTable := t.insertAll [a]

def isEmpty (t : RelocationTable) : Bool := t.entries.isEmpty

def size (t : RelocationTable) : Nat := t.entries.length

def sizeInBytes (t : RelocationTable) : Nat := 2 + 2 * t.size

/-- Adds every entry of `other`, moved up by `offset`, or nothing at all if
one of them leaves the address range. -/
def merge (t other : RelocationTable) (offset : Word) : Except Error Unit × RelocationTable :=
  match other.entries.mapM fun e => addWords e offset with
  | .ok moved => (.ok (), t.insertAll moved)
  | .error e => (.error e, t)

def toBytes (t : RelocationTable) : Except Error Bytes :=
  if t.size < 65536 then .ok (bytesOfWords (UInt16.ofNat t.size :: t.entries))
  else .error (.relocationOverflow t.size)

def ofBytes (bytes : Bytes) : Except Error RelocationTable :=
  match wordsOfBytes bytes with
  | (count :: entries, none) =>
    if entries.length = count.toNat then .ok (ofList entries) else .error .invalidRelocationData
  | _ => .error .invalidRelocationData

theorem mem_ofList (a : Address) (xs : List Address) : a ∈ (ofList xs).entries ↔ a ∈ xs :=
  mem_ascending a xs

theorem mem_insertAll {t : RelocationTable} {xs : List Address} {a : Address} :
    a ∈ (t.insertAll xs).entries ↔ a ∈ t.entries ∨ a ∈ xs := by
  unfold insertAll
  rw [mem_ofList, List.mem_append]

theorem ext_entries {t u : RelocationTable} (h : t.entries = u.entries) : t = u := by
  cases t
  cases u
  simp_all

end RelocationTable

end WordAsm
