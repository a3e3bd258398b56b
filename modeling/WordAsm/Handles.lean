/-
# Handles

Units, nodes and symbols refer to each other by handles. A symbol handle names
one slot of one symbol store, and every store has an identity of its own.

Walks over handles end because each step leaves fewer handles to visit
(`length_without_lt`).
-/

namespace WordAsm

abbrev UnitId := Nat

/-- The position of a node in its syntax tree. -/
abbrev NodeId := Nat

/-- The identity of a symbol store; a copy has a new one. Identities are compared and nothing
else. A table never runs out of them; they go round after 2³² stores where stores of many
tables are counted together. -/
abbrev StoreId := Nat

structure SymbolId where
  store : StoreId
  slot : Nat
  deriving DecidableEq

def unitTag (id : UnitId) : String := s!"#{id}"

def without {α : Type} [DecidableEq α] (xs : List α) (a : α) : List α := xs.filter (· ≠ a)

/-- A list gets shorter when a member is taken out of it. -/
theorem length_without_lt {α : Type} [DecidableEq α] {a : α} {xs : List α} (h : a ∈ xs) :
    (without xs a).length < xs.length :=
  List.length_filter_lt_length_iff_exists.mpr ⟨a, h, by simp⟩

end WordAsm
