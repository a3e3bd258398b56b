/-
# Segments poured into one sequence

The words of a unit and the modules of an image are laid down in the same way:
pieces at ascending offsets, one after the other, with a filler between them.
`pour` is that sequence. What is at an offset is then read off the piece that
covers it (`getElem?_pour`), or is filler (`getElem?_pour_uncovered`), and the
whole is as long as its last piece reaches (`length_pour`).
-/
import WordAsm.Object.WordBuffer
import Mathlib.Data.List.Basic

namespace WordAsm

open List

structure Segment (α : Type) where
  offset : ℕ
  content : List α

namespace Segment

variable {α β : Type}

def stop (s : Segment α) : ℕ := s.offset + s.content.length

def map (f : α → β) (s : Segment α) : Segment β := ⟨s.offset, s.content.map f⟩

def Covers (s : Segment α) (k : ℕ) : Prop := s.offset ≤ k ∧ k < s.stop

end Segment

section Pour

variable {α β : Type} {pos k : ℕ} {s : Segment α}

/-- The contents of segments, with `fill` ahead of each from `pos` on. -/
def pour (fill : α) (pos : ℕ) : List (Segment α) → List α
  | [] => []
  | s :: rest => List.replicate (s.offset - pos) fill ++ (s.content ++ pour fill s.stop rest)

/-- Each segment starts where the one before ends, or later; the first one does
not start before `pos`. -/
def Ascend (pos : ℕ) : List (Segment α) → Prop
  | [] => True
  | s :: rest => pos ≤ s.offset ∧ Ascend s.stop rest

def pourEnd (pos : ℕ) : List (Segment α) → ℕ
  | [] => pos
  | s :: rest => pourEnd s.stop rest

theorem pourEnd_eq (pos : ℕ) (ss : List (Segment α)) :
    pourEnd pos ss = (ss.getLast?.map Segment.stop).getD pos := by
  induction ss generalizing pos with
  | nil => rfl
  | cons s rest ih =>
    rw [pourEnd, ih]
    cases rest with
    | nil => rfl
    | cons r rest => rw [getLast?_cons_cons, getLast?_cons]; rfl

variable {ss : List (Segment α)} (fill : α) (h : Ascend pos ss)

include h

theorem Ascend.le_offset : ∀ s ∈ ss, pos ≤ s.offset := by
  induction ss generalizing pos with
  | nil => simp
  | cons s rest ih =>
    intro r hr
    rcases mem_cons.mp hr with rfl | hr
    · exact h.1
    · have hle := ih h.2 r hr
      have hpos := h.1
      unfold Segment.stop at hle
      omega

theorem le_pourEnd : pos ≤ pourEnd pos ss ∧ ∀ s ∈ ss, s.stop ≤ pourEnd pos ss := by
  induction ss generalizing pos with
  | nil => simp [pourEnd]
  | cons s rest ih =>
    obtain ⟨hle, hall⟩ := ih h.2
    have hpos := h.1
    have hstop : s.offset ≤ s.stop := Nat.le_add_right _ _
    refine ⟨by rw [pourEnd]; omega, fun r hr => ?_⟩
    rcases mem_cons.mp hr with rfl | hr
    · exact hle
    · exact hall r hr

theorem length_pour : pos + (pour fill pos ss).length = pourEnd pos ss := by
  induction ss generalizing pos with
  | nil => rfl
  | cons s rest ih =>
    have hrest := ih h.2
    have hpos := h.1
    have hstop : s.stop = s.offset + s.content.length := rfl
    rw [pourEnd, ← hrest, pour, length_append, length_append, length_replicate]
    omega

theorem getElem?_pour (hs : s ∈ ss) {i : ℕ} (hi : i < s.content.length) :
    (pour fill pos ss)[s.offset - pos + i]? = s.content[i]? := by
  induction ss generalizing pos with
  | nil => cases hs
  | cons r rest ih =>
    have hpos := h.1
    rw [pour]
    rcases mem_cons.mp hs with rfl | hs
    · rw [getElem?_append_right (by simp), length_replicate, Nat.add_sub_cancel_left,
        getElem?_append_left hi]
    · -- the segment lies behind the first one, which `h.2` says
      have hbehind := h.2.le_offset s hs
      have hstop : r.stop = r.offset + r.content.length := rfl
      rw [getElem?_append_right (by rw [length_replicate]; omega),
        getElem?_append_right (by rw [length_replicate]; omega), ← ih h.2 hs]
      congr 1
      rw [length_replicate]
      omega

theorem drop_pour (hs : s ∈ ss) :
    ∃ rest, (pour fill pos ss).drop (s.offset - pos) = s.content ++ rest := by
  induction ss generalizing pos with
  | nil => cases hs
  | cons r rest ih =>
    have hpos := h.1
    rw [pour]
    rcases mem_cons.mp hs with rfl | hs
    · exact ⟨_, drop_left' (length_replicate ..)⟩
    · obtain ⟨more, hmore⟩ := ih h.2 hs
      have hbehind := h.2.le_offset s hs
      have hstop : r.stop = r.offset + r.content.length := rfl
      refine ⟨more, ?_⟩
      rw [← hmore, show s.offset - pos = (r.offset - pos) +
        (r.content.length + (s.offset - r.stop)) by
        omega, ← drop_drop, drop_left' (length_replicate ..), ← drop_drop,
        drop_left' rfl]

theorem getElem?_pour_uncovered (hk : k < (pour fill pos ss).length)
    (hno : ∀ s ∈ ss, ¬ s.Covers (pos + k)) : (pour fill pos ss)[k]? = some fill := by
  induction ss generalizing pos k with
  | nil => simp [pour] at hk
  | cons r rest ih =>
    have hpos := h.1
    have hstop : r.stop = r.offset + r.content.length := rfl
    have hr : pos + k < r.offset ∨ r.stop ≤ pos + k := by
      have hno' := hno r mem_cons_self
      unfold Segment.Covers at hno'
      omega
    rw [pour] at hk ⊢
    rcases hr with hr | hr
    · rw [getElem?_append_left (by rw [length_replicate]; omega)]
      exact getElem?_replicate_of_lt (by omega)
    · simp only [length_append, length_replicate] at hk
      rw [getElem?_append_right (by rw [length_replicate]; omega),
        getElem?_append_right (by rw [length_replicate]; omega), length_replicate]
      refine ih h.2 (by omega) fun s hs => ?_
      have hpos' : r.stop + (k - (r.offset - pos) - r.content.length) = pos + k := by omega
      rw [hpos']
      exact hno s (mem_cons_of_mem _ hs)

theorem getElem?_pour_eq_some_iff {fill : α} {x : α} (hx : x ≠ fill) :
    (pour fill pos ss)[k]? = some x ↔
      ∃ s ∈ ss, ∃ i, s.content[i]? = some x ∧ pos + k = s.offset + i := by
  constructor
  · intro hk
    have hlt := (List.getElem?_eq_some_iff.mp hk).1
    by_contra hno
    by_cases hcov : ∃ s ∈ ss, s.Covers (pos + k)
    · obtain ⟨s, hs, hlo, hhi⟩ := hcov
      unfold Segment.stop at hhi
      have hget := getElem?_pour fill h hs (i := pos + k - s.offset) (by omega)
      have hpos := h.le_offset s hs
      rw [show s.offset - pos + (pos + k - s.offset) = k by omega, hk] at hget
      exact hno ⟨s, hs, pos + k - s.offset, hget.symm, by omega⟩
    · have hfill := getElem?_pour_uncovered fill h hlt fun s hs hc => hcov ⟨s, hs, hc⟩
      rw [hk] at hfill
      exact hx (Option.some.inj hfill)
  · rintro ⟨s, hs, i, hi, hk⟩
    have hpos := h.le_offset s hs
    rw [← hi, ← getElem?_pour fill h hs (List.getElem?_eq_some_iff.mp hi).1]
    congr 1
    omega

end Pour

end WordAsm
