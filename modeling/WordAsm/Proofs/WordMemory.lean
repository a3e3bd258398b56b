/-
# Word buffers as memories

A buffer is compared with what was written: a list of writes, in order, of which some fail. The
word at an address is the one that the last successful write there put there
(`WordBuffer.lastWord`), and the buffer reaches from its start to the highest address that was
written. One write keeps this (`WordBuffer.Remembers.afterWrite`), whether it fails or not, so
a run of writes does.
-/
import WordAsm.Object.WordBuffer
import WordAsm.Proofs.Attempts
import Mathlib.Data.List.Induction
import Mathlib.Order.Bounds.Basic

namespace WordAsm

open List

namespace WordBuffer

variable {b' b : WordBuffer} {n : ℕ} {s : Set ℕ} {start : Address} {w : Address × List Word}
  {writes : List (Address × List Word)}

/-! ### One write -/

/-- A write that begins at `start` or behind, and ends in the address range. -/
def Within (start : Address) (w : Address × List Word) : Prop :=
  start ≤ w.1 ∧ w.1.toNat + w.2.length ≤ 65536

instance : DecidablePred (Within start) := fun _ => instDecidableAnd

theorem size_overwrite (words : Array Word) (offset : ℕ) (ws : List Word) :
    (overwrite words offset ws).size = words.size := by
  induction ws generalizing words offset with
  | nil => rfl
  | cons w ws ih => rw [overwrite, ih, Array.size_setIfInBounds]

theorem getElem?_overwrite (words : Array Word) (offset : ℕ) (ws : List Word)
    (hsize : offset + ws.length ≤ words.size) (k : ℕ) :
    (overwrite words offset ws)[k]? =
      if offset ≤ k ∧ k < offset + ws.length then ws[k - offset]? else words[k]? := by
  induction ws generalizing words offset with
  | nil => rw [if_neg (by simp)]; rfl
  | cons w ws ih =>
    rw [length_cons] at hsize
    rw [overwrite, ih _ _ (by rw [Array.size_setIfInBounds]; omega),
      Array.getElem?_setIfInBounds, length_cons]
    obtain hk | rfl | hk := Nat.lt_trichotomy k offset
    · rw [if_neg (by omega), if_neg (by omega), if_neg (by omega)]
    · rw [if_neg (by omega), if_pos rfl, if_pos (by omega), if_pos (by omega), Nat.sub_self]
      rfl
    · obtain ⟨j, rfl⟩ : ∃ j, k = offset + 1 + j := ⟨k - (offset + 1), by omega⟩
      have hj : offset + 1 + j - offset = j + 1 := by omega
      rw [if_neg (by omega : offset ≠ offset + 1 + j), hj, Nat.add_sub_cancel_left,
        getElem?_cons_succ]
      exact ite_congr (by simp; omega) (fun _ => rfl) fun _ => rfl

theorem getElem?_grow (words : Array Word) (size k : ℕ) :
    (grow words size)[k]? =
      if k < words.size then words[k]? else if k < size then some 0 else none := by
  rw [grow, Array.getElem?_append]
  refine ite_congr rfl (fun _ => rfl) fun hk => ?_
  rw [Array.getElem?_replicate]
  exact ite_congr (by simp; omega) (fun _ => rfl) fun _ => rfl

theorem size_write {address : Address} {ws : List Word} (hne : ws ≠ [])
    (h : b.write address ws = (.ok (), b')) :
    b'.start = b.start ∧ b.start.toNat ≤ address.toNat ∧
      b'.words.size = max b.words.size (address.toNat - b.start.toNat + ws.length) := by
  unfold write at h
  rw [if_neg (by simpa using hne)] at h
  split at h
  · cases h
  · rename_i hstart
    dsimp only at h
    split at h
    · cases h
    · cases h
      refine ⟨rfl, UInt16.le_iff_toNat_le.mp (UInt16.not_lt.mp hstart), ?_⟩
      rw [size_overwrite, grow, Array.size_append, Array.size_replicate]
      omega

theorem write_nil (b : WordBuffer) (address : Address) : b.write address [] = (.ok (), b) := rfl

/-- **A write in the address range** succeeds, and the buffer is extended to hold it. -/
theorem write_of_within (hne : w.2 ≠ []) (h : Within b.start w) :
    ∃ stop, stop.toNat = w.1.toNat + w.2.length - 1 ∧ b.write w.1 w.2 = (.ok (), { b with
      words := overwrite (grow b.words (w.1.toNat - b.start.toNat + w.2.length))
        (w.1.toNat - b.start.toNat) w.2
      first := some (b.first.elim w.1 (min · w.1))
      last := some (b.last.elim stop (max · stop)) }) := by
  have hpos : 0 < w.2.length := length_pos_iff.mpr hne
  have hend := h.2
  have hlen : (UInt16.ofNat w.2.length - 1).toNat = w.2.length - 1 := by
    rw [UInt16.toNat_sub, UInt16.toNat_ofNat', UInt16.toNat_one]
    omega
  have hadd : addWords w.1 (UInt16.ofNat w.2.length - 1) =
      .ok (w.1 + (UInt16.ofNat w.2.length - 1)) := by
    unfold addWords
    rw [hlen, if_pos (by omega)]
  refine ⟨w.1 + (UInt16.ofNat w.2.length - 1), ?_, ?_⟩
  · rw [addWords_eq_ok hadd, hlen]
    omega
  · unfold write
    rw [if_neg (by simpa using hne), if_neg (UInt16.not_lt.mpr h.1)]
    simp only [hadd]
    cases b.first <;> cases b.last <;> rfl

theorem write_of_not_within (hne : w.2 ≠ []) (hlen : w.2.length ≤ 65535)
    (h : ¬ Within b.start w) : ∃ e, b.write w.1 w.2 = (.error e, b) := by
  have hpos : 0 < w.2.length := length_pos_iff.mpr hne
  unfold write
  rw [if_neg (by simpa using hne)]
  split
  · exact ⟨_, rfl⟩
  · rename_i hstart
    dsimp only
    split
    · exact ⟨_, rfl⟩
    · rename_i stop hstop
      have hadd := addWords_eq_ok hstop
      have hlast : (UInt16.ofNat w.2.length - 1).toNat = w.2.length - 1 := by
        rw [UInt16.toNat_sub, UInt16.toNat_ofNat', UInt16.toNat_one]
        omega
      have hlt := stop.toNat_lt
      exact absurd ⟨UInt16.not_lt.mp hstart, by omega⟩ h

theorem write_fails_iff (hlen : w.2.length ≤ 65535) :
    (∃ e, (b.write w.1 w.2).1 = .error e) ↔
      w.2 ≠ [] ∧ (w.1 < b.start ∨ 0xFFFF < w.1.toNat + w.2.length - 1) := by
  by_cases hne : w.2 = []
  · simp [hne, write_nil]
  have hpos : 0 < w.2.length := length_pos_iff.mpr hne
  have hwithin : Within b.start w ↔ ¬ (w.1 < b.start ∨ 0xFFFF < w.1.toNat + w.2.length - 1) := by
    rw [not_or, UInt16.not_lt, Within]
    exact and_congr_right fun _ => by omega
  by_cases h : Within b.start w
  · obtain ⟨stop, -, hok⟩ := write_of_within hne h
    simp [hok, hwithin.mp h]
  · obtain ⟨e, he⟩ := write_of_not_within hne hlen h
    exact iff_of_true ⟨e, congrArg Prod.fst he⟩ ⟨hne, not_not.mp (hwithin.not.mp h)⟩

/-- **A write that fails** leaves the buffer as it was. -/
theorem write_eq_error {e : Error} (h : (b.write w.1 w.2).1 = .error e) :
    (b.write w.1 w.2).2 = b := by
  unfold write at h ⊢
  split
  · rfl
  · rename_i hne
    rw [if_neg hne] at h
    split
    · rfl
    · rename_i hstart
      rw [if_neg hstart] at h
      dsimp only at h ⊢
      split at h
      · rfl
      · cases h

/-! ### A run of writes -/

def wordAt (w : Address × List Word) (n : ℕ) : Option Word :=
  if w.1.toNat ≤ n then w.2[n - w.1.toNat]? else none

/-- The word that the last successful write at the address `n` puts there. -/
def lastWord (start : Address) (writes : List (Address × List Word)) (n : ℕ) : Option Word :=
  (writes.reverse.filter (Within start)).findSome? (wordAt · n)

def afterWrite (b : WordBuffer) (w : Address × List Word) : WordBuffer := (b.write w.1 w.2).2

def written (start : Address) (writes : List (Address × List Word)) : Set ℕ :=
  { n | (lastWord start writes n).isSome }

/-- The buffer reaches from its start to the highest address written. -/
inductive Spans (written : Set ℕ) (b : WordBuffer) : Prop
  | nothing (first : b.first = none) (last : b.last = none) (size : b.words.size = 0)
      (empty : written = ∅)
  | words (first last : Address) (hfirst : b.first = some first) (hlast : b.last = some last)
      (least : IsLeast written first.toNat) (greatest : IsGreatest written last.toNat)
      (size : b.start.toNat + b.words.size = last.toNat + 1)

/-- The buffer holds the words that were written last, and zeros between them. -/
structure Remembers (writes : List (Address × List Word)) (b : WordBuffer) : Prop where
  word : ∀ k < b.words.size, b.words[k]? = some ((lastWord b.start writes (b.start.toNat + k)).getD 0)
  spans : b.Spans (written b.start writes)

theorem isSome_wordAt : (wordAt w n).isSome ↔ w.1.toNat ≤ n ∧ n < w.1.toNat + w.2.length := by
  unfold wordAt
  split <;> simp <;> omega

theorem lastWord_concat (n : ℕ) : lastWord start (writes ++ [w]) n =
    if Within start w then (wordAt w n).or (lastWord start writes n)
    else lastWord start writes n := by
  unfold lastWord
  rw [reverse_append, reverse_singleton, singleton_append, filter_cons]
  by_cases h : Within start w
  · rw [if_pos (decide_eq_true h), if_pos h, findSome?_cons]
    cases wordAt w n <;> rfl
  · rw [if_neg (by simpa using h), if_neg h]

theorem written_concat (h : Within start w) :
    written start (writes ++ [w]) = written start writes ∪ { n | (wordAt w n).isSome } := by
  ext n
  simp [written, lastWord_concat, if_pos h, or_comm]

theorem toNat_min (a c : Address) : (min a c).toNat = min a.toNat c.toNat := by
  show (if a ≤ c then a else c).toNat = _
  split <;> simp_all only [UInt16.le_iff_toNat_le] <;> omega

theorem toNat_max (a c : Address) : (max a c).toNat = max a.toNat c.toNat := by
  show (if a ≤ c then c else a).toNat = _
  split <;> simp_all only [UInt16.le_iff_toNat_le] <;> omega

theorem Spans.lt (h : b.Spans s) (hn : n ∈ s) : n < b.start.toNat + b.words.size := by
  cases h with
  | nothing _ _ _ empty =>
    rw [empty] at hn
    exact hn.elim
  | words first last _ _ _ greatest size =>
    have hle := greatest.2 hn
    omega

theorem Spans.write (h : b.Spans s) (hne : w.2 ≠ []) (hwithin : Within b.start w)
    (hwrite : b.write w.1 w.2 = (.ok (), b')) : b'.Spans (s ∪ { n | (wordAt w n).isSome }) := by
  have hpos : 0 < w.2.length := length_pos_iff.mpr hne
  obtain ⟨-, hle, hsize⟩ := size_write hne hwrite
  obtain ⟨stop, hstop, hok⟩ := write_of_within hne hwithin
  cases hwrite.symm.trans hok
  have hleast : IsLeast { n | (wordAt w n).isSome } w.1.toNat :=
    ⟨isSome_wordAt.mpr ⟨le_rfl, by omega⟩, fun n hn => (isSome_wordAt.mp hn).1⟩
  have hgreatest : IsGreatest { n | (wordAt w n).isSome } stop.toNat := by
    refine ⟨isSome_wordAt.mpr (by omega), fun n hn => ?_⟩
    have hlt := (isSome_wordAt.mp hn).2
    omega
  cases h with
  | nothing first last size empty =>
    rw [empty, Set.empty_union]
    refine .words w.1 stop ?_ ?_ hleast hgreatest ?_
    · simp only [first, Option.elim_none]
    · simp only [last, Option.elim_none]
    · simp only [hsize]
      omega
  | words first last hfirst hlast least greatest size =>
    refine .words (min first w.1) (max last stop) ?_ ?_ ?_ ?_ ?_
    · simp only [hfirst, Option.elim_some]
    · simp only [hlast, Option.elim_some]
    · rw [toNat_min]
      exact least.union hleast
    · rw [toNat_max]
      exact greatest.union hgreatest
    · rw [toNat_max]
      simp only [hsize]
      omega

theorem Remembers.write (h : b.Remembers writes) (hne : w.2 ≠ []) (hwithin : Within b.start w)
    (hwrite : b.write w.1 w.2 = (.ok (), b')) : b'.start = b.start ∧ b'.Remembers (writes ++ [w]) := by
  have hspans := h.spans.write hne hwithin hwrite
  obtain ⟨-, hle, hsize⟩ := size_write hne hwrite
  obtain ⟨stop, hstop, hok⟩ := write_of_within hne hwithin
  cases hwrite.symm.trans hok
  refine ⟨rfl, fun k hk => ?_, by rwa [written_concat hwithin]⟩
  dsimp only
  rw [getElem?_overwrite _ _ _ (by rw [grow, Array.size_append, Array.size_replicate]; omega),
    getElem?_grow, lastWord_concat, if_pos hwithin]
  by_cases hcover : w.1.toNat - b.start.toNat ≤ k ∧
      k < w.1.toNat - b.start.toNat + w.2.length
  · -- the words of the write itself
    have hindex : b.start.toNat + k - w.1.toNat = k - (w.1.toNat - b.start.toNat) := by omega
    rw [if_pos hcover, wordAt, if_pos (by omega), hindex, getElem?_eq_getElem (by omega)]
    rfl
  · have hnone : wordAt w (b.start.toNat + k) = none := by
      rw [← Option.not_isSome_iff_eq_none, isSome_wordAt]
      omega
    rw [if_neg hcover, hnone, Option.none_or]
    by_cases hold : k < b.words.size
    · rw [if_pos hold, h.word k hold]
    · -- a gap between the words that were there and those of the write
      have hgap : lastWord b.start writes (b.start.toNat + k) = none := by
        by_contra hsome
        have hlt := h.spans.lt (Option.isSome_iff_ne_none.mpr hsome)
        omega
      rw [if_neg hold, if_pos (by omega), hgap]
      rfl

/-- **A write is remembered**: its words are put over those before, and a write that fails
changes nothing. -/
theorem Remembers.afterWrite (h : b.Remembers writes) (hlen : w.2.length ≤ 65535) :
    (b.afterWrite w).start = b.start ∧ (b.afterWrite w).Remembers (writes ++ [w]) := by
  unfold WordBuffer.afterWrite
  by_cases hne : w.2 = []
  · rw [hne, write_nil]
    have hlast : ∀ n, lastWord b.start (writes ++ [w]) n = lastWord b.start writes n := fun n => by
      simp [lastWord_concat, wordAt, hne]
    exact ⟨rfl, by simpa only [hlast] using h.word, by simpa only [written, hlast] using h.spans⟩
  by_cases hwithin : Within b.start w
  · obtain ⟨stop, -, hok⟩ := write_of_within hne hwithin
    have hwrite := h.write hne hwithin hok
    rwa [hok]
  · obtain ⟨e, herror⟩ := write_of_not_within hne hlen hwithin
    have hlast : ∀ n, lastWord b.start (writes ++ [w]) n = lastWord b.start writes n := fun n => by
      rw [lastWord_concat, if_neg hwithin]
    rw [herror]
    exact ⟨rfl, by simpa only [hlast] using h.word, by simpa only [written, hlast] using h.spans⟩

def afterWrites (start : Address) (writes : List (Address × List Word)) : WordBuffer :=
  writes.foldl WordBuffer.afterWrite { start }

theorem remembers_afterWrites (hlen : ∀ w ∈ writes, w.2.length ≤ 65535) :
    (afterWrites start writes).start = start ∧
      (afterWrites start writes).Remembers writes := by
  induction writes using List.reverseRecOn with
  | nil =>
    refine ⟨rfl, fun k hk => absurd hk (Nat.not_lt_zero k), .nothing rfl rfl rfl ?_⟩
    exact Set.eq_empty_iff_forall_notMem.mpr fun n hn => Bool.noConfusion hn
  | append_singleton writes w ih =>
    obtain ⟨hstart, hbuffer⟩ := ih fun v hv => hlen v (mem_append_left _ hv)
    have hstep := hbuffer.afterWrite (hlen w (by simp))
    rw [hstart] at hstep
    rwa [afterWrites, foldl_append]

end WordBuffer

theorem getElem?_bytesOfWords (ws : List Word) (k : ℕ) {w : Word} (h : ws[k]? = some w) :
    (bytesOfWords ws)[2 * k]? = some (UInt8.ofNat (w.toNat / 256)) ∧
      (bytesOfWords ws)[2 * k + 1]? = some (UInt8.ofNat (w.toNat % 256)) := by
  induction ws generalizing k with
  | nil => cases h
  | cons v ws ih =>
    cases k with
    | zero =>
      cases h
      exact ⟨rfl, rfl⟩
    | succ k => exact ih k h

/-- A buffer is the memory that its writes make of it. Whatever was written before, a write fails
just if it has words and begins in front of the start or ends behind the address range, and then
nothing changes; neither does a write without words change anything. At every address in the
buffer stands the word of the last successful write there, or zero, and the buffer ends with the
highest address written. Its bytes are its words in order, the high byte first. -/
theorem word_buffer_remembers (start : Address) (writes : List (Address × List Word))
    (hlen : ∀ w ∈ writes, w.2.length ≤ 65535) :
    let b := WordBuffer.afterWrites start writes
    (∀ w : Address × List Word, w.2.length ≤ 65535 →
      ((∃ e, (b.write w.1 w.2).1 = .error e) ↔
        w.2 ≠ [] ∧ (w.1 < start ∨ 0xFFFF < w.1.toNat + w.2.length - 1)) ∧
      ((∃ e, (b.write w.1 w.2).1 = .error e) → (b.write w.1 w.2).2 = b) ∧
      (w.2 = [] → b.write w.1 w.2 = (.ok (), b))) ∧
    (∀ k < b.words.size, b.words[k]? =
      some ((WordBuffer.lastWord start writes (start.toNat + k)).getD 0)) ∧
    b.Spans (WordBuffer.written start writes) ∧
    b.toBytes.length = 2 * b.words.size ∧
    ∀ k w, b.words[k]? = some w → b.toBytes[2 * k]? = some (UInt8.ofNat (w.toNat / 256)) ∧
      b.toBytes[2 * k + 1]? = some (UInt8.ofNat (w.toNat % 256)) := by
  intro b
  obtain ⟨hstart, hbuffer⟩ : b.start = start ∧ b.Remembers writes :=
    WordBuffer.remembers_afterWrites hlen
  refine ⟨fun w hw => ⟨?_, ?_, ?_⟩, ?_, ?_, ?_, fun k w hw => ?_⟩
  · rw [WordBuffer.write_fails_iff hw, hstart]
  · rintro ⟨e, he⟩
    exact WordBuffer.write_eq_error he
  · intro hnil
    rw [hnil, WordBuffer.write_nil]
  · rw [← hstart]
    exact hbuffer.word
  · rw [← hstart]
    exact hbuffer.spans
  · rw [WordBuffer.toBytes, length_bytesOfWords, Array.length_toList]
  · exact getElem?_bytesOfWords _ _ (by rwa [Array.getElem?_toList])

/-- Two writes overlap, with one that fails between them, and leave a gap behind the start. -/
theorem word_buffer_remembers_overlap :
    let writes := [(0x102, [1, 2, 3]), (0xFFFF, [4, 5]), (0x103, [6])]
    (∀ w ∈ writes, w.2.length ≤ 65535) ∧
    (WordBuffer.afterWrites 0x100 writes).words = #[0, 0, 1, 6, 3] ∧
    (WordBuffer.afterWrites 0x100 writes).Spans (WordBuffer.written 0x100 writes) := by
  intro writes
  have hlen : ∀ w ∈ writes, w.2.length ≤ 65535 := by decide
  exact ⟨hlen, by decide, (word_buffer_remembers 0x100 writes hlen).2.2.1⟩

end WordAsm
