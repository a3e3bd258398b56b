/-
# Relocation tables as sets

A relocation table is what it contains (`RelocationTable.ext_mem`), so merging is a union, and
tables may be merged in any order. A merge that moves an entry out of the address range fails
with the smallest such entry and adds nothing.

Written out, a table is its size and its entries, each a word. All tables but the full one have
a size that is a word. What is read back may be any words behind their number
(`RelocationTable.ofBytes_eq_ok`); the table has them in ascending order and without repetition,
so writing it gives the same bytes just if the words were ascending.
-/
import WordAsm.Proofs.Attempts
import WordAsm.Object.Relocation
import Mathlib.Data.List.Perm.Subperm
import Mathlib.Data.List.Sort

namespace WordAsm

open List

/-! ### Words read from bytes -/

theorem Word.bytes_ofBytes (high low : UInt8) : (Word.ofBytes high low).bytes = [high, low] := by
  have hhigh := high.toNat_lt
  have hlow := low.toNat_lt
  have hword : (Word.ofBytes high low).toNat = high.toNat * 256 + low.toNat := by
    rw [Word.ofBytes, UInt16.toNat_ofNat']
    omega
  have hdiv : (Word.ofBytes high low).toNat / 256 = high.toNat := by omega
  have hmod : (Word.ofBytes high low).toNat % 256 = low.toNat := by omega
  rw [Word.bytes, hdiv, hmod, UInt8.ofNat_toNat, UInt8.ofNat_toNat]

theorem wordsOfBytes_go_eq : ∀ (bytes : Bytes) (acc : Array Word), ∃ ws left,
    wordsOfBytes.go acc bytes = (acc.toList ++ ws, left) ∧
      bytes = bytesOfWords ws ++ left.toList
  | [], acc => ⟨[], none, by simp [wordsOfBytes.go], rfl⟩
  | [b], acc => ⟨[], some b, by simp [wordsOfBytes.go], rfl⟩
  | high :: low :: rest, acc => by
    obtain ⟨ws, left, hgo, hrest⟩ := wordsOfBytes_go_eq rest (acc.push (Word.ofBytes high low))
    refine ⟨Word.ofBytes high low :: ws, left, by simp [wordsOfBytes.go, hgo], ?_⟩
    simp only [bytesOfWords, flatMap_cons, Word.bytes_ofBytes] at hrest ⊢
    rw [hrest]
    rfl

theorem bytesOfWords_injective : Function.Injective bytesOfWords := by
  intro ws ws' h
  have hread := congrArg (fun bytes => (wordsOfBytes bytes).1) h
  simpa [wordsOfBytes_bytesOfWords] using hread

namespace RelocationTable

variable {n : ℕ} {bytes : Bytes} {t u : RelocationTable} {offset : Word}

/-! ### The size of a table -/

theorem ext_mem (h : ∀ a, a ∈ t.entries ↔ a ∈ u.entries) : t = u := by
  have hirrefl : Std.Irrefl (α := Address) (· < ·) := ⟨UInt16.lt_irrefl⟩
  have hantisymm : Std.Antisymm (α := Address) (· < ·) :=
    ⟨fun a b hab hba => absurd (UInt16.lt_trans hab hba) (UInt16.lt_irrefl a)⟩
  exact ext_entries (t.isAscending.eq_of_mem_iff u.isAscending h)

theorem nodup (t : RelocationTable) : t.entries.Nodup :=
  t.isAscending.imp fun h heq => by
    subst heq
    exact UInt16.lt_irrefl _ h

theorem size_insertAll {xs : List Address} (hxs : xs.Nodup)
    (hnew : ∀ a ∈ xs, a ∉ t.entries) : (t.insertAll xs).size = t.size + xs.length := by
  have hnodup : (t.entries ++ xs).Nodup :=
    nodup_append.mpr ⟨t.nodup, hxs, fun a ha b hb hab => hnew b hb (hab ▸ ha)⟩
  have hperm : (t.insertAll xs).entries.Perm (t.entries ++ xs) :=
    (perm_ext_iff_of_nodup (nodup _) hnodup).mpr fun a => by
      rw [mem_insertAll, mem_append]
  unfold size
  rw [hperm.length_eq, length_append]

theorem nodup_toNat (t : RelocationTable) : (t.entries.map UInt16.toNat).Nodup :=
  pairwise_map.mpr (t.nodup.imp fun hne heq => hne (UInt16.toNat_inj.mp heq))

theorem subperm_range (h : ∀ e ∈ t.entries, e.toNat < n) :
    (t.entries.map UInt16.toNat).Subperm (List.range n) := by
  refine subperm_of_subset t.nodup_toNat fun k hk => ?_
  obtain ⟨e, he, rfl⟩ := mem_map.mp hk
  exact mem_range.mpr (h e he)

theorem size_le_of_lt (t : RelocationTable) (h : ∀ e ∈ t.entries, e.toNat < n) : t.size ≤ n := by
  have hle := (subperm_range h).length_le
  rwa [length_map, length_range] at hle

/-- **Only the table of all addresses** has too many entries for a word. -/
theorem full_iff : 65536 ≤ t.size ↔ ∀ a, a ∈ t.entries := by
  constructor
  · intro hfull a
    have hperm := (subperm_range fun e _ => e.toNat_lt).perm_of_length_le
      (by simpa [size] using hfull)
    have hmem := hperm.mem_iff.mpr (mem_range.mpr a.toNat_lt)
    obtain ⟨b, hb, hab⟩ := mem_map.mp hmem
    exact UInt16.toNat_inj.mp hab ▸ hb
  · intro hall
    have hback : List.range 65536 ⊆ t.entries.map UInt16.toNat := fun n hn =>
      mem_map.mpr ⟨UInt16.ofNat n, hall _, by
        rw [UInt16.toNat_ofNat', Nat.mod_eq_of_lt (mem_range.mp hn)]⟩
    have hle := (subperm_of_subset nodup_range hback).length_le
    simpa [size] using hle

/-! ### Writing and reading -/

theorem toBytes_eq_ok : t.toBytes = .ok bytes ↔
    t.size < 65536 ∧ bytes = bytesOfWords (UInt16.ofNat t.size :: t.entries) := by
  unfold toBytes
  split <;> simp_all [eq_comm]

theorem ofList_of_ascending {ws : List Address} (h : ws.Pairwise (· < ·)) : ofList ws = ⟨ws, h⟩ :=
  ext_mem fun a => mem_ofList a ws

/-- **What can be read** is words behind their number. -/
theorem ofBytes_eq_ok : ofBytes bytes = .ok t ↔ ∃ count ws,
    bytes = bytesOfWords (count :: ws) ∧ ws.length = count.toNat ∧ t = ofList ws := by
  constructor
  · intro h
    obtain ⟨ws, left, hgo, rfl⟩ := wordsOfBytes_go_eq bytes #[]
    rw [ofBytes, wordsOfBytes, hgo] at h
    split at h
    · rename_i count entries heq
      cases heq
      split at h
      · cases h
        exact ⟨count, entries, append_nil _, ‹_›, rfl⟩
      · cases h
    · cases h
  · rintro ⟨count, ws, rfl, hcount, rfl⟩
    rw [ofBytes, wordsOfBytes_bytesOfWords]
    simp only [hcount, if_true]

theorem readable_iff : (∃ t, ofBytes bytes = .ok t) ↔ bytes.length % 2 = 0 ∧
    ∃ high low rest, bytes = high :: low :: rest ∧
      (Word.ofBytes high low).toNat = rest.length / 2 := by
  constructor
  · rintro ⟨t, ht⟩
    obtain ⟨count, ws, rfl, hcount, -⟩ := ofBytes_eq_ok.mp ht
    refine ⟨by rw [length_bytesOfWords]; omega, _, _, bytesOfWords ws, rfl, ?_⟩
    rw [Word.ofBytes_bytes, length_bytesOfWords]
    omega
  · rintro ⟨heven, high, low, rest, rfl, hcount⟩
    obtain ⟨ws, left, -, rfl⟩ := wordsOfBytes_go_eq rest #[]
    simp only [length_cons, length_append, length_bytesOfWords] at heven hcount
    cases left with
    | some b =>
      rw [Option.toList_some, length_singleton] at heven
      omega
    | none =>
      rw [Option.toList_none, append_nil]
      refine ⟨_, ofBytes_eq_ok.mpr ⟨Word.ofBytes high low, ws, ?_, ?_, rfl⟩⟩
      · show _ = (Word.ofBytes high low).bytes ++ bytesOfWords ws
        rw [Word.bytes_ofBytes]
        rfl
      · simp only [Option.toList_none, length_nil] at hcount
        omega

theorem toBytes_ofList {count : Word} {ws : List Word} (hcount : ws.length = count.toNat) :
    (ofList ws).toBytes = .ok (bytesOfWords (count :: ws)) ↔ ws.Pairwise (· < ·) := by
  rw [toBytes_eq_ok]
  constructor
  · rintro ⟨-, hbytes⟩
    have hws := (List.cons.inj (bytesOfWords_injective hbytes)).2
    exact hws ▸ (ofList ws).isAscending
  · intro hws
    rw [ofList_of_ascending hws, size, hcount, UInt16.ofNat_toNat]
    exact ⟨count.toNat_lt, rfl⟩

theorem ofBytes_of_size (h : t.size < 65536) :
    ∃ bytes, t.toBytes = .ok bytes ∧ ofBytes bytes = .ok t := by
  refine ⟨_, toBytes_eq_ok.mpr ⟨h, rfl⟩, ofBytes_eq_ok.mpr ⟨_, _, rfl, ?_, ?_⟩⟩
  · rw [UInt16.toNat_ofNat', Nat.mod_eq_of_lt h, size]
  · exact (ofList_of_ascending t.isAscending).symm

/-! ### Merging -/

/-- **A merge fails** at the smallest entry that leaves the address range. -/
theorem merge_eq_error {err : Error} (h : (t.merge u offset).1 = .error err) :
    (t.merge u offset).2 = t ∧ ∃ e ∈ u.entries, err = .addressOutOfRange e offset ∧ 0xFFFF < e.toNat + offset.toNat ∧
      ∀ e' ∈ u.entries, 0xFFFF < e'.toNat + offset.toNat → e ≤ e' := by
  unfold merge at h ⊢
  split at h
  · cases h
  · rename_i herror
    cases h
    obtain ⟨front, e, back, hentries, he, hfront⟩ := split_of_mapM_error herror
    obtain ⟨rfl, hout⟩ := addWords_eq_error he
    have hascending := u.isAscending
    rw [hentries] at hascending ⊢
    refine ⟨rfl, e, by simp, rfl, hout, fun e' he' hout' => ?_⟩
    rcases mem_append.mp he' with he' | he'
    · -- entries ahead of the first one that fails can be moved
      obtain ⟨a, ha⟩ := hfront e' he'
      have hsum := addWords_eq_ok ha
      have hlt := a.toNat_lt
      omega
    · rcases mem_cons.mp he' with rfl | he'
      · exact UInt16.le_refl _
      · have hback := (pairwise_cons.mp (pairwise_append.mp hascending).2.1).1
        exact UInt16.le_of_lt (hback e' he')

/-- All entries of `u` stay in the address range when they are moved up by `offset`. -/
def Fits (u : RelocationTable) (offset : Word) : Prop :=
  ∀ e ∈ u.entries, e.toNat + offset.toNat ≤ 0xFFFF

theorem Fits.of_merge (h : (t.merge u offset).1 = .ok ()) : u.Fits offset := by
  unfold RelocationTable.merge at h
  split at h
  · rename_i moved hmoved
    intro e he
    obtain ⟨a, ha, -⟩ := exists_of_mapM hmoved he
    have hsum := addWords_eq_ok ha
    have hlt := a.toNat_lt
    omega
  · cases h

/-- **Merging is a union**, and adds to the size what is new. -/
theorem Fits.merge (h : u.Fits offset) : ∃ t', t.merge u offset = (.ok (), t') ∧
    (∀ a, a ∈ t'.entries ↔ a ∈ t.entries ∨ ∃ e ∈ u.entries, a.toNat = e.toNat + offset.toNat) ∧
    ((∀ a ∈ t.entries, ∀ e ∈ u.entries, a.toNat ≠ e.toNat + offset.toNat) →
      t'.size = t.size + u.size) := by
  have hadd : ∀ e ∈ u.entries, (e + offset).toNat = e.toNat + offset.toNat := fun e he => by
    have hle := h e he
    rw [UInt16.toNat_add]
    omega
  have hmoved : u.entries.mapM (fun e => addWords e offset) = .ok (u.entries.map (· + offset)) :=
    mapM_eq_ok fun e he => if_pos (Nat.lt_succ_of_le (h e he))
  refine ⟨t.insertAll (u.entries.map (· + offset)), by rw [RelocationTable.merge, hmoved],
    fun a => ?_, fun hnew => ?_⟩
  · rw [mem_insertAll, mem_map]
    refine or_congr_right (exists_congr fun e => and_congr_right fun he => ?_)
    rw [← UInt16.toNat_inj, hadd e he, eq_comm]
  · have hnodup : (u.entries.map (· + offset)).Nodup :=
      pairwise_map.mpr (u.nodup.imp fun hne heq => hne ((UInt16.add_left_inj _).mp heq))
    rw [size_insertAll hnodup, length_map]
    · rfl
    · intro a ha hold
      obtain ⟨e, he, rfl⟩ := mem_map.mp ha
      exact hnew _ hold e he (hadd e he)

theorem merge_fails_iff : (∃ err, (t.merge u offset).1 = .error err) ↔
    ∃ e ∈ u.entries, 0xFFFF < e.toNat + offset.toNat := by
  constructor
  · rintro ⟨err, h⟩
    obtain ⟨-, e, he, -, hout, -⟩ := merge_eq_error h
    exact ⟨e, he, hout⟩
  · rintro ⟨e, he, hout⟩
    cases h : (t.merge u offset).1 with
    | error err => exact ⟨err, rfl⟩
    | ok =>
      have hfits := Fits.of_merge h e he
      omega

def afterMerge (t : RelocationTable) (m : RelocationTable × Word) : RelocationTable :=
  (t.merge m.1 m.2).2

theorem mem_afterMerge {m : RelocationTable × Word} {a : Address} :
    a ∈ (t.afterMerge m).entries ↔ a ∈ t.entries ∨
      (m.1.Fits m.2 ∧ ∃ e ∈ m.1.entries, a.toNat = e.toNat + m.2.toNat) := by
  by_cases hfits : m.1.Fits m.2
  · obtain ⟨t', ht', hmem, -⟩ := hfits.merge (t := t)
    rw [afterMerge, ht', hmem]
    exact or_congr_right (and_iff_right hfits).symm
  · cases hmerge : (t.merge m.1 m.2).1 with
    | error e => simp [afterMerge, (merge_eq_error hmerge).1, hfits]
    | ok => exact absurd (Fits.of_merge hmerge) hfits

theorem afterMerge_comm (m m' : RelocationTable × Word) :
    (t.afterMerge m).afterMerge m' = (t.afterMerge m').afterMerge m := by
  refine ext_mem fun a => ?_
  simp only [mem_afterMerge]
  exact or_right_comm

end RelocationTable

/-- Relocation tables are sets of addresses, and are written out faithfully. Every table of at
most 65535 entries is read back from its bytes, and only the full table has no bytes. Bytes can
be read just if they are words and the first is the number of the others, which become the
entries; the table's bytes are those again just if the words ascend. A merge fails just if an
entry leaves the address range, with the smallest such entry, and the table stays as it was;
otherwise it adds the moved entries. So merges may be made in any order. -/
theorem relocation_tables_are_sets :
    (∀ t : RelocationTable, t.size ≤ 65535 →
      ∃ bytes, t.toBytes = .ok bytes ∧ RelocationTable.ofBytes bytes = .ok t) ∧
    (∀ t : RelocationTable, (∃ e, t.toBytes = .error e) ↔ ∀ a : Address, a ∈ t.entries) ∧
    (∀ bytes, (∃ t, RelocationTable.ofBytes bytes = .ok t) ↔ bytes.length % 2 = 0 ∧
      ∃ high low rest, bytes = high :: low :: rest ∧
        (Word.ofBytes high low).toNat = rest.length / 2) ∧
    (∀ bytes t, RelocationTable.ofBytes bytes = .ok t → ∃ count words,
      bytes = bytesOfWords (count :: words) ∧ (∀ a, a ∈ t.entries ↔ a ∈ words) ∧
        (t.toBytes = .ok bytes ↔ words.Pairwise (· < ·))) ∧
    ∀ t : RelocationTable,
      (∀ u offset, (∃ err, (t.merge u offset).1 = .error err) ↔
        ∃ e ∈ u.entries, 0xFFFF < e.toNat + offset.toNat) ∧
      (∀ u offset err, (t.merge u offset).1 = .error err → (t.merge u offset).2 = t ∧
        ∃ e ∈ u.entries, err = .addressOutOfRange e offset ∧ 0xFFFF < e.toNat + offset.toNat ∧
          ∀ e' ∈ u.entries, 0xFFFF < e'.toNat + offset.toNat → e ≤ e') ∧
      (∀ u offset, (t.merge u offset).1 = .ok () → ∀ a, a ∈ (t.merge u offset).2.entries ↔
        a ∈ t.entries ∨ ∃ e ∈ u.entries, a.toNat = e.toNat + offset.toNat) ∧
      ∀ ms ms' : List (RelocationTable × Word), ms.Perm ms' →
        ms.foldl RelocationTable.afterMerge t = ms'.foldl RelocationTable.afterMerge t := by
  refine ⟨fun t hsize => RelocationTable.ofBytes_of_size (Nat.lt_succ_of_le hsize), fun t => ?_,
    fun bytes => RelocationTable.readable_iff, fun bytes t h => ?_,
    fun t => ⟨fun u offset => RelocationTable.merge_fails_iff,
      fun u offset err h => RelocationTable.merge_eq_error h, fun u offset h a => ?_,
      fun ms ms' hperm => hperm.foldl_eq' (fun _ _ _ _ _ => ?_) t⟩⟩
  · rw [← RelocationTable.full_iff, RelocationTable.toBytes]
    split <;> simp <;> omega
  · obtain ⟨count, words, rfl, hcount, rfl⟩ := RelocationTable.ofBytes_eq_ok.mp h
    exact ⟨count, words, rfl, fun a => RelocationTable.mem_ofList a words,
      RelocationTable.toBytes_ofList hcount⟩
  · obtain ⟨_, ht', hmem, -⟩ := (RelocationTable.Fits.of_merge h).merge (t := t)
    rw [ht']
    exact hmem a
  · exact RelocationTable.afterMerge_comm ..

/-- Entries at both ends of the address range. -/
def outermost : RelocationTable := ⟨[0x10, 0xFFF0, 0xFFFF], by decide⟩

/-- A move by `0x10` takes two of three entries out of the address range, and the smaller one is
reported. Words that repeat are read, and are not written again. -/
theorem relocation_tables_are_sets_outermost :
    (∃ bytes, outermost.toBytes = .ok bytes ∧ RelocationTable.ofBytes bytes = .ok outermost) ∧
    (∃ t, RelocationTable.ofBytes [0, 2, 1, 0, 1, 0] = .ok t ∧ t.toBytes ≠ .ok [0, 2, 1, 0, 1, 0]) ∧
    (outermost.merge outermost 0x10).1 = .error (.addressOutOfRange 0xFFF0 0x10) ∧
    (outermost.merge outermost 0x10).2 = outermost := by
  obtain ⟨hback, -, hreadable, hread, hmerge⟩ := relocation_tables_are_sets
  have hfails : (outermost.merge outermost 0x10).1 = .error (.addressOutOfRange 0xFFF0 0x10) := by
    decide
  obtain ⟨t, ht⟩ := (hreadable [0, 2, 1, 0, 1, 0]).mpr ⟨rfl, 0, 2, _, rfl, by decide⟩
  refine ⟨hback _ (by decide), ⟨t, ht, fun hbytes => ?_⟩, hfails, ((hmerge _).2.1 _ _ _ hfails).1⟩
  obtain ⟨count, words, hwords, -, hascending⟩ := hread _ _ ht
  have htwice : [0, 2, 1, 0, 1, 0] = bytesOfWords [2, 0x100, 0x100] := by decide
  cases bytesOfWords_injective (hwords.symm.trans htwice)
  exact absurd (hascending.mp hbytes) (by decide)

end WordAsm
