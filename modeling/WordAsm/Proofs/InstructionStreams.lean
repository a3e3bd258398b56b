/-
# Streams of instructions

An instruction can be read back from its words, whatever follows them
(`Instruction.decode_encode`).

Code is instructions one behind the other, with no mark between them. An immediate may be
any word, also one that reads as an instruction, and an opcode without an operand drops a
field that another one would need. Still the words can be read in one way only: reading an
instruction and going on behind it gives back the instructions that were written, and ends
where the words end (`Instruction.decodeFrom_flatMap`).

The other way round, what is read can be made (`Instruction.sound_of_decode`), and the words of
an instruction with an operand are those that were read (`Instruction.encode_of_decode`).
-/
import WordAsm.Machine.Instruction
import Mathlib.Data.Nat.Notation

namespace WordAsm

open List

/-! ### Instructions read back -/

namespace Instruction

variable {i : Instruction}

/-- Whether an instruction has an operand exactly if its opcode takes one, and
an inline literal only if it fits. -/
structure Sound (i : Instruction) : Prop where
  shape : i.op.shape = .bare ↔ i.b = none
  inline : ∀ v, i.b = some (.inline v) → v.toNat ≤ Operand.inlineMax

theorem field_lt (h : i.Sound) : (i.b.map Operand.field).getD 0 < 64 := by
  cases hb : i.b with
  | none => simp
  | some b =>
    cases b with
    | register r =>
      have hr := r.field_lt
      simp only [Option.map_some, Operand.field, Option.getD_some]
      omega
    | immediate v => simp [Operand.field]
    | inline v =>
      have hv := h.inline v hb
      simp only [Option.map_some, Operand.field, Option.getD_some, Operand.inlineMax] at hv ⊢
      omega

theorem toNat_head (h : i.Sound) :
    i.head.toNat = i.op.field * 1024 + i.a.field * 64 + (i.b.map Operand.field).getD 0 := by
  have hop := i.op.field_lt
  have ha := i.a.field_lt
  have hb := field_lt h
  unfold head
  rw [UInt16.toNat_ofNat', Nat.mod_eq_of_lt (by omega)]

theorem operandOfField_field {b : Operand} {rest : List Word}
    (hinline : ∀ v, b = .inline v → v.toNat ≤ Operand.inlineMax)
    (hrest : ∀ v, b = .immediate v → rest.head? = some v) :
    operandOfField b.field rest = .ok b := by
  unfold operandOfField
  cases b with
  | register r =>
    have hfield : (Operand.register r).field = r.field := rfl
    rw [hfield, if_pos r.field_lt, Register.ofField_field]
  | immediate v =>
    have hfield : (Operand.immediate v).field = 16 := rfl
    rw [if_neg (by omega), if_pos hfield]
    have hv := hrest v rfl
    cases rest with
    | nil => cases hv
    | cons w rest => rw [← Option.some.inj hv]
  | inline v =>
    have hv := hinline v rfl
    unfold Operand.inlineMax at hv
    have hfield : (Operand.inline v).field = 32 + v.toNat % 32 := rfl
    have hmod : (Operand.inline v).field % 32 = v.toNat := by omega
    rw [if_neg (by omega), if_neg (by omega), if_neg (by omega), hmod, UInt8.ofNat_toNat]

theorem encode_eq (i : Instruction) :
    ∃ rest, i.encode = i.head :: rest ∧ ∀ v, i.b = some (.immediate v) → rest = [v] := by
  unfold encode
  split
  · rename_i v hb
    refine ⟨[v], rfl, fun w hw => ?_⟩
    rw [hb] at hw
    cases hw
    rfl
  · rename_i hb
    exact ⟨[], rfl, fun w hw => absurd hw (hb w)⟩

/-- **An instruction is read back from its words**, and takes as many words as
it says. -/
theorem decode_encode (h : i.Sound) (rest : List Word) :
    decode (i.encode ++ rest) = .ok (i, i.size) := by
  obtain ⟨behind, hencode, himmediate⟩ := i.encode_eq
  have hhead := toNat_head h
  have hfield := field_lt h
  have ha := i.a.field_lt
  have hop := i.op.field_lt
  have hdiv : i.head.toNat / 1024 = i.op.field := by omega
  have hmid : i.head.toNat / 64 % 16 = i.a.field := by omega
  have hmod : i.head.toNat % 64 = (i.b.map Operand.field).getD 0 := by omega
  have hreg : Register.ofField (i.head.toNat / 64) = i.a := by
    rw [← Register.ofField_field i.a]
    unfold Register.ofField
    rw [hmid, Nat.mod_eq_of_lt ha]
  rw [hencode, cons_append, decode, hdiv, hmod, hreg]
  have hdecode : Opcode.decode i.op.field = .ok i.op := by
    unfold Opcode.decode
    rw [Opcode.ofField?_field]
  rw [hdecode]
  cases hb : i.b with
  | none =>
    have hbare := h.shape.mpr hb
    simp only [Option.map_none, Option.getD_none, operandOfField, Nat.zero_lt_succ, if_true, hbare]
    rw [← hb]
  | some b =>
    have hshape : i.op.shape ≠ .bare := fun hs => by
      rw [h.shape.mp hs] at hb
      cases hb
    have hoperand : operandOfField b.field (behind ++ rest) = .ok b := by
      refine operandOfField_field (fun v hv => h.inline v (hv ▸ hb)) fun v hv => ?_
      rw [himmediate v (hv ▸ hb)]
      rfl
    simp only [Option.map_some, Option.getD_some, hoperand, if_neg hshape]
    rw [← hb]

theorem length_encode (i : Instruction) : i.encode.length = i.size := by
  unfold encode size
  split
  · rename_i hb
    simp [hb, Operand.size]
  · rename_i hb
    cases h : i.b with
    | none => rfl
    | some b =>
      cases b with
      | register | inline => rfl
      | immediate v => exact absurd h (hb v)

end Instruction

/-! ### Instructions that were read -/

theorem Opcode.field_of_decode {field : ℕ} {op : Opcode} (h : Opcode.decode field = .ok op) :
    op.field = field % 64 := by
  have hall : ∀ i < all.length, (all[i]?).map Opcode.field = some i := by decide
  unfold Opcode.decode ofField? at h
  split at h
  · rename_i op' hop
    cases h
    have hi := hall _ (List.getElem?_eq_some_iff.mp hop).1
    rw [hop] at hi
    exact Option.some.inj hi
  · cases h

theorem Register.field_ofField (field : ℕ) : (ofField field).field = field % 16 := by
  have hall : ∀ i < 16, (all.getD i zero).field = i := by decide
  exact hall _ (Nat.mod_lt _ (by decide))

namespace Instruction

variable {n : ℕ} {i : Instruction} {words : List Word}

/-- An operand has the field it was read from. A literal in the field is small, and an
immediate is the word behind. -/
theorem field_of_operandOfField {field : ℕ} {behind : List Word} {b : Operand} (hlt : field < 64)
    (h : operandOfField field behind = .ok b) :
    b.field = field ∧ (∀ v, b = .inline v → v.toNat ≤ Operand.inlineMax) ∧
      ∀ v, b = .immediate v → ∃ rest, behind = v :: rest := by
  unfold operandOfField at h
  split at h
  · cases h
    refine ⟨?_, by simp, by simp⟩
    rw [Operand.field, Register.field_ofField]
    omega
  · split at h
    · rename_i h16
      cases behind with
      | nil => cases h
      | cons w rest =>
        cases h
        refine ⟨h16.symm, by simp, fun v hv => ⟨rest, ?_⟩⟩
        cases hv
        rfl
    · split at h
      · cases h
      · cases h
        have hsmall : (UInt8.ofNat (field % 32)).toNat = field % 32 := by
          rw [UInt8.toNat_ofNat']
          omega
        refine ⟨?_, fun v hv => ?_, by simp⟩
        · rw [Operand.field, hsmall]
          omega
        · cases hv
          rw [hsmall, Operand.inlineMax]
          omega

theorem decode_eq_ok (h : decode words = .ok (i, n)) :
    ∃ word behind operand, words = word :: behind ∧ n = i.size ∧
      Opcode.decode (word.toNat / 1024) = .ok i.op ∧ i.a = .ofField (word.toNat / 64) ∧
      operandOfField (word.toNat % 64) behind = .ok operand ∧
      i.b = if i.op.shape = .bare then none else some operand := by
  cases words with
  | nil => cases h
  | cons word behind =>
    rw [decode] at h
    split at h
    · cases h
    · rename_i op hop
      split at h
      · cases h
      · rename_i operand hoperand
        cases h
        exact ⟨word, behind, operand, rfl, rfl, hop, rfl, hoperand, rfl⟩

theorem sound_of_decode (h : decode words = .ok (i, n)) : i.Sound := by
  obtain ⟨word, behind, operand, -, -, -, -, hoperand, hb⟩ := decode_eq_ok h
  have hfield := field_of_operandOfField (Nat.mod_lt _ (by decide)) hoperand
  refine ⟨?_, fun v hv => ?_⟩
  · rw [hb]
    split <;> simp_all
  · rw [hb] at hv
    split at hv
    · cases hv
    · exact hfield.2.1 v (Option.some.inj hv)

/-- **The words of an instruction with an operand** are the words it was read from. -/
theorem encode_of_decode (h : decode words = .ok (i, n)) : n ≤ words.length ∧
      (i.b.isSome → i.encode = words.take n) := by
  have hsound := sound_of_decode h
  obtain ⟨word, behind, operand, rfl, rfl, hop, ha, hoperand, hb⟩ := decode_eq_ok h
  obtain ⟨hfield, -, himmediate⟩ := field_of_operandOfField (Nat.mod_lt _ (by decide)) hoperand
  by_cases hbare : i.op.shape = .bare
  · rw [if_pos hbare] at hb
    simp [size, hb]
  · rw [if_neg hbare] at hb
    have hhead : i.head = word := by
      have hlt := word.toNat_lt
      have hopcode := Opcode.field_of_decode hop
      rw [← UInt16.toNat_inj, toNat_head hsound, hb, ha, Register.field_ofField, hopcode,
        Option.map_some, Option.getD_some, hfield]
      omega
    cases operand with
    | immediate v =>
      obtain ⟨rest, rfl⟩ := himmediate v rfl
      simp [size, encode, hb, hhead, Operand.size]
    | register | inline => simp [size, encode, hb, hhead, Operand.size]

theorem make_eq_ok {op : Opcode} {a : Register} {b : Option Operand} :
    make op a b = .ok i ↔ i = ⟨op, a, b⟩ ∧ (op.shape = .bare ↔ b = none) := by
  unfold make
  cases hshape : op.shape <;> cases b <;> simp [eq_comm]

/-! ### Reading on -/

theorem size_pos (i : Instruction) : 0 < i.size := Nat.le_add_right 1 _

/-- Reads instructions from a position on, each behind the one before, until there is none to be
read. The result is the instructions and the position behind them. -/
def decodeFrom (words : List Word) (pos : ℕ) : List Instruction × ℕ :=
  match _h : decode (words.drop pos) with
  | .error _ => ([], pos)
  | .ok (i, n) =>
    let rest := decodeFrom words (pos + n)
    (i :: rest.1, rest.2)
termination_by words.length - pos
decreasing_by
  have hle := (encode_of_decode _h).1
  obtain ⟨_, _, _, -, hn, -⟩ := decode_eq_ok _h
  have hpos := i.size_pos
  rw [List.length_drop] at hle
  omega

/-- **A stream is read back.** By induction on the instructions, for any words ahead of them. -/
theorem decodeFrom_flatMap {is : List Instruction} (h : ∀ i ∈ is, i.Sound) (ahead : List Word) :
    decodeFrom (ahead ++ is.flatMap encode) ahead.length =
      (is, (ahead ++ is.flatMap encode).length) := by
  induction is generalizing ahead with
  | nil =>
    have hend : decode ((ahead ++ [].flatMap encode).drop ahead.length) = .error .endOfCode := by
      simp [decode]
    rw [decodeFrom]
    split <;> simp_all
  | cons i is ih =>
    have hread : decode ((ahead ++ (i :: is).flatMap encode).drop ahead.length) =
        .ok (i, i.size) := by
      rw [drop_left, flatMap_cons]
      exact decode_encode (h i mem_cons_self) _
    have hrest := ih (fun j hj => h j (mem_cons_of_mem _ hj)) (ahead ++ i.encode)
    rw [append_assoc, ← flatMap_cons, length_append, i.length_encode] at hrest
    rw [decodeFrom]
    split
    · rename_i e he
      cases hread.symm.trans he
    · rename_i j n hj
      cases hread.symm.trans hj
      rw [hrest]

end Instruction

/-- **Streams of instructions can be read in one way only.** Instructions that can be made, with
literals in the field of up to 31, are read back from their words one behind the other, and
reading ends at the end of the words. And whatever is read as an instruction can be made, is as
long as it says and not longer than the words, and is read from its own words again; if it has an
operand, its own words are those that were read. -/
theorem instruction_streams_decode :
    (∀ is : List Instruction,
      (∀ i ∈ is, (∃ op a b, Instruction.make op a b = .ok i) ∧
        ∀ v, i.b = some (.inline v) → v.toNat ≤ 31) →
      Instruction.decodeFrom (is.flatMap Instruction.encode) 0 =
        (is, (is.flatMap Instruction.encode).length)) ∧
    ∀ words i n, Instruction.decode words = .ok (i, n) →
      Instruction.make i.op i.a i.b = .ok i ∧ n = i.size ∧ i.size = i.encode.length ∧
      n ≤ words.length ∧ Instruction.decode i.encode = .ok (i, n) ∧
      (i.b.isSome → i.encode = words.take n) := by
  constructor
  · intro is h
    refine Instruction.decodeFrom_flatMap (fun i hi => ?_) []
    obtain ⟨⟨op, a, b, hmake⟩, hinline⟩ := h i hi
    obtain ⟨rfl, hshape⟩ := Instruction.make_eq_ok.mp hmake
    exact ⟨hshape, hinline⟩
  · intro words i n h
    have hsound := Instruction.sound_of_decode h
    obtain ⟨hle, hwords⟩ := Instruction.encode_of_decode h
    obtain ⟨-, -, -, -, rfl, -⟩ := Instruction.decode_eq_ok h
    have hagain := Instruction.decode_encode hsound []
    rw [append_nil] at hagain
    exact ⟨Instruction.make_eq_ok.mpr ⟨rfl, hsound.shape⟩, rfl, i.length_encode.symm, hle, hagain,
      hwords⟩

/-- Jumps to addresses that read as a halt and as nothing at all, and a return between them. -/
def deceptiveStream : List Instruction :=
  [⟨.call, .zero, some (.immediate 0x5800)⟩, ⟨.ret, .s3, none⟩, ⟨.sub, .s0, some (.inline 31)⟩,
    ⟨.jz, .t0, some (.immediate 0xFFFF)⟩]

theorem instruction_streams_decode_deceptive :
    Instruction.decodeFrom [0x4C10, 0x5800, 0x53C0, 0x0F3F, 0x4610, 0xFFFF] 0 =
      (deceptiveStream, 6) ∧
    Instruction.decode [0x5800] = .ok (⟨.hlt, .zero, none⟩, 1) ∧
    Instruction.decode [0x5805, 7] = .ok (⟨.hlt, .zero, none⟩, 1) ∧
    Instruction.decode (Instruction.encode ⟨.hlt, .zero, none⟩) = .ok (⟨.hlt, .zero, none⟩, 1) := by
  obtain ⟨hstream, hdecode⟩ := instruction_streams_decode
  have hread : Instruction.decode [0x5805, 7] = .ok (⟨.hlt, .zero, none⟩, 1) := rfl
  refine ⟨?_, rfl, hread, (hdecode _ _ _ hread).2.2.2.2.1⟩
  refine hstream deceptiveStream fun i hi => ?_
  simp only [deceptiveStream, mem_cons, not_mem_nil, or_false] at hi
  rcases hi with rfl | rfl | rfl | rfl
  · exact ⟨⟨.call, .zero, some _, rfl⟩, by simp⟩
  · exact ⟨⟨.ret, .s3, none, rfl⟩, by simp⟩
  · exact ⟨⟨.sub, .s0, some _, rfl⟩, by simp⟩
  · exact ⟨⟨.jz, .t0, some _, rfl⟩, by simp⟩

end WordAsm
