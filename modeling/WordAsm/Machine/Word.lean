/-
# Words and bytes

The machine is addressed by 16-bit words, and everything that leaves the
assembler is a sequence of words, high byte first.
-/

namespace WordAsm

abbrev Word := UInt16

abbrev Address := UInt16

/-- File contents and code images. -/
abbrev Bytes := List UInt8

def Word.bytes (w : Word) : Bytes :=
  [UInt8.ofNat (w.toNat / 256), UInt8.ofNat (w.toNat % 256)]

def Word.ofBytes (high low : UInt8) : Word :=
  UInt16.ofNat (high.toNat * 256 + low.toNat)

def bytesOfWords (ws : List Word) : Bytes := ws.flatMap Word.bytes

/-- Reads bytes in pairs; a last byte without a partner is left over. -/
def wordsOfBytes (bs : Bytes) : List Word × Option UInt8 :=
  go #[] bs
where
  go (acc : Array Word) : Bytes → List Word × Option UInt8
    | [] => (acc.toList, none)
    | [b] => (acc.toList, some b)
    | high :: low :: rest => go (acc.push (Word.ofBytes high low)) rest

theorem Word.ofBytes_bytes (w : Word) :
    Word.ofBytes (UInt8.ofNat (w.toNat / 256)) (UInt8.ofNat (w.toNat % 256)) = w := by
  have h : w.toNat < 65536 := w.toNat_lt
  have h1 : w.toNat / 256 % 256 = w.toNat / 256 := by omega
  have h2 : w.toNat % 256 % 256 = w.toNat % 256 := by omega
  simp only [Word.ofBytes, UInt8.toNat_ofNat', Nat.reducePow, h1, h2, Nat.div_add_mod',
    UInt16.ofNat_toNat]

theorem wordsOfBytes_go_bytesOfWords :
    ∀ (ws : List Word) (acc : Array Word),
      wordsOfBytes.go acc (bytesOfWords ws) = (acc.toList ++ ws, none)
  | [], acc => by simp [bytesOfWords, wordsOfBytes.go]
  | w :: ws, acc => by
    have ih := wordsOfBytes_go_bytesOfWords ws (acc.push w)
    simp only [bytesOfWords] at ih
    simp [bytesOfWords, Word.bytes, wordsOfBytes.go, Word.ofBytes_bytes, ih]

/-- Words survive being written as bytes. -/
theorem wordsOfBytes_bytesOfWords (ws : List Word) :
    wordsOfBytes (bytesOfWords ws) = (ws, none) := by
  simp [wordsOfBytes, wordsOfBytes_go_bytesOfWords]

theorem length_bytesOfWords (ws : List Word) : (bytesOfWords ws).length = 2 * ws.length := by
  induction ws with
  | nil => rfl
  | cons w ws ih =>
    simp only [bytesOfWords, List.flatMap_cons, List.length_append] at ih ⊢
    simp only [Word.bytes, List.length_cons, List.length_nil] at ih ⊢
    omega

end WordAsm
