/-
# Word buffers

Generated words are collected from the start address of a unit on. Writes may
come in any order and overlap; a later one wins, and what no write covers is
zero.
-/
import WordAsm.Error

namespace WordAsm

structure WordBuffer where
  start : Address
  words : Array Word := #[]
  /-- The lowest address written. -/
  first : Option Address := none
  /-- The highest address written. -/
  last : Option Address := none
  deriving DecidableEq

namespace WordBuffer

def overwrite (words : Array Word) (offset : Nat) : List Word → Array Word
  | [] => words
  | w :: ws => overwrite (words.setIfInBounds offset w) (offset + 1) ws

def grow (words : Array Word) (size : Nat) : Array Word :=
  words ++ Array.replicate (size - words.size) 0

/-- Stores words at an address. The length of a write counts modulo 2^16. -/
def write (b : WordBuffer) (address : Address) (words : List Word) :
    Except Error Unit × WordBuffer :=
  if words.isEmpty then (.ok (), b)
  else if address < b.start then
    (.error (.internal ("write at " ++ hexPrefixed address.toNat ++ " before start")), b)
  else
    let length := UInt16.ofNat words.length
    match addWords address (length - 1) with
    | .error _ => (.error (.addressOutOfRange address length), b)
    | .ok stop =>
      let offset := address.toNat - b.start.toNat
      (.ok (), { b with
        words := overwrite (grow b.words (offset + words.length)) offset words
        first := some (match b.first with | some f => min f address | none => address)
        last := some (match b.last with | some l => max l stop | none => stop) })

def toBytes (b : WordBuffer) : Bytes := bytesOfWords b.words.toList

end WordBuffer

end WordAsm
