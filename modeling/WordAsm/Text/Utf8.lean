/-
# Texts as bytes

Bytes are read as UTF-8. Where they are not, the longest start of a character
that went wrong counts as one bad character; a strict reading refuses it, a
lenient one puts the replacement character in its place.
-/
import WordAsm.Machine.Word

namespace WordAsm
namespace Utf8

/-- Whether a byte continues a character. -/
def isTail (b : UInt8) : Bool := 0x80 ≤ b && b ≤ 0xBF

def secondOfThree (first second : UInt8) : Bool :=
  if first = 0xE0 then 0xA0 ≤ second && second ≤ 0xBF
  else if first = 0xED then 0x80 ≤ second && second ≤ 0x9F
  else isTail second

def secondOfFour (first second : UInt8) : Bool :=
  if first = 0xF0 then 0x90 ≤ second && second ≤ 0xBF
  else if first = 0xF4 then 0x80 ≤ second && second ≤ 0x8F
  else isTail second

/-- The six bits a byte adds to a character. -/
def low (b : UInt8) : Nat := b.toNat % 64

/-- The character that starts with `b`, unless it is bad, and how many bytes
behind `b` were used up. -/
def first (b : UInt8) (rest : Bytes) : Option Char × Nat :=
  if b < 0x80 then (some (Char.ofNat b.toNat), 0)
  else if 0xC2 ≤ b && b ≤ 0xDF then
    match rest with
    | b2 :: _ =>
      if isTail b2 then (some (Char.ofNat (b.toNat % 32 * 64 + low b2)), 1) else (none, 0)
    | [] => (none, 0)
  else if 0xE0 ≤ b && b ≤ 0xEF then
    match rest with
    | b2 :: rest =>
      if secondOfThree b b2 then
        match rest with
        | b3 :: _ =>
          if isTail b3 then
            (some (Char.ofNat (b.toNat % 16 * 4096 + low b2 * 64 + low b3)), 2)
          else (none, 1)
        | [] => (none, 1)
      else (none, 0)
    | [] => (none, 0)
  else if 0xF0 ≤ b && b ≤ 0xF4 then
    match rest with
    | b2 :: rest =>
      if secondOfFour b b2 then
        match rest with
        | b3 :: rest =>
          if isTail b3 then
            match rest with
            | b4 :: _ =>
              if isTail b4 then
                (some (Char.ofNat (b.toNat % 8 * 262144 + low b2 * 4096 + low b3 * 64 + low b4)), 3)
              else (none, 2)
            | [] => (none, 2)
          else (none, 1)
        | [] => (none, 1)
      else (none, 0)
    | [] => (none, 0)
  else (none, 0)

/-- The characters of some bytes; `none` stands for a bad one. -/
def pieces (bytes : Bytes) : List (Option Char) :=
  go #[] bytes
where
  go (acc : Array (Option Char)) : Bytes → List (Option Char)
    | [] => acc.toList
    | b :: rest => go (acc.push (first b rest).1) (rest.drop (first b rest).2)
  termination_by bytes => bytes.length
  decreasing_by
    rw [List.length_drop, List.length_cons]
    omega

/-- The text of some bytes, if they are UTF-8. -/
def decode? (bytes : Bytes) : Option String :=
  ((pieces bytes).mapM id).map String.ofList

/-- The text of some bytes, with U+FFFD for what is not UTF-8. -/
def decodeLossy (bytes : Bytes) : String :=
  String.ofList ((pieces bytes).map fun c => c.getD (Char.ofNat 0xFFFD))

def encode (text : String) : Bytes := text.toUTF8.data.toList

end Utf8
end WordAsm
