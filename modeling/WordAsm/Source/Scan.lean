/-
# What a source says without being parsed

The order of compilation is found from tokens alone: which paths a text
includes and which address it first declares. Strings and comments never
count as directives.
-/
import WordAsm.Machine.Word
import WordAsm.Source.Lexer

namespace WordAsm

structure Declared where
  includes : List (String × Location) := []
  /-- The first number behind an `.org`, if it is an address. -/
  origin : Option Address := none
  deriving DecidableEq

def addressOf? (v : Int64) : Option Address :=
  if 0 ≤ v.toInt ∧ v.toInt < 65536 then some (UInt16.ofNat v.toInt.toNat) else none

def scanTokens (found : Declared) : List Token → Declared
  | ⟨.dotted name, location⟩ :: t :: ts =>
    match name.toLower, t.kind with
    | ".include", .str path =>
      scanTokens { found with includes := found.includes ++ [(path, location)] } ts
    | ".org", .number v =>
      if found.origin.isNone then scanTokens { found with origin := addressOf? v } ts
      else scanTokens found (t :: ts)
    | _, _ => scanTokens found (t :: ts)
  | _ :: ts => scanTokens found ts
  | [] => found

def scanSource (text : String) : Declared :=
  (sourceLines text).foldl (fun found line => scanTokens found (tokensOfLine line)) {}

end WordAsm
