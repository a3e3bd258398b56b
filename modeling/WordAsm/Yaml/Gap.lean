/-
# Gaps in scalars

A scalar in quotes, or one with neither quotes nor indicator, may run over
several lines. Spaces within a line stay; a single line break between words
turns into a space, and of more breaks all but the first stay.
-/
import WordAsm.Yaml.Character

namespace WordAsm.Yaml

/-- What has been read since the last word of a scalar. -/
structure Gap where
  spaces : List Char := []
  /-- Whether the line has ended. -/
  isBroken : Bool := false
  /-- The break that ended it, unless that was taken back. -/
  first : Option Char := none
  more : List Char := []
  deriving DecidableEq

namespace Gap

def isEmpty (g : Gap) : Bool := g.spaces.isEmpty && !g.isBroken

/-- The gap that a break leaves which has been taken back. -/
def joined : Gap := { isBroken := true }

/-- Goes on with a blank or a break; blanks at either end of a line are lost. -/
def add (g : Gap) (c : Char) : Gap :=
  if isBreak c then
    if g.isBroken then { g with more := g.more ++ [c] } else { isBroken := true, first := some c }
  else if g.isBroken then g
  else { g with spaces := g.spaces ++ [c] }

def text (g : Gap) : List Char :=
  if !g.isBroken then g.spaces
  else
    match g.first with
    | none => g.more
    | some '\n' => if g.more.isEmpty then [' '] else g.more
    | some c => c :: g.more

end Gap

end WordAsm.Yaml
