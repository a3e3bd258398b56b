/-
# Characters of YAML

The kinds of characters that the form of a YAML text rests on: line breaks,
gaps within a line, and the end, for which a character stands that no text may
hold.
-/

namespace WordAsm.Yaml

def isBreak (c : Char) : Bool :=
  c = '\n' || c = '\r' || c.toNat = 0x85 || c.toNat = 0x2028 || c.toNat = 0x2029

def isSpace (c : Char) : Bool := c = ' '

/-- Whether a character parts words on a line. -/
def isGap (c : Char) : Bool := c = ' ' || c = '\t'

def endMark : Char := '\x00'

def isEnd (c : Char) : Bool := c = endMark

/-- Whether a character cannot go on with a word. -/
def endsWord (c : Char) : Bool := isGap c || isBreak c || isEnd c

/-- Whether a character can stand in the name of an anchor, a tag or a
directive. -/
def isWord (c : Char) : Bool := c.isAlphanum || c = '_' || c = '-'

/-- Whether a text may hold a character. -/
def isAllowed (c : Char) : Bool :=
  let n := c.toNat
  n = 9 || n = 10 || n = 13 || (0x20 ≤ n && n ≤ 0x7E) || n = 0x85
    || (0xA0 ≤ n && n != 0xFFFE && n != 0xFFFF)

end WordAsm.Yaml
