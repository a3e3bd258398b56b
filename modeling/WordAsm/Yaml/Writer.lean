/-
# Writing YAML

A text is written plain where that reads back as the same text, and in quotes
otherwise: single ones if nothing in it needs an escape, double ones if
something does. A text of several lines is written line by line.
-/
import WordAsm.Text.Lines
import WordAsm.Yaml.Character
import WordAsm.Yaml.Scalar

namespace WordAsm.Yaml

/-- Whether a character can stand in YAML as it is. -/
def isPrintable (c : Char) : Bool :=
  let n := c.toNat
  n = 10 || (0x20 ≤ n && n ≤ 0x7E) || (0xA0 ≤ n && n != 0xFEFF && n != 0xFFFE && n != 0xFFFF)

def atBlank : List Char → Bool
  | [] => true
  | c :: _ => endsWord c

/-- Whether a text has a mark of block structure behind its first character,
which comes after a blank if `afterBlank`. -/
def hasInnerMark (afterBlank : Bool) : List Char → Bool
  | [] => false
  | c :: rest =>
    (c = ':' && atBlank rest) || (c = '#' && afterBlank) || hasInnerMark (endsWord c) rest

/-- Whether a text would be taken for structure. -/
def hasMark (cs : List Char) : Bool :=
  cs.take 3 = ['-', '-', '-'] || cs.take 3 = ['.', '.', '.'] || match cs with
    | [] => false
    | c :: rest =>
      "#,[]\x7b\x7d&*!|>'\"%@\x60".toList.contains c
        || ((c = '?' || c = ':' || c = '-') && atBlank rest) || hasInnerMark (endsWord c) rest

/-- Whether somewhere a character of one kind is followed by one of another. -/
def hasPair (first second : Char → Bool) : List Char → Bool
  | a :: b :: rest => (first a && second b) || hasPair first second (b :: rest)
  | _ => false

def edgesAre (p : Char → Bool) (cs : List Char) : Bool := cs.head?.any p || cs.getLast?.any p

inductive Style
  | plain
  | single
  | double
  | literal
  deriving DecidableEq

def needsEscapes (cs : List Char) : Bool :=
  cs.any (!isPrintable ·) || hasPair isSpace isBreak cs

def plainAllowed (cs : List Char) : Bool :=
  !edgesAre isSpace cs && !cs.any isBreak && !needsEscapes cs && !hasMark cs

def singleAllowed (cs : List Char) : Bool :=
  !needsEscapes cs && !hasPair isBreak isSpace cs

def literalAllowed (cs : List Char) : Bool :=
  !needsEscapes cs && !cs.getLast?.any isSpace

/-- Whether a text can be a key on one line. -/
def isSimpleKey (cs : List Char) : Bool := !cs.any isBreak && utf8Length cs ≤ 128

/-- How a text is written; `key` says that it is a key on one line. -/
def style (key : Bool) (s : String) : Style :=
  let cs := s.toList
  if cs.contains '\n' then
    if literalAllowed cs && !key then .literal else .double
  else if key && cs.any isBreak then .double
  else if !isTyped s && plainAllowed cs then .plain
  else if singleAllowed cs then .single
  else .double

def hexEscape (mark : Char) (width n : Nat) : List Char :=
  let digits := (Nat.toDigits 16 n).map Char.toUpper
  '\\' :: mark :: (List.replicate (width - digits.length) '0' ++ digits)

/-- A character in double quotes. -/
def escape (c : Char) : List Char :=
  let n := c.toNat
  if isPrintable c && !isBreak c && c != '"' && c != '\\' then [c]
  else
    match [(0, '0'), (7, 'a'), (8, 'b'), (9, 't'), (10, 'n'), (11, 'v'), (12, 'f'), (13, 'r'),
        (27, 'e'), (34, '"'), (92, '\\'), (0x85, 'N'), (0x2028, 'L'), (0x2029, 'P')].lookup n with
    | some mark => ['\\', mark]
    | none =>
      if n ≤ 0xFF then hexEscape 'x' 2 n
      else if n ≤ 0xFFFF then hexEscape 'u' 4 n
      else hexEscape 'U' 8 n

/-- Indents what stands at the start of a line; `fresh` says that a line has
just begun. Lines without characters stay empty. -/
def indentLines (indent : Nat) (fresh : Bool) : List Char → List Char
  | [] => []
  | c :: rest =>
    if isBreak c then c :: indentLines indent true rest
    else (if fresh then List.replicate indent ' ' else []) ++ c :: indentLines indent false rest

/-- What stands behind the bar of a text written line by line: whether its
first line is indented in itself, and what becomes of the line ends after it. -/
def literalHints (cs : List Char) : String :=
  let indent := if cs.head?.any fun c => isSpace c || isBreak c then "2" else ""
  let ending := match cs.reverse with
    | [_] => if cs.any isBreak then "+" else "-"
    | last :: previous :: _ => if !isBreak last then "-" else if isBreak previous then "+" else ""
    | [] => "-"
  indent ++ ending

/-- A text line by line, below its mark. -/
def literalText (indent : Nat) (cs : List Char) : String :=
  "|" ++ literalHints cs ++ "\n" ++ String.ofList (indentLines indent true cs)

def singleText (indent : Nat) (cs : List Char) : String :=
  let body := cs.flatMap fun c => if c = '\'' then ['\'', '\''] else [c]
  "'" ++ String.ofList (indentLines indent false (body ++ ['\'']))

def scalarText (key : Bool) (indent : Nat) (s : String) : String :=
  match style key s with
  | .plain => s
  | .single => singleText indent s.toList
  | .double => "\"" ++ String.ofList (s.toList.flatMap escape) ++ "\""
  | .literal => literalText indent s.toList

/-- Fields with their values, written out. -/
abbrev Record := List (String × String)

def endLine (s : String) : String := if s.toList.getLast?.any isBreak then s else s ++ "\n"

def fieldLine (field : String × String) : String := endLine (field.1 ++ ": " ++ field.2)

/-- The fields of a record, indented, where the first line may be begun already. -/
def recordLines (first : String) : Record → String
  | [] => ""
  | field :: fields =>
    first ++ fieldLine field ++ String.join (fields.map fun f => "  " ++ fieldLine f)

def writeEntry (entry : String × Record) : String :=
  let (key, record) := entry
  if isSimpleKey key.toList then scalarText true 2 key ++ ":\n" ++ recordLines "  " record
  else endLine ("? " ++ scalarText false 2 key) ++ recordLines ": " record

def writeMap (entries : List (String × Record)) : String :=
  if entries.isEmpty then "\x7b\x7d\n" else String.join (entries.map writeEntry)

end WordAsm.Yaml
