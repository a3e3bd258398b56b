/-
# Paths

Paths are texts with `/` between their segments, and they are printed as they
were written. Empty segments and `.` say nothing about the place a path leads
to, except for a `.` in front; at the end of a path they are passed over when
its last segment is asked for.
-/

namespace WordAsm
namespace Path

/-- Cuts at every `/`. -/
def split : List Char → List (List Char)
  | [] => [[]]
  | c :: cs =>
    if c = '/' then [] :: split cs
    else
      match split cs with
      | [] => [[c]]
      | s :: ss => (c :: s) :: ss

def segments (path : List Char) : List String := (split path).map String.ofList

/-- The root or the `.` a path starts with, or nothing. -/
def lead (path : String) : String :=
  match path.toList with
  | '/' :: _ => "/"
  | ['.'] => "."
  | '.' :: '/' :: _ => "."
  | _ => ""

/-- Whether a segment says nothing. -/
def isIdle (segment : String) : Bool := segment == "" || segment == "."

def dropIdle (segments : List String) : List String :=
  (segments.reverse.dropWhile isIdle).reverse

/-- The segments behind the lead, up to the last that says something. -/
def body (path : String) : List String :=
  dropIdle (segments (path.toList.drop (lead path).length))

/-- A path from its lead and the segments behind it. -/
def render (lead : String) (body : List String) : String :=
  lead ++ String.intercalate "/" body

def isAbsolute (path : String) : Bool := lead path == "/"

/-- The path without its last segment; the root and the empty path have no
parent. -/
def parent? (path : String) : Option String :=
  match body path with
  | [] => if lead path = "." then some "" else none
  | segments => some (render (lead path) (dropIdle segments.dropLast))

def join (dir path : String) : String :=
  if isAbsolute path then path
  else if dir.isEmpty || dir.toList.getLast? = some '/' then dir ++ path
  else dir ++ "/" ++ path

/-- The last segment, unless it leads upwards. -/
def fileName? (path : String) : Option String :=
  match (body path).getLast? with
  | some ".." => none
  | name => name

/-- A file name up to its last point; a point in front does not count. -/
def stemOf (name : String) : String :=
  match name.toList.reverse.dropWhile (· != '.') with
  | [] => name
  | [_] => name
  | _ :: before => String.ofList before.reverse

def stem? (path : String) : Option String := (fileName? path).map stemOf

/-- The path with `extension` in place of what follows the stem of its last
segment. A path without a file name stays as it is. -/
def withExtension (path : String) (ending : String) : String :=
  match stem? path with
  | none => path
  | some stem => render (lead path) ((body path).dropLast ++ [stem ++ "." ++ ending])

def components (path : String) : List String :=
  lead path :: (body path).filter fun s => !isIdle s

def same (a b : String) : Bool := components a == components b

/-- The most bytes a segment may have. -/
def segmentLimit : Nat := 255

/-- The least number of bytes that is too much for a path. -/
def pathLimit : Nat := 4096

/-- Whether a path can lead anywhere: it is not empty, none of its characters is
NUL, and neither it nor a segment of it is too long. -/
def isPassable (path : String) : Bool :=
  !path.isEmpty && !path.toList.contains '\x00' && path.utf8ByteSize < pathLimit
    && (segments path.toList).all fun s => s.utf8ByteSize ≤ segmentLimit

end Path
end WordAsm
