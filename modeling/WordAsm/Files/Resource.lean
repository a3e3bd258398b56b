/-
# Resources

A source or a piece of object code is a file, or a named text or byte string
held in memory. Its identifier is the name it is known by.
-/
import WordAsm.Error
import WordAsm.Files.FileTree
import WordAsm.Text.Utf8

namespace WordAsm

inductive Resource
  | file (path : String)
  | text (name content : String)
  | memory (name : String) (bytes : Bytes)
  deriving DecidableEq

namespace Resource

def identifier : Resource → String
  | file path => path
  | text name _ => name
  | memory name _ => name

def readText (tree : FileTree) : Resource → Except Error String
  | file path =>
    match (tree.readBytes? path).bind Utf8.decode? with
    | some content => .ok content
    | none => .error (.unreadable path)
  | text _ content => .ok content
  | memory _ bytes => .ok (Utf8.decodeLossy bytes)

def readBytes (tree : FileTree) : Resource → Except Error Bytes
  | file path =>
    match tree.readBytes? path with
    | some bytes => .ok bytes
    | none => .error (.unreadable path)
  | text _ content => .ok (Utf8.encode content)
  | memory _ bytes => .ok bytes

def directory? (r : Resource) : Option String := Path.parent? r.identifier

/-- Whether two resources are the same source: files by the place their paths
lead to, if both lead somewhere, everything else by identifier. -/
def same (tree : FileTree) : Resource → Resource → Bool
  | file a, file b =>
    match tree.find? a, tree.find? b with
    | some p, some q => p == q
    | _, _ => Path.same a b
  | a, b => a.identifier == b.identifier

end Resource

end WordAsm
