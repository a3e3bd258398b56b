/-
# File trees

The files an assembly reads and writes, as a value: directories and files,
found by following paths segment by segment, from the root or from the working
directory. A segment can only be followed in a directory, so a path through a
missing directory leads nowhere even if it turns back.
-/
import WordAsm.Files.Path
import WordAsm.Machine.Word

namespace WordAsm

/-- The names that lead from the root to a file or directory. -/
abbrev Place := List String

@[ext] structure FileTree where
  /-- The working directory. -/
  here : Place := []
  directories : List Place := []
  files : List (Place × Bytes) := []
  deriving DecidableEq

namespace FileTree

def isDirectory (t : FileTree) (p : Place) : Bool :=
  p.isPrefixOf t.here || t.directories.contains p

def contents? (t : FileTree) (p : Place) : Option Bytes := t.files.lookup p

def isFile (t : FileTree) (p : Place) : Bool := (t.contents? p).isSome

def follow (t : FileTree) (p : Place) : List String → Option Place
  | [] => some p
  | segment :: rest =>
    if !t.isDirectory p then none
    else if Path.isIdle segment then t.follow p rest
    else if segment = ".." then t.follow p.dropLast rest
    else
      let next := p ++ [segment]
      if t.isDirectory next || t.isFile next then t.follow next rest else none

/-- Where a path starts: at the root, or in the working directory. -/
def start (t : FileTree) (path : String) : Place := if Path.isAbsolute path then [] else t.here

def find? (t : FileTree) (path : String) : Option Place :=
  if Path.isPassable path then t.follow (t.start path) (Path.segments path.toList) else none

def leadsToFile (t : FileTree) (path : String) : Bool := (t.find? path).any t.isFile

def readBytes? (t : FileTree) (path : String) : Option Bytes :=
  (t.find? path).bind t.contents?

def put (t : FileTree) (p : Place) (bytes : Bytes) : FileTree :=
  if t.isFile p then
    { t with files := t.files.map fun f => if f.1 = p then (p, bytes) else f }
  else { t with files := t.files ++ [(p, bytes)] }

/-- The place of a file that a path would create in a directory that is there. -/
def newPlace? (t : FileTree) (path : String) : Option Place :=
  let segments := Path.segments path.toList
  match segments.getLast? with
  | none => none
  | some name =>
    if Path.isIdle name || name = ".." || !Path.isPassable path then none
    else
      match t.follow (t.start path) segments.dropLast with
      | some p => if t.isDirectory p then some (p ++ [name]) else none
      | none => none

/-- The tree after a file was written, unless the path leads to no file and
none can be created there. -/
def write? (t : FileTree) (path : String) (bytes : Bytes) : Option FileTree :=
  match t.find? path with
  | some p => if t.isFile p then some (t.put p bytes) else none
  | none => (t.newPlace? path).map fun p => t.put p bytes

def makeDirectory (t : FileTree) (p : Place) : FileTree :=
  if t.isDirectory p then t else { t with directories := t.directories ++ [p] }

/-- Makes the directories that segments run through, and says where they end. -/
def makeDirectories (t : FileTree) (p : Place) : List String → FileTree × Place
  | [] => (t, p)
  | segment :: rest =>
    if Path.isIdle segment then t.makeDirectories p rest
    else if segment = ".." then t.makeDirectories p.dropLast rest
    else (t.makeDirectory (p ++ [segment])).makeDirectories (p ++ [segment]) rest

def create (t : FileTree) (path : String) (bytes : Bytes) : FileTree :=
  let segments := Path.segments path.toList
  let (t, p) := t.makeDirectories (t.start path) segments.dropLast
  t.put (p ++ [segments.getLastD ""]) bytes

/-- The files below the working directory that `before` does not have with the
same contents, by path. -/
def changedSince (t before : FileTree) : List (String × Bytes) :=
  let changed := t.files.filter fun f =>
    t.here.isPrefixOf f.1 && before.contents? f.1 != some f.2
  (changed.map fun f => (String.intercalate "/" (f.1.drop t.here.length), f.2)).mergeSort fun a b => decide (a.1 ≤ b.1)

end FileTree

end WordAsm
