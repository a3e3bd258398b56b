/-
# Include paths

An include path is looked for beside the including source first. Sources in
memory are found by name; files are then looked for in the include directories
and at last from the working directory.
-/
import WordAsm.Files.Resource

namespace WordAsm

inductive Resolver
  /-- Texts by name. -/
  | memory (texts : List (String × String))
  /-- Files, with directories to search. -/
  | files (directories : List String)
  deriving DecidableEq

namespace Resolver

def memoryResource? (texts : List (String × String)) (name : String) : Option Resource :=
  (texts.lookup name).map (Resource.text name)

/-- The places to look for a file, in order. -/
def candidates (directories : List String) (path : String) (parent : Option Resource) :
    List String :=
  let beside := (parent.bind Resource.directory?).toList
  (beside ++ directories).map (Path.join · path) ++ [path]

def resolve (r : Resolver) (tree : FileTree) (path : String) (parent : Option Resource) :
    Except Error Resource :=
  let found := match r with
    | memory texts =>
      let directory := (parent.bind Resource.directory?).filter fun d => !d.isEmpty
      let beside := directory.bind fun d => memoryResource? texts (Path.join d path)
      beside <|> memoryResource? texts path
    | files directories =>
      let places := if Path.isAbsolute path then [path] else candidates directories path parent
      (places.find? tree.leadsToFile).map Resource.file
  match found with
  | some resource => .ok resource
  | none => .error (.unresolvedInclude path)

end Resolver

end WordAsm
