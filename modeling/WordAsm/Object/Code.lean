/-
# Object code

The words generated for a unit are kept in memory or written to a file beside
the source. Either way the object code is a resource, with the span of
addresses that was written.
-/
import WordAsm.Files.Resource
import WordAsm.Object.WordBuffer

namespace WordAsm

structure ObjectCode where
  resource : Resource
  first : Option Address
  last : Option Address
  deriving DecidableEq

/-- Where object code goes. -/
inductive ObjectSink
  | memory
  /-- Files in the given directory, or beside their sources. -/
  | files (directory : Option String)
  deriving DecidableEq

namespace ObjectSink

def objectPath (directory : Option String) (identifier : String) (id : UnitId) : String :=
  let name := (Path.stem? identifier).getD s!"unit{id}" ++ ".o"
  match directory, Path.parent? identifier with
  | some directory, _ => Path.join directory name
  | none, some parent => Path.join parent name
  | none, none => name

def close (sink : ObjectSink) (tree : FileTree) (identifier : String) (id : UnitId)
    (buffer : WordBuffer) : Except Error (ObjectCode × FileTree) :=
  match sink with
  | memory => .ok (⟨.memory (identifier ++ ".bin") buffer.toBytes, buffer.first, buffer.last⟩, tree)
  | files directory =>
    let path := objectPath directory identifier id
    match tree.write? path buffer.toBytes with
    | some tree => .ok (⟨.file path, buffer.first, buffer.last⟩, tree)
    | none => .error (.unwritable path)

end ObjectSink

end WordAsm
