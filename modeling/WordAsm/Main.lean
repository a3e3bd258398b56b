/-
# The command

Reads the files below the working directory, runs the assembler on them, and
writes back what it changed.
-/
import WordAsm.Command.Run

namespace WordAsm

/-- The files below the working directory. -/
def snapshot : IO FileTree := do
  let here ← IO.currentDir
  let skip := here.toString.length + 1
  let mut tree : FileTree := { here := (here.toString.splitOn "/").drop 1 }
  for path in ← here.walkDir do
    let name := String.ofList (path.toString.toList.drop skip)
    if ← path.isDir then
      tree := (tree.makeDirectories tree.here (name.splitOn "/")).1
    else
      tree := tree.create name (← IO.FS.readBinFile path).toList
  return tree

/-- Writes the files that a run changed. -/
def writeBack (before after : FileTree) : IO Unit := do
  let here ← IO.currentDir
  for (name, bytes) in after.changedSince before do
    IO.FS.writeBinFile (here / name) (ByteArray.mk bytes.toArray)

end WordAsm

open WordAsm in
def main (args : List String) : IO UInt32 := do
  let before ← snapshot
  let result := runCommand args before
  for line in result.log do
    IO.eprintln line.text
  writeBack before result.tree
  IO.print result.output
  return result.exit.toUInt32
