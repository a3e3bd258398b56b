/-
# Builds

A build is a program on its way from source to object code, with the files
around it and the notices given so far. The settings stay the same all along.
-/
import WordAsm.Build.Notice
import WordAsm.Files.Resolver
import WordAsm.Program.Program
import WordAsm.Switches

namespace WordAsm

structure Settings where
  switches : Switches := {}
  /-- Where includes are looked for. -/
  resolver : Resolver := .files []
  /-- Where object code goes. -/
  sink : ObjectSink := .memory
  deriving DecidableEq

structure Build extends program : Program where
  tree : FileTree
  /-- Equations found to be circular. -/
  poisoned : List SymbolId := []
  notices : List Notice := []

namespace Build

def tell (b : Build) (e : Event) : Build := { b with notices := b.notices ++ [.event e] }

def sayAll (b : Build) (lines : List LogLine) : Build :=
  { b with notices := b.notices ++ lines.map Notice.log }

def say (b : Build) (level : LogLevel) (message : String) : Build := b.sayAll [⟨level, message⟩]

def modifyUnit (b : Build) (id : UnitId) (f : SourceUnit → SourceUnit) : Build :=
  { b with program := b.program.modifyUnit id f }

def mark (b : Build) (id : UnitId) (markers : List Marker) : Build :=
  { b with program := b.program.mark id markers }

end Build

/-- One step of a build, done for each unit in turn. It may break down half
way through, and what it did before that stays. -/
structure Phase where
  name : String
  /-- Whether the phase works on a unit; units with errors are left alone. -/
  accepts : SourceUnit → Bool := fun unit => !unit.hasErrors
  run : Settings → SourceUnit → Build → Except Error Unit × Build

def withTree (unit : SourceUnit) (b : Build) (f : SyntaxTree → Except Error Unit × Build) :
    Except Error Unit × Build :=
  match unit.tree with
  | some tree => f tree
  | none => (.error (.internal "unit has no syntax tree"), b)

end WordAsm
