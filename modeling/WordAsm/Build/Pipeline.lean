/-
# Pipelines

A pipeline is a list of phases with different names. Each has two flags: not to
go on after errors, and to stop the build when it is done. A pipeline can be
edited; an edit that fails says why.
-/
import WordAsm.Build.Declaration
import WordAsm.Build.Emission
import WordAsm.Build.Reference

namespace WordAsm

/-- A phase and what the build makes of it. -/
structure Slot where
  phase : Phase
  /-- Whether errors keep the phase from running, and the build from going on. -/
  abortOnError : Bool := false
  /-- Whether the build is over when the phase is. -/
  stopAfter : Bool := false

def Slot.name (s : Slot) : String := s.phase.name

abbrev Pipeline := List Slot

namespace Pipeline

/-- The six phases from source to object code. -/
def standard : Pipeline :=
  [{ phase := parsePhase },
    { phase := referencePhase },
    { phase := layoutPhase, abortOnError := true },
    { phase := foldingPhase },
    { phase := validationPhase },
    { phase := emissionPhase, abortOnError := true }]

def names (p : Pipeline) : List String := p.map Slot.name

def position (p : Pipeline) (name : String) : Except Error Nat :=
  match p.findIdx? (·.name == name) with
  | some i => .ok i
  | none => .error (.noSuchPhase name)

def checkNew (p : Pipeline) (name : String) : Except Error Unit :=
  if name ∈ p.names then .error (.duplicatePhase name) else .ok ()

def get (p : Pipeline) (name : String) : Except Error Slot :=
  match p.find? (·.name == name) with
  | some slot => .ok slot
  | none => .error (.noSuchPhase name)

def place (p : Pipeline) (name : String) (phase : Phase) : Except Error Nat := do
  let i ← p.position name
  p.checkNew phase.name
  return i

def insertBefore (p : Pipeline) (name : String) (phase : Phase) : Except Error Unit × Pipeline :=
  match p.place name phase with
  | .ok i => (.ok (), p.insertIdx i { phase })
  | .error e => (.error e, p)

def insertAfter (p : Pipeline) (name : String) (phase : Phase) : Except Error Unit × Pipeline :=
  match p.place name phase with
  | .ok i => (.ok (), p.insertIdx (i + 1) { phase })
  | .error e => (.error e, p)

/-- Puts another phase in place of the named one, under the same flags, and
gives the old phase back. -/
def replace (p : Pipeline) (name : String) (phase : Phase) : Except Error Phase × Pipeline :=
  match p.get name with
  | .error e => (.error e, p)
  | .ok old =>
    match if phase.name = name then .ok () else p.checkNew phase.name with
    | .error e => (.error e, p)
    | .ok () =>
      (.ok old.phase, p.map fun slot => if slot.name = name then { slot with phase } else slot)

/-- Takes the named phase out. -/
def remove (p : Pipeline) (name : String) : Except Error Slot × Pipeline :=
  match p.get name with
  | .error e => (.error e, p)
  | .ok slot => (.ok slot, p.eraseP (·.name == name))

/-- Changes the slot of the named phase. -/
def modifySlot (p : Pipeline) (name : String) (f : Slot → Slot) : Except Error Unit × Pipeline :=
  match p.get name with
  | .error e => (.error e, p)
  | .ok _ => (.ok (), p.map fun slot => if slot.name = name then f slot else slot)

/-- Makes the named phase the last one to run. The flag is taken from all
phases before the name is looked up. -/
def stopAfter (p : Pipeline) (name : String) : Except Error Unit × Pipeline :=
  modifySlot (p.map fun slot => { slot with stopAfter := false }) name fun slot =>
    { slot with stopAfter := true }

end Pipeline

end WordAsm
