/-
# Compiler switches
-/

namespace WordAsm

/-- What can be switched on for a compilation. -/
inductive Switch
  | debugMode
  | relaxedParsing
  | ignoreIncludes
  | relaxedValidation
  | disableInlining
  | relocationInformation
  | debugInformation
  | localLabels
  deriving DecidableEq

namespace Switch

def all : List Switch :=
  [debugMode, relaxedParsing, ignoreIncludes, relaxedValidation, disableInlining,
    relocationInformation, debugInformation, localLabels]

def name : Switch → String
  | debugMode => "debug-mode"
  | relaxedParsing => "relaxed-parsing"
  | ignoreIncludes => "no-source-include-processing"
  | relaxedValidation => "relaxed-validation"
  | disableInlining => "disable-inlining"
  | relocationInformation => "generate-relocation-information"
  | debugInformation => "generate-debug-info"
  | localLabels => "local-labels-supported"

def ofName? (text : String) : Option Switch := all.find? fun s => s.name == text

end Switch

/-- The switches that are on. -/
structure Switches where
  on : List Switch := []
  deriving DecidableEq

namespace Switches

def ofList (on : List Switch) : Switches := ⟨on⟩

def set (s : Switches) (switch : Switch) : Switches :=
  if switch ∈ s.on then s else ⟨switch :: s.on⟩

def unset (s : Switches) (switch : Switch) : Switches :=
  ⟨s.on.filter (· != switch)⟩

/-- Whether a switch is in effect. Relocation information switches inlining
off: a value that moves must keep a word of its own. -/
def has (s : Switches) : Switch → Bool
  | .disableInlining => s.on.contains .disableInlining || s.on.contains .relocationInformation
  | switch => s.on.contains switch

def toList (s : Switches) : List Switch := Switch.all.filter s.on.contains

end Switches

end WordAsm
