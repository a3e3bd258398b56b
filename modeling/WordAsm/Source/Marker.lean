/-
# Markers

A marker is a remark about a source unit: an error or a warning of the
compiler, or a report that a phase broke down.
-/
import WordAsm.Source.Location
import WordAsm.Text.Colour

namespace WordAsm

inductive MarkerKind
  | compileError
  | compileWarning
  | genericError
  deriving DecidableEq

inductive Severity
  | info
  | warning
  | error
  deriving DecidableEq

/-- A remark, numbered once it is attached to a unit. -/
structure Marker where
  id : Nat := 0
  kind : MarkerKind
  severity : Severity
  message : String
  cause : Option String := none
  location : Option Location := none
  node : Option Nat := none
  deriving DecidableEq

namespace Marker

def error (message : String) : Marker :=
  { kind := .compileError, severity := .error, message }

def warning (message : String) : Marker :=
  { kind := .compileWarning, severity := .warning, message }

/-- The report of a failure that is no fault of the source. -/
def generic (message cause : String) : Marker :=
  { kind := .genericError, severity := .error, message, cause := some cause }

/-- The marker, pointing at a place in the source. -/
def located (m : Marker) (location : Location) : Marker := { m with location := some location }

def on (m : Marker) (node : Nat) : Marker := { m with node := some node }

def isError (m : Marker) : Bool := m.severity == .error

def explained (m : Marker) : String :=
  match m.cause with
  | some cause => s!"{m.message} ({cause})"
  | none => m.message

def text (m : Marker) : String :=
  match m.location with
  | some l => l.text ++ ": " ++ m.explained
  | none => m.explained

def headline (m : Marker) : String :=
  let title := match m.severity with
    | .error => Colour.red.paintBold "error"
    | .warning => Colour.yellow.paintBold "warn"
    | .info => Colour.green.paintBold "note"
  title ++ ": " ++ m.explained

end Marker

end WordAsm
