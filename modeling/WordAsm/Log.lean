/-
# Log lines

What the assembler says about its own work, at five levels of detail.
-/

namespace WordAsm

inductive LogLevel
  | error
  | warn
  | info
  | debug
  | trace
  deriving DecidableEq

/-- The higher the rank, the finer the detail. -/
def LogLevel.rank : LogLevel → Nat
  | error => 1
  | warn => 2
  | info => 3
  | debug => 4
  | trace => 5

def LogLevel.title : LogLevel → String
  | error => "ERROR"
  | warn => "WARN"
  | info => "INFO"
  | debug => "DEBUG"
  | trace => "TRACE"

structure LogLine where
  level : LogLevel
  message : String
  deriving DecidableEq

def LogLine.text (l : LogLine) : String := l.level.title ++ " " ++ l.message

def LogLine.upTo (level : LogLevel) (lines : List LogLine) : List LogLine :=
  lines.filter fun l => l.level.rank ≤ level.rank

end WordAsm
