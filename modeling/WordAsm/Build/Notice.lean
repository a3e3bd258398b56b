/-
# Notices

While a program is assembled, notices tell how the work goes: events that a
listener can follow, and log lines. Events can be put into the log too, at the
place where they happened.
-/
import WordAsm.Log

namespace WordAsm

inductive Event
  /-- The work begins, on so many units, of which so many are queued. -/
  | start (units queued : Nat)
  | phaseStart (phase : String)
  | phaseSuccess (phase : String)
  | phaseFailure (phase : String)
  | phaseSkipped (phase : String)
  | unitStart (phase unit : String)
  | unitSuccess (phase unit : String)
  | unitFailure (phase unit : String)
  | unitSkipped (phase unit : String)
  | success
  | failure
  /-- The work is over; there are so many units. -/
  | finish (units : Nat)
  deriving DecidableEq

def Event.logLine? : Event → Option LogLine
  | start _ queued => some ⟨.info, s!"Compiling {queued} unit(s)"⟩
  | phaseStart phase => some ⟨.debug, s!"[{phase}] start"⟩
  | phaseSuccess phase => some ⟨.debug, s!"[{phase}] done"⟩
  | phaseFailure phase => some ⟨.warn, s!"[{phase}] failed"⟩
  | phaseSkipped phase => some ⟨.warn, s!"[{phase}] skipped, earlier errors"⟩
  | unitStart phase unit => some ⟨.debug, s!"[{phase}] {unit}"⟩
  | unitSuccess _ _ => none
  | unitFailure phase unit => some ⟨.warn, s!"[{phase}] {unit} has errors"⟩
  | unitSkipped phase unit => some ⟨.debug, s!"[{phase}] {unit} skipped"⟩
  | success => some ⟨.info, "Compilation succeeded"⟩
  | failure => some ⟨.warn, "Compilation failed"⟩
  | finish _ => none

inductive Notice
  | event (e : Event)
  | log (l : LogLine)
  deriving DecidableEq

def Notice.event? : Notice → Option Event
  | event e => some e
  | log _ => none

/-- The log line of a notice, where events count only if they are wanted. -/
def Notice.logLine? (withEvents : Bool) : Notice → Option LogLine
  | event e => if withEvents then e.logLine? else none
  | log l => some l

def events (ns : List Notice) : List Event := ns.filterMap Notice.event?

def logLines (withEvents : Bool) (ns : List Notice) : List LogLine :=
  ns.filterMap (Notice.logLine? withEvents)

end WordAsm
