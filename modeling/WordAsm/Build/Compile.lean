/-
# Compilation

A compilation forgets the one before, and then runs every phase over every unit
in working order. Units that are queued while a phase runs are worked on by the
same phase, so the order is walked by position. Every unit is queued once
besides those queued at first, so as many steps as there are queued units,
known units and sources to include are enough.
-/
import WordAsm.Build.Pipeline
import WordAsm.Depend.Discovery

namespace WordAsm

def unitTrace (phase : String) (unit : SourceUnit) : List LogLine :=
  (unit.tree.getD []).map fun node => ⟨.trace, s!"{phase} {unit.identifier}: {node.traced}"⟩

/-- Runs a phase on one unit. A breakdown becomes a marker on the unit. -/
def runUnit (cfg : Settings) (phase : Phase) (unit : SourceUnit) (b : Build) : Build :=
  match phase.run cfg unit b with
  | (.ok (), b) => b
  | (.error e, b) =>
    (b.say .error (s!"{phase.name} failed on " ++ unitTag unit.id ++ s!": {e.message}")).mark
      unit.id [.generic s!"Internal error in phase `{phase.name}`" e.message]

def traceUnit (cfg : Settings) (phase : Phase) (unit : SourceUnit) (b : Build) : Build :=
  if cfg.switches.has .debugMode then b.sayAll (unitTrace phase.name unit) else b

/-- Runs a phase on the queued units from position `index` on, in at most
`steps` steps, and tells whether it left a unit with errors. -/
def runUnits (cfg : Settings) (slot : Slot) : Nat → Nat → Bool → Build → Bool × Build
  | 0, _, failed, b => (failed, b)
  | steps + 1, index, failed, b =>
    match b.order[index]? with
    | none => (failed, b)
    | some id =>
      match b.get? id with
      | none => runUnits cfg slot steps (index + 1) failed b
      | some unit =>
        if !slot.phase.accepts unit then
          runUnits cfg slot steps (index + 1) failed
            (b.tell (.unitSkipped slot.name unit.identifier))
        else
          let b := runUnit cfg slot.phase unit (b.tell (.unitStart slot.name unit.identifier))
          let unit := (b.get? id).getD unit
          let b := traceUnit cfg slot.phase unit b
          if unit.hasErrors then
            let b := b.tell (.unitFailure slot.name unit.identifier)
            if slot.abortOnError then (true, b)
            else runUnits cfg slot steps (index + 1) true b
          else
            runUnits cfg slot steps (index + 1) failed
              (b.tell (.unitSuccess slot.name unit.identifier))

/-- How many units may come to be queued. -/
def queueBound (cfg : Settings) (b : Build) : Nat :=
  b.order.length + b.all.length + cfg.resolver.reach b.tree

def runPhase (cfg : Settings) (slot : Slot) (b : Build) : Bool × Build :=
  let (failed, b) := runUnits cfg slot (queueBound cfg b) 0 false
    (b.tell (.phaseStart slot.name))
  (failed, b.tell (if failed then .phaseFailure slot.name else .phaseSuccess slot.name))

/-- Runs the phases one after the other, and tells whether errors cut that
short. -/
def runPipeline (cfg : Settings) : Pipeline → Build → Bool × Build
  | [], b => (false, b)
  | slot :: slots, b =>
    if slot.abortOnError && b.hasErrors then
      (true, (b.say .debug s!"Not running {slot.name}: program has errors").tell
        (.phaseSkipped slot.name))
    else
      let (failed, b) := runPhase cfg slot b
      if failed && slot.abortOnError then (true, b)
      else if slot.stopAfter then (false, b.say .debug s!"Stopping after {slot.name}")
      else runPipeline cfg slots b

def Program.reset (p : Program) : Program :=
  { units := { p.units with all := p.all.map SourceUnit.reset }, symbols := p.symbols.clear }

/-- Compiles a program, and tells whether that went without errors. -/
def compile (cfg : Settings) (program : Program) (tree : FileTree)
    (pipeline : Pipeline := .standard) : Bool × Build :=
  let program := program.reset
  let b : Build := { program, tree }
  let b := b.tell (.start program.all.length program.order.length)
  let (aborted, b) := runPipeline cfg pipeline b
  let success := !aborted && !b.hasErrors
  let b := b.tell (if success then .success else .failure)
  (success, b.tell (.finish b.all.length))

end WordAsm
