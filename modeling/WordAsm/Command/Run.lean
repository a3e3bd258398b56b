/-
# A run of the assembler

A run reads its settings, orders, compiles and links the inputs, and writes
the image and the reports. It works on a tree of files and gives back the tree
with what it wrote, the text it printed, and its exit code.
-/
import WordAsm.Command.Arguments
import WordAsm.Command.Config
import WordAsm.Image.Link
import WordAsm.Report.Diagnostics
import WordAsm.Report.Listing
import WordAsm.Report.SymbolMap

namespace WordAsm

/-- What a run has done so far. -/
structure Console where
  tree : FileTree
  lines : List String := []
  log : List LogLine := []

/-- The steps of a run: they may fail, and what was printed and written before
that stays. -/
abbrev RunM := ExceptT Error (StateM Console)

def printLines (lines : List String) : RunM Unit :=
  modify fun (c : Console) => { c with lines := c.lines ++ lines }

def noteAll (log : List LogLine) : RunM Unit :=
  modify fun (c : Console) => { c with log := c.log ++ log }

def files : RunM FileTree := do return (← getThe Console).tree

def writeFile (path : String) (bytes : Bytes) : RunM Unit := do
  match (← files).write? path bytes with
  | some tree => modify fun (c : Console) => { c with tree }
  | none => throw (.unwritable path)

def loadConfig (path : String) : RunM BuildConfig := do
  match (← files).readBytes? path with
  | none => throw (.unreadable path)
  | some bytes =>
    match Utf8.decode? bytes with
    | none => throw (.badConfig "not a build file")
    | some text => liftExcept (BuildConfig.parse text)

/-- The settings of a build file with those of the command line on top. -/
def BuildConfig.withArguments (c : BuildConfig) (a : Arguments) : BuildConfig where
  options := c.options ++ a.options
  output := a.output <|> c.output
  selfRelocating := c.selfRelocating || a.selfRelocating
  moveAddresses := c.moveAddresses || a.moveAddresses
  root := a.root <|> c.root
  stopAfter := a.stopAfter <|> c.stopAfter
  includeDirs := c.includeDirs ++ a.includes

/-- Where the image goes: where the settings say, or beside the first input. -/
def BuildConfig.outputPath (c : BuildConfig) (a : Arguments) : String :=
  c.output.getD (Path.withExtension (a.inputs.headD "main.rk") "bin")

def BuildConfig.pipeline (c : BuildConfig) : Except Error Pipeline :=
  match c.stopAfter with
  | none => .ok .standard
  | some phase =>
    match Pipeline.stopAfter .standard phase with
    | (.ok (), pipeline) => .ok pipeline
    | (.error e, _) => .error e

def orderInputs (a : Arguments) (c : BuildConfig) (cfg : Settings) : RunM Program := do
  printLines ("1. Determine Compilation Order" :: a.inputs.map ("  < " ++ ·))
  let selector := match c.root with
    | some root => RootSelector.byRoot (.file root)
    | none => .byStart
  let program := Program.ofResources (a.inputs.map Resource.file)
  let (outcome, program, log) := program.orderUnits cfg.resolver (← files) selector
  noteAll log
  liftExcept outcome
  return program

def compileProgram (cfg : Settings) (pipeline : Pipeline) (program : Program) :
    RunM (Bool × Program) := do
  printLines ["2. Compile"]
  let (success, b) := compile cfg program (← files) pipeline
  noteAll (logLines true b.notices)
  modify fun (c : Console) => { c with tree := b.tree }
  let (report, errors) := reportUnits b.tree b.units
  printLines report
  if !success then
    printLines [Colour.red.paintBold "Compilation failed" ++ s!": {errors} error(s)"]
  return (success, b.program)

def linkProgram (c : BuildConfig) (output : String) (program : Program) : RunM Program := do
  let modules ← liftExcept (ObjectModule.collect program.units)
  printLines ["3. Link", "  > " ++ output]
  let linker : Linker :=
    { selfRelocating := c.selfRelocating, moveAddresses := c.moveAddresses }
  let (outcome, done) := link linker modules (← files) { program }
  noteAll done.log
  let linked ← liftExcept outcome
  writeFile output done.output
  printLines ["  " ++ Colour.green.paint (toString linked.imageLength)
    ++ s!" byte(s), header {linked.headerLength} byte(s), {linked.relocation.size} relocation(s)"]
  return done.program

/-- Prints the listing and writes the symbol map, if they are wanted. -/
def writeReports (a : Arguments) (program : Program) : RunM Unit := do
  if a.dump then
    for unit in program.ordered do
      printLines (← liftExcept (listing (← files) unit))
  match a.symbols with
  | some path => writeFile path (Utf8.encode (symbolMapYaml program))
  | none => return

/-- Assembles the inputs, and tells whether there is a program without errors. -/
def assemble (a : Arguments) : RunM Bool := do
  printLines ["RK16 Assembler by kanade-k-1228"]
  let base ← match a.config with
    | some path => loadConfig path
    | none => pure {}
  let c := base.withArguments a
  let pipeline ← liftExcept c.pipeline
  let cfg : Settings :=
    { switches := .ofList c.options, resolver := .files c.includeDirs, sink := .memory }
  let program ← orderInputs a c cfg
  let (success, program) ← compileProgram cfg pipeline program
  if !success then return false
  if c.stopAfter.isSome then return true
  let program ← linkProgram c (c.outputPath a) program
  writeReports a program
  return true

structure RunResult where
  exit : UInt8
  output : String
  tree : FileTree
  /-- What was said about the work, as far as the arguments want it. -/
  log : List LogLine

def joinLines (lines : List String) : String := String.join (lines.map (· ++ "\n"))

/-- How much of the log is shown. -/
def Arguments.logLevel (a : Arguments) : LogLevel :=
  if a.verbose then .debug else if a.quiet then .warn else .info

def runWith (a : Arguments) (tree : FileTree) : RunResult :=
  let (outcome, c) := (assemble a).run.run { tree }
  let (exit, lines) : UInt8 × List String := match outcome with
    | .ok success => (if success then 0 else 1, c.lines)
    | .error e => (1, c.lines ++ [Colour.red.paintBold "error" ++ ": " ++ e.message])
  { exit, output := joinLines lines, tree := c.tree, log := LogLine.upTo a.logLevel c.log }

def versionText : String := "rkasm 0.1.0\n"

def helpText : String := joinLines
  ["rkasm 0.1.0", "  Assembler and linker for RK16 architecture", "",
    "Usage: rkasm [OPTIONS] <INPUT>...", "", "Options:",
    "  -o, --output <OUTPUT>          Output file",
    "      --self-relocating          Prefix the image with a relocation stub and table",
    "      --rewrite-addresses        Shift resolved addresses past the relocation header",
    "      --root <ROOT>              File whose include tree is compiled when several roots exist",
    "  -O, --option <OPTION>          Compiler option, repeatable",
    "      --config <CONFIG>          YAML build file",
    "  -I, --include <INCLUDE>        Extra include search directory, repeatable",
    "      --stop-after <STOP_AFTER>  Stop after the named phase",
    "  -d, --dump                     Print an address listing",
    "      --symbols <SYMBOLS>        Write the symbol map as YAML",
    "  -v, --verbose                  More log output",
    "  -q, --quiet                    Only warnings and errors",
    "  -h, --help                     Print help",
    "  -V, --version                  Print version"]

def runCommand (args : List String) (tree : FileTree) : RunResult :=
  match Arguments.parse args with
  | .ok a => runWith a tree
  | .error .misuse => { exit := 2, output := "", tree, log := [] }
  | .error .version => { exit := 0, output := versionText, tree, log := [] }
  | .error .help => { exit := 0, output := helpText, tree, log := [] }

end WordAsm
