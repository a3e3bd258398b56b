/-
# Command line arguments

Arguments are read from left to right. An option is written out behind two
dashes, or as a letter behind one; letters of options without a value can be
put together. A value follows its option, or is attached to it. Behind `--`
everything is an input.
-/
import WordAsm.Switches

namespace WordAsm

structure Arguments where
  inputs : List String := []
  output : Option String := none
  selfRelocating : Bool := false
  moveAddresses : Bool := false
  root : Option String := none
  options : List Switch := []
  config : Option String := none
  includes : List String := []
  stopAfter : Option String := none
  dump : Bool := false
  symbols : Option String := none
  verbose : Bool := false
  quiet : Bool := false
  deriving DecidableEq

/-- What to answer when the arguments ask for no run. -/
inductive Reply
  /-- The arguments make no sense. -/
  | misuse
  | version
  | help
  deriving DecidableEq

/-- Options without a value. -/
inductive Flag
  | selfRelocating
  | moveAddresses
  | dump
  | verbose
  | quiet
  | help
  | version
  deriving DecidableEq

/-- Options with a value. -/
inductive Param
  | output
  | root
  | option
  | config
  | includes
  | stopAfter
  | symbols
  deriving DecidableEq

def Flag.ofName? : String → Option Flag
  | "self-relocating" => some selfRelocating
  | "rewrite-addresses" => some moveAddresses
  | "dump" => some dump
  | "verbose" => some verbose
  | "quiet" => some quiet
  | "help" => some help
  | "version" => some version
  | _ => none

def Flag.ofLetter? : Char → Option Flag
  | 'd' => some dump
  | 'v' => some verbose
  | 'q' => some quiet
  | 'h' => some help
  | 'V' => some version
  | _ => none

def Param.ofName? : String → Option Param
  | "output" => some output
  | "root" => some root
  | "option" => some option
  | "config" => some config
  | "include" => some includes
  | "stop-after" => some stopAfter
  | "symbols" => some symbols
  | _ => none

def Param.ofLetter? : Char → Option Param
  | 'o' => some output
  | 'O' => some option
  | 'I' => some includes
  | _ => none

namespace Arguments

/-- Turns a flag on, which may be done once. -/
def setFlag (a : Arguments) : Flag → Except Reply Arguments
  | .selfRelocating =>
    if a.selfRelocating then .error .misuse else .ok { a with selfRelocating := true }
  | .moveAddresses =>
    if a.moveAddresses then .error .misuse else .ok { a with moveAddresses := true }
  | .dump => if a.dump then .error .misuse else .ok { a with dump := true }
  | .verbose => if a.verbose then .error .misuse else .ok { a with verbose := true }
  | .quiet => if a.quiet then .error .misuse else .ok { a with quiet := true }
  | .help => .error .help
  | .version => .error .version

def path (value : String) : Except Reply String :=
  if value.isEmpty then .error .misuse else .ok value

def once (old : Option String) (value : Except Reply String) : Except Reply (Option String) :=
  if old.isSome then .error .misuse else value.map some

def setParam (a : Arguments) (p : Param) (value : String) : Except Reply Arguments :=
  match p with
  | .output => (once a.output (path value)).map fun output => { a with output }
  | .root => (once a.root (path value)).map fun root => { a with root }
  | .config => (once a.config (path value)).map fun config => { a with config }
  | .symbols => (once a.symbols (path value)).map fun symbols => { a with symbols }
  | .stopAfter => (once a.stopAfter (.ok value)).map fun stopAfter => { a with stopAfter }
  | .includes => (path value).map fun dir => { a with includes := a.includes ++ [dir] }
  | .option =>
    match Switch.ofName? value with
    | some s => .ok { a with options := a.options ++ [s] }
    | none => .error .misuse

def addInput (a : Arguments) (input : String) : Except Reply Arguments :=
  (path input).map fun input => { a with inputs := a.inputs ++ [input] }

/-- Whether an argument is an option, and so no value. A dash alone is a value. -/
def isOption (arg : String) : Bool := arg.toList.head? == some '-' && arg != "-"

/-- Reads letters behind one dash. An option that still needs its value comes
back with the arguments. -/
def letters (a : Arguments) : List Char → Except Reply (Arguments × Option Param)
  | [] => .ok (a, none)
  | c :: rest =>
    match Flag.ofLetter? c, Param.ofLetter? c with
    | some flag, _ => do letters (← a.setFlag flag) rest
    | none, some p =>
      match rest with
      | [] => .ok (a, some p)
      | '=' :: value => do return (← a.setParam p (String.ofList value), none)
      | value => do return (← a.setParam p (String.ofList value), none)
    | none, none => .error .misuse

/-- Reads an option that is written out, without its dashes. -/
def word (a : Arguments) (cs : List Char) : Except Reply (Arguments × Option Param) :=
  let name := String.ofList (cs.takeWhile (· != '='))
  let attached := match cs.dropWhile (· != '=') with
    | _ :: value => some (String.ofList value)
    | [] => none
  match Flag.ofName? name, Param.ofName? name, attached with
  | some flag, _, none => do return (← a.setFlag flag, none)
  | none, some p, some value => do return (← a.setParam p value, none)
  | none, some p, none => .ok (a, some p)
  | _, _, _ => .error .misuse

def option (a : Arguments) (arg : String) : Except Reply (Arguments × Option Param) :=
  match arg.toList with
  | '-' :: '-' :: cs => a.word cs
  | _ :: cs => a.letters cs
  | [] => .error .misuse

def readAll (a : Arguments) : List String → Except Reply Arguments
  | [] => .ok a
  | arg :: rest =>
    if arg == "--" then rest.foldlM addInput a
    else if isOption arg then
      match a.option arg, rest with
      | .error reply, _ => .error reply
      | .ok (a, none), rest => a.readAll rest
      | .ok (_, some _), [] => .error .misuse
      | .ok (a, some p), value :: rest =>
        if isOption value then .error .misuse
        else
          match a.setParam p value with
          | .error reply => .error reply
          | .ok a => a.readAll rest
    else
      match a.addInput arg with
      | .error reply => .error reply
      | .ok a => a.readAll rest

def parse (args : List String) : Except Reply Arguments := do
  let a ← readAll {} args
  if a.inputs.isEmpty then .error .misuse else .ok a

end Arguments

end WordAsm
