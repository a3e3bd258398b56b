/-
# Documents of YAML

The nodes of a document follow from its tokens. Where a node may be left out,
the token that comes next shows that it is.
-/
import WordAsm.Yaml.Tokens
import WordAsm.Yaml.Value

namespace WordAsm.Yaml

/-- The state in which nodes are read. -/
structure Reading where
  tokens : List Token
  /-- What the handles of tags stand for. -/
  handles : List (String × Bytes) := []
  anchors : Anchors := {}

abbrev Read := StateT Reading Option

namespace Read

def peek : Read (Option Token) := do return (← get).tokens.head?

def advance : Read Unit := modify fun r => { r with tokens := r.tokens.tail }

/-- Passes over a token if it comes next. -/
def pass (t : Token) : Read Bool := do
  if (← peek) = some t then
    advance
    return true
  else return false

/-- Passes over a token that must come next. -/
def expect (t : Token) : Read Unit := do
  if !(← pass t) then failure

/-- Reads a node unless a token comes that shows that there is none. -/
def unlessAt (stops : List Token) (node : Read Value) : Read Value := do
  if (← peek).any (stops.contains ·) then return .empty else node

def defaultHandles : List (String × Bytes) :=
  [("!", Utf8.encode "!"), ("!!", Utf8.encode "tag:yaml.org,2002:")]

def fullTag (tag : TagToken) : Read Bytes := do
  if tag.handle.isEmpty then return tag.suffix
  else
    match ((← get).handles ++ defaultHandles).lookup tag.handle with
    | some start => return start ++ tag.suffix
    | none => failure

def anchor : Read (Option String) := do
  match ← peek with
  | some (.anchor name) =>
    advance
    return some name
  | _ => return none

def tag : Read (Option Bytes) := do
  match ← peek with
  | some (.tag tag) =>
    advance
    return some (← fullTag tag)
  | _ => return none

def properties : Read (Option String × Option Bytes) := do
  match ← anchor with
  | some name => return (some name, ← tag)
  | none =>
    let tag ← tag
    if tag.isSome then return (← anchor, tag) else return (none, none)

def reference (name : String) : Read Value := do
  match (← get).anchors.numbers.lookup name with
  | some number => return .reference number
  | none => failure

def anchored (name : Option String) (node : Read Value) : Read Value := do
  match name with
  | none => node
  | some name =>
    let place := (← get).anchors.started.length
    modify fun r => { r with anchors := r.anchors.start name }
    let value ← node
    modify fun r => { r with anchors := r.anchors.finish place value }
    return value

def afterColon (value : Read Value) : Read Value := do
  if ← pass .value then value else return .empty

/-- Whether brackets close here, or else comes to the next entry between them,
which a comma parts from the one before. -/
def closes (stop : Token) (isFirst : Bool) : Read Bool := do
  if ← pass stop then return true
  else if isFirst then return false
  else
    expect .flowEntry
    pass stop

end Read

open Read

/-- Tokens that show that a node of a mapping outside brackets is left out. -/
def mappingStops : List Token := [.key, .value, .blockEnd]

mutual

/-- Reads a node. Outside brackets it may be indented (`isBlock`), and a
sequence may stand where its mapping does (`isLoose`). -/
def node (isBlock isLoose : Bool) : Nat → Read Value
  | 0 => failure
  | fuel + 1 => do
    match ← peek with
    | some (.reference name) =>
      advance
      reference name
    | _ =>
      let (name, tag) ← properties
      anchored name (content isBlock isLoose (name.isSome || tag.isSome) tag fuel)

/-- Reads what a node holds; it may be left out behind an anchor or a tag. -/
def content (isBlock isLoose mayMiss : Bool) (tag : Option Bytes) : Nat → Read Value
  | 0 => failure
  | fuel + 1 => do
    let missing : Read Value := if mayMiss then return .scalar tag .plain "" else failure
    match ← peek with
    | some .blockEntry => if isLoose then return .sequence (← looseItems fuel) else missing
    | some (.scalar form text) =>
      advance
      return .scalar (tag.filter (· != Utf8.encode "!")) form text
    | some .flowSequenceStart =>
      advance
      return .sequence (← flowItems true fuel)
    | some .flowMappingStart =>
      advance
      return .mapping (← flowEntries true fuel)
    | some .blockSequenceStart =>
      if isBlock then
        advance
        return .sequence (← blockItems fuel)
      else missing
    | some .blockMappingStart =>
      if isBlock then
        advance
        return .mapping (← blockEntries fuel)
      else missing
    | _ => missing

def blockItems : Nat → Read (List Value)
  | 0 => failure
  | fuel + 1 => do
    if ← pass .blockEntry then
      let item ← unlessAt [.blockEntry, .blockEnd] (node true false fuel)
      return item :: (← blockItems fuel)
    else
      expect .blockEnd
      return []

/-- Reads the items of a sequence that is not indented, which has no end of its
own. -/
def looseItems : Nat → Read (List Value)
  | 0 => failure
  | fuel + 1 => do
    if ← pass .blockEntry then
      let item ← unlessAt (.blockEntry :: mappingStops) (node true false fuel)
      return item :: (← looseItems fuel)
    else return []

def blockEntries : Nat → Read (List (Value × Value))
  | 0 => failure
  | fuel + 1 => do
    if ← pass .key then
      let key ← unlessAt mappingStops (node true true fuel)
      let value ← afterColon (unlessAt mappingStops (node true true fuel))
      return (key, value) :: (← blockEntries fuel)
    else
      expect .blockEnd
      return []

/-- Reads the items of a sequence in brackets. A key among them makes a mapping
of one entry; a token that shows that the key is left out is passed over. -/
def flowItems (isFirst : Bool) : Nat → Read (List Value)
  | 0 => failure
  | fuel + 1 => do
    if ← closes .flowSequenceEnd isFirst then return []
    else if ← pass .key then
      let isMissing := (← peek).any [Token.value, .flowEntry, .flowSequenceEnd].contains
      let key ← if isMissing then do advance; pure Value.empty else node false false fuel
      let value ← afterColon (unlessAt [.flowEntry, .flowSequenceEnd] (node false false fuel))
      return .mapping [(key, value)] :: (← flowItems false fuel)
    else
      let item ← node false false fuel
      return item :: (← flowItems false fuel)

/-- Reads the entries of a mapping in brackets; one without a mark or a colon
is a key alone. -/
def flowEntries (isFirst : Bool) : Nat → Read (List (Value × Value))
  | 0 => failure
  | fuel + 1 => do
    let stops := [.flowEntry, .flowMappingEnd]
    if ← closes .flowMappingEnd isFirst then return []
    else if ← pass .key then
      let key ← unlessAt (.value :: stops) (node false false fuel)
      let value ← afterColon (unlessAt stops (node false false fuel))
      return (key, value) :: (← flowEntries false fuel)
    else
      let key ← node false false fuel
      return (key, .empty) :: (← flowEntries false fuel)

end

/-- The root of a text with the anchors in it. -/
structure Document where
  root : Value
  anchors : Anchors

def Document.follow? (d : Document) : Value → Option Value
  | .reference number => d.anchors.target? number
  | value => some value

/-- The handles that directives give a meaning. Only one version may be named,
and no handle may have two meanings. -/
def handles? (directives : List Directive) : Option (List (String × Bytes)) :=
  let versions := directives.filterMap fun
    | .version major minor => some (major, minor)
    | _ => none
  let handles := directives.filterMap fun
    | .handle name start => some (name, start)
    | _ => none
  let isKnown := versions.all fun (major, minor) => major = 1 && (minor = 1 || minor = 2)
  let names := handles.map Prod.fst
  if isKnown && versions.length ≤ 1 && names.eraseDups.length = names.length then some handles
  else none

/-- The directives in front of some tokens, and the tokens behind them. -/
def splitDirectives : List Token → List Directive × List Token
  | .directive d :: rest => let (ds, rest) := splitDirectives rest; (d :: ds, rest)
  | tokens => ([], tokens)

def lacksRoot : List Token → Bool
  | [] => true
  | t :: _ =>
    match t with
    | .directive _ | .documentStart | .documentEnd => true
    | _ => false

def stepBound (tokens : List Token) : Nat := 4 * (tokens.length + 1)

def document? (tokens : List Token) : Option Document := do
  let (directives, rest) := splitDirectives tokens
  let handles ← handles? directives
  let isMarked := rest.head? = some .documentStart
  if !isMarked && !directives.isEmpty then none
  else
    let body := if isMarked then rest.tail else rest
    let root : Read Value :=
      if isMarked && lacksRoot body then return .empty else node true false (stepBound body)
    let (root, reading) ← root.run { tokens := body, handles }
    if reading.tokens.all (· = .documentEnd) then return { root, anchors := reading.anchors }
    else none

def read? (text : String) : Option (Option Document) := do
  let tokens ← tokens? text
  if tokens.isEmpty then return none else return some (← document? tokens)

end WordAsm.Yaml
