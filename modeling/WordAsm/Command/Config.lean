/-
# Build files

A build file gives the settings of a build as a YAML mapping. Fields that are
missing have a default, and unknown fields are passed over.
-/
import WordAsm.Error
import WordAsm.Switches
import WordAsm.Yaml.Document

namespace WordAsm

structure BuildConfig where
  options : List Switch := []
  output : Option String := none
  selfRelocating : Bool := false
  moveAddresses : Bool := false
  root : Option String := none
  stopAfter : Option String := none
  includeDirs : List String := []
  deriving DecidableEq

namespace Yaml.Document

def text? (d : Document) (value : Value) : Option String :=
  match d.follow? value with
  | some (.scalar _ _ text) => some text
  | _ => none

def nullTag : Bytes := Utf8.encode "tag:yaml.org,2002:null"

def boolTag : Bytes := Utf8.encode "tag:yaml.org,2002:bool"

/-- A text, or nothing where nothing or a null is written. A tag can say that
there is a text, or that there must be a null. -/
def optionalText? (d : Document) (value : Value) : Option (Option String) :=
  match d.follow? value with
  | some (.scalar tag .plain text) =>
    match tag with
    | none => some (if text.isEmpty || isNull text then none else some text)
    | some tag =>
      if tag != nullTag then some (some text) else if isNull text then some none else none
  | some (.scalar _ _ text) => some (some text)
  | _ => none

def flag? (d : Document) (value : Value) : Option Bool :=
  match d.follow? value with
  | some (.scalar tag form text) =>
    if form = .plain || (form = .literal && tag = some boolTag) then bool? text else none
  | _ => none

/-- The members of a list, each of which must be readable by `f`. -/
def list? {α : Type} (d : Document) (f : Value → Option α) (value : Value) : Option (List α) :=
  match d.follow? value with
  | some (.sequence items) => items.mapM f
  | some (.scalar _ .plain "") => some []
  | _ => none

/-- The name behind the exclamation mark of a tag. -/
def localName? : Option Bytes → Option String
  | some (0x21 :: rest) => Utf8.decode? rest
  | _ => none

/-- The name of one of several choices: the text, or the tag of nothing. -/
def choice? (d : Document) (value : Value) : Option String :=
  match d.follow? value with
  | some (.scalar tag form text) =>
    match localName? tag with
    | none => some text
    | some name => if form = .plain && (text.isEmpty || isNull text) then some name else none
  | _ => none

end Yaml.Document

namespace BuildConfig

open Yaml

def setField? (d : Document) (c : BuildConfig) (field : String) (value : Value) :
    Option BuildConfig :=
  match field with
  | "options" =>
    (d.list? (fun v => (d.choice? v).bind Switch.ofName?) value).map fun options =>
      { c with options }
  | "output" => (d.optionalText? value).map fun output => { c with output }
  | "self-relocating" => (d.flag? value).map fun selfRelocating => { c with selfRelocating }
  | "rewrite-addresses" => (d.flag? value).map fun moveAddresses => { c with moveAddresses }
  | "root" => (d.optionalText? value).map fun root => { c with root }
  | "stop-after" => (d.optionalText? value).map fun stopAfter => { c with stopAfter }
  | "include-dirs" => (d.list? d.text? value).map fun includeDirs => { c with includeDirs }
  | _ => some c

def fields : List String :=
  ["options", "output", "self-relocating", "rewrite-addresses", "root", "stop-after",
    "include-dirs"]

/-- Sets the fields of a mapping; `seen` has been set already, and no field may
be set twice. -/
def setFields? (d : Document) (seen : List String) (c : BuildConfig) :
    List (Value × Value) → Option BuildConfig
  | [] => some c
  | (key, value) :: entries => do
    let field ← d.text? key
    if seen.contains field then none
    else
      let seen := if fields.contains field then field :: seen else seen
      setFields? d seen (← setField? d c field value) entries

def ofDocument? (d : Document) : Option BuildConfig :=
  match d.root with
  | .mapping entries => setFields? d [] {} entries
  | .scalar _ .plain "" => some {}
  | _ => none

def read? (text : String) : Option BuildConfig := do
  match ← Yaml.read? text with
  | some document => ofDocument? document
  | none => return {}

def parse (text : String) : Except Error BuildConfig :=
  match read? text with
  | some c => .ok c
  | none => .error (.badConfig "not a build file")

end BuildConfig

end WordAsm
