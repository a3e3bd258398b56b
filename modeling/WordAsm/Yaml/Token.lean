/-
# Tokens of YAML

The parts a text consists of. Where the form of a text only shows by its
indentation, the starts and ends of sequences and mappings are tokens all the
same.
-/
import WordAsm.Yaml.Directive

namespace WordAsm.Yaml

/-- How a scalar is written. -/
inductive Form
  | plain
  | quoted
  | literal
  | folded
  deriving DecidableEq

inductive Token
  | directive (directive : Directive)
  | documentStart
  | documentEnd
  | blockSequenceStart
  | blockMappingStart
  | blockEnd
  | flowSequenceStart
  | flowSequenceEnd
  | flowMappingStart
  | flowMappingEnd
  | blockEntry
  | flowEntry
  | key
  | value
  | reference (name : String)
  | anchor (name : String)
  | tag (tag : TagToken)
  | scalar (form : Form) (text : String)
  deriving DecidableEq

end WordAsm.Yaml
