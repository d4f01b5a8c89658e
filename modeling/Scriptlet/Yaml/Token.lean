/-
  Scriptlet.Yaml.Token

  The tokens of a YAML text. Indentation becomes tokens that open and close
  blocks, so that the structure of a document is in its tokens alone.
-/
import Scriptlet.Yaml.Characters

namespace Scriptlet.Yaml

inductive Token where
  | version (major minor : Nat)
  | handle (name meaning : List Char)
  | documentStart
  | documentEnd
  | streamEnd
  | listStart
  | mappingStart
  | blockEnd
  | flowListStart
  | flowListEnd
  | flowMappingStart
  | flowMappingEnd
  | item
  | comma
  | key
  | value
  | anchor (name : List Char)
  | reference (name : List Char)
  | tag (handle suffix : List Char)
  | scalar (contents : List Char) (plain : Bool)
deriving DecidableEq, Repr

namespace Token

/-- Whether a token stands before a document and tells how to read it. -/
def isDirective : Token → Bool
  | .version _ _ | .handle _ _ => true
  | _ => false

/-- Whether a token ends a document. -/
def endsDocument : Token → Bool
  | .documentStart | .documentEnd | .streamEnd => true
  | t => t.isDirective

end Token

end Scriptlet.Yaml
