/-!
# Tokens of YAML text

The marks, names and scalars that a text consists of. Indentation appears as tokens that open and
close block lists and block mappings.
-/
namespace AgentGraph.Yaml

/-- Octets of a tag, which may come from escapes. -/
abbrev Octets := List UInt8

/-- A token. -/
inductive Token where
  | versionDirective (major minor : Nat)
  | tagDirective (handle : List Char) (meaning : Octets)
  | documentStart
  | documentEnd
  | blockListStart
  | blockMapStart
  | blockEnd
  | flowListStart
  | flowListEnd
  | flowMapStart
  | flowMapEnd
  | entry
  | comma
  | key
  | value
  | alias (name : List Char)
  | anchor (name : List Char)
  | tag (handle : List Char) (suffix : Octets)
  | scalar (text : String) (plain : Bool)
  deriving DecidableEq

end AgentGraph.Yaml
