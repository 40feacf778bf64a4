import AgentGraph.Tree.Basic
/-!
# Spelling of field names

A document spells its field names in one of two styles: canonical, words in lower case joined by
underscores, or alternate, the camel case in which the component kinds declare their fields. The
names of the document protocol itself have a fixed spelling in each style. Only ASCII letters have
a case here.
-/
namespace AgentGraph

/-- How field names are spelled in a document. -/
inductive NamingMode where
  | canonical
  | alternate
  deriving DecidableEq

/-- The reserved names of the document protocol. -/
structure Protocol where
  componentType : String
  version : String
  legacyVersion : String
  pluginName : String
  pluginVersion : String
  componentRef : String
  referencedComponents : String

/-- The protocol names in a fixed order. -/
def Protocol.names (p : Protocol) : List String :=
  [p.componentType, p.version, p.legacyVersion, p.pluginName, p.pluginVersion, p.componentRef,
    p.referencedComponents]

namespace Naming

/-- Canonical form of the characters after one whose predecessor is known. An underscore goes
before a capital that follows a small letter or a digit, and before the last capital of a run if a
small letter follows it. -/
def canonicalFrom (previous : Char) : List Char → List Char
  | [] => []
  | c :: rest =>
    let afterWord := previous.isLower || previous.isDigit
    let endsAcronym := previous.isUpper &&
      match rest with
      | next :: _ => next.isLower
      | [] => false
    let tail := c.toLower :: canonicalFrom c rest
    if c.isUpper && (afterWord || endsAcronym) then '_' :: tail else tail

/-- Canonical form of a list of characters. -/
def canonicalChars : List Char → List Char
  | [] => []
  | c :: rest => c.toLower :: canonicalFrom c rest

/-- From camel case to words joined by underscores. -/
def toCanonical (name : String) : String := String.ofList (canonicalChars name.toList)

/-- Alternate form of the characters that follow the first; `raise` says that an underscore was
just passed. -/
def alternateFrom : Bool → List Char → List Char
  | raise, [] => if raise then ['_'] else []
  | raise, c :: rest =>
    if c = '_' then alternateFrom true rest
    else (if raise then c.toUpper else c) :: alternateFrom false rest

/-- Alternate form of a list of characters. An underscore in front stays as it is. -/
def alternateChars : List Char → List Char
  | [] => []
  | c :: rest => c :: alternateFrom false rest

/-- From words joined by underscores to camel case. -/
def toAlternate (key : String) : String := String.ofList (alternateChars key.toList)

end Naming

namespace NamingMode

def name : NamingMode → String
  | canonical => "canonical"
  | alternate => "alternate"

def parse : String → Except String NamingMode
  | "canonical" => .ok canonical
  | "alternate" => .ok alternate
  | other => .error ("unknown naming mode: " ++ other)

/-- The mode used when none is chosen. -/
def default : NamingMode := canonical

/-- Spells an internal field name for a document. -/
def toDocument : NamingMode → String → String
  | canonical, field => Naming.toCanonical field
  | alternate, field => field

/-- Recovers an internal field name from a document key. -/
def fromDocument : NamingMode → String → String
  | canonical, key => Naming.toAlternate key
  | alternate, key => key

def protocol : NamingMode → Protocol
  | canonical =>
    { componentType := "component_type"
      version := "agentspec_version"
      legacyVersion := "air_version"
      pluginName := "component_plugin_name"
      pluginVersion := "component_plugin_version"
      componentRef := "$component_ref"
      referencedComponents := "$referenced_components" }
  | alternate =>
    { componentType := "componentType"
      version := "agentspecVersion"
      legacyVersion := "airVersion"
      pluginName := "componentPluginName"
      pluginVersion := "componentPluginVersion"
      componentRef := "$componentRef"
      referencedComponents := "$referencedComponents" }

/-- Whether a key is a protocol name of the mode. -/
def isProtocol (mode : NamingMode) (key : String) : Bool := mode.protocol.names.contains key

/-- The mode whose protocol names the root of a document uses. -/
def detect? (document : Tree) : Option NamingMode :=
  match document with
  | .map entries =>
    [canonical, alternate].find? fun mode =>
      Dict.has entries mode.protocol.componentType ||
        Dict.has entries mode.protocol.referencedComponents
  | _ => none

end NamingMode
end AgentGraph
