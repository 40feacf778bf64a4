import AgentGraph.Json.Parser
import AgentGraph.Json.Printer
import AgentGraph.Yaml.Printer
import AgentGraph.Yaml.Reader
/-!
# Text formats

A document is written as JSON or as YAML. Both formats stand for the same trees. The error of a
text that cannot be read names the format only.
-/
namespace AgentGraph

/-- The text formats of documents. -/
inductive Format where
  | json
  | yaml
  deriving DecidableEq

/-- A text that cannot be read in its format. -/
inductive CodecError where
  | json
  | yaml
  deriving DecidableEq

def CodecError.message : CodecError → String
  | json => "json error"
  | yaml => "yaml error"

namespace Format

/-- The format used when none is chosen. -/
def default : Format := yaml

def extension : Format → String
  | json => "json"
  | yaml => "yaml"

/-- The format that a name or file extension stands for. -/
def ofName? : String → Option Format
  | "json" => some json
  | "yaml" | "yml" => some yaml
  | _ => none

def parse (name : String) : Except String Format :=
  match ofName? name with
  | some format => .ok format
  | none => .error ("unknown document format: " ++ name)

/-- The last component of a path; trailing slashes and single dots do not count. -/
def fileName? (path : String) : Option String :=
  let parts := (path.splitOn "/").filter fun part => part != ""
  let kept := match path.startsWith "/", parts with
    | false, "." :: rest => "." :: rest.filter (· != ".")
    | _, parts => parts.filter (· != ".")
  match kept.getLast? with
  | some "." | some ".." | none => none
  | some name => some name

/-- The extension of a file name: what follows its last dot, unless that dot comes first. -/
def extensionOf? (name : String) : Option String :=
  let backwards := name.toList.reverse
  match backwards.dropWhile (· != '.') with
  | [] | ['.'] => none
  | _ => some (String.ofList (backwards.takeWhile (· != '.')).reverse)

/-- The format of a path, by the extension of its file name. -/
def ofPath? (path : String) : Option Format := do
  ofName? (← extensionOf? (← fileName? path))

/-- The text of a tree. JSON text is indented. -/
def encode (format : Format) (t : Tree) : String :=
  match format with
  | json => Json.pretty t
  | yaml => Yaml.text t

def decode (format : Format) (text : String) : Except CodecError Tree :=
  match format with
  | json =>
    match Json.parse? Json.maxNesting text with
    | some t => .ok t
    | none => .error .json
  | yaml =>
    match Yaml.parse? text with
    | some t => .ok t
    | none => .error .yaml

end Format
end AgentGraph
