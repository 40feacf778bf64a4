import AgentGraph.Dict
import AgentGraph.Text.Blank
/-!
# Files of variables

A file sets one variable in a line, `NAME=value`, perhaps after the word `export`. Values may be
quoted and go on over lines inside quotes; outside of single quotes a backslash escapes and a
dollar sign puts in another variable. A hash after a blank starts a comment. Reading stops at the
first malformed line; what was set before stays.
-/
namespace AgentGraph.EnvFile

/-- Where a reader of lines stands. -/
inductive LineState where
  | complete
  | escape
  | strongOpen
  | strongEscape
  | weakOpen
  | weakEscape
  | blank
  | comment
  deriving DecidableEq

/-- The state outside of quotes after a character that starts something. -/
def LineState.opened (c : Char) : LineState :=
  if c == '\\' then escape
  else if c == '"' then weakOpen
  else if c == '\'' then strongOpen
  else complete

def LineState.step (state : LineState) (c : Char) : LineState :=
  match state with
  | blank => if c == '#' then comment else opened c
  | complete => if Text.isBlank c && c != '\n' && c != '\r' then blank else opened c
  | escape => complete
  | weakOpen => if c == '\\' then weakEscape else if c == '"' then complete else weakOpen
  | weakEscape => weakOpen
  | strongOpen => if c == '\\' then strongEscape else if c == '\'' then complete else strongOpen
  | strongEscape => strongOpen
  | comment => comment

/-- The state at the end of a line, and how many bytes stand before its comment. -/
def scanLine : LineState → Nat → List Char → LineState × Nat
  | state, position, [] => (state, position)
  | state, position, c :: rest =>
    match state.step c with
    | .comment => (.comment, position)
    | next => scanLine next (position + c.utf8Size) rest

/-- Cuts a text after each line feed. -/
def cutLines : List Char → List Char → List (List Char)
  | [], [] => []
  | line, [] => [line.reverse]
  | line, c :: rest =>
    if c == '\n' then (c :: line).reverse :: cutLines [] rest else cutLines (c :: line) rest

/-- Keeps as many characters as fit into a number of bytes. -/
def takeBytes : Nat → List Char → List Char
  | _, [] => []
  | n, c :: rest => if c.utf8Size ≤ n then c :: takeBytes (n - c.utf8Size) rest else []

def dropLineEnd (cs : List Char) : List Char :=
  match cs.reverse with
  | '\n' :: '\r' :: rest | '\n' :: rest => rest.reverse
  | _ => cs

/-- Joins lines into logical lines; none stands for a text that ends inside of one. -/
def logicalLines : List Char → LineState → List (List Char) → List (Option (List Char))
  | _, .complete, [] => []
  | _, _, [] => [none]
  | before, state, line :: rest =>
    let text := before ++ line
    if (text.dropWhile Text.isBlank).head? == some '#' then
      some [] :: logicalLines [] .complete rest
    else
      match scanLine state 0 line with
      | (.complete, _) => some (dropLineEnd text) :: logicalLines [] .complete rest
      | (.comment, position) => some (takeBytes position text) :: logicalLines [] .complete rest
      | (next, _) => logicalLines text next rest

/-- What a dollar sign started. -/
inductive Substitution where
  | none
  | bare
  | braced
  deriving DecidableEq

/-- What is known while a value is read. -/
structure ValueState where
  /-- The value so far, the latest character in front. -/
  output : List Char
  strong : Bool
  weak : Bool
  escaped : Bool
  /-- Whether only a comment may follow. -/
  ending : Bool
  substitution : Substitution
  /-- The name after a dollar sign, the latest character in front. -/
  name : List Char

namespace ValueState

def start : ValueState := ⟨[], false, false, false, false, .none, []⟩

def push (s : ValueState) (c : Char) : ValueState := { s with output := c :: s.output }

/-- Puts in the variable whose name was read. -/
def substitute (lookup : String → String) (s : ValueState) : ValueState :=
  { s with
    output := (lookup (String.ofList s.name.reverse)).toList.reverse ++ s.output, name := [] }

/-- Whether a character belongs to a name after a dollar sign. -/
def isNameChar (c : Char) : Bool := c.isAlphanum || (c.toNat ≥ 0x80 && !Text.isBlank c)

def stepName (lookup : String → String) (s : ValueState) (c : Char) : ValueState :=
  if isNameChar c then { s with name := c :: s.name }
  else if s.substitution = .braced then
    if c == '\x7d' then { s.substitute lookup with substitution := .none }
    else { s with name := c :: s.name }
  else if c == '\x7b' && s.name.isEmpty then { s with substitution := .braced }
  else
    let s := s.substitute lookup
    if c == '$' then s else { s.push c with substitution := .none }

def stepEscaped (s : ValueState) (c : Char) : Option ValueState :=
  let s := { s with escaped := false }
  if ['\\', '\'', '"', '$', ' '].contains c then some (s.push c)
  else if c == 'n' then some (s.push '\n')
  else none

def stepBare (s : ValueState) (c : Char) : ValueState :=
  if c == '$' then { s with substitution := .bare }
  else if s.weak then
    if c == '"' then { s with weak := false }
    else if c == '\\' then { s with escaped := true }
    else s.push c
  else if c == '\'' then { s with strong := true }
  else if c == '"' then { s with weak := true }
  else if c == '\\' then { s with escaped := true }
  else if c == ' ' || c == '\t' then { s with ending := true }
  else s.push c

end ValueState

/-- Reads a value; none if it is malformed. -/
def readValue (lookup : String → String) : ValueState → List Char → Option String
  | s, [] =>
    if s.substitution = .braced || s.strong || s.weak then none
    else some (String.ofList (s.substitute lookup).output.reverse)
  | s, c :: rest =>
    if s.ending then
      if c == ' ' || c == '\t' then readValue lookup s rest
      else if c == '#' then readValue lookup s []
      else none
    else if s.escaped then
      match s.stepEscaped c with
      | some s => readValue lookup s rest
      | none => none
    else if s.strong then
      readValue lookup (if c == '\'' then { s with strong := false } else s.push c) rest
    else if s.substitution ≠ .none then readValue lookup (s.stepName lookup c) rest
    else readValue lookup (s.stepBare c) rest

def skipBlanks (cs : List Char) : List Char := cs.dropWhile Text.isBlank

def dropBlanksAtEnd (cs : List Char) : List Char := (cs.reverse.dropWhile Text.isBlank).reverse

def readName (cs : List Char) : Option (String × List Char) :=
  let isRest (c : Char) : Bool := c.isAlphanum || c == '_' || c == '.'
  if cs.head?.any fun c => c.isAlpha || c == '_' then
    some (String.ofList (cs.takeWhile isRest), cs.dropWhile isRest)
  else none

def readEquals : List Char → Option (List Char)
  | '=' :: rest => some rest
  | _ => none

/-- Reads the name and the equals sign of a line; the word `export` may come before or be the name
itself. -/
def readTarget (cs : List Char) : Option (String × List Char) := do
  let (name, rest) ← readName cs
  let rest := skipBlanks rest
  match readEquals rest with
  | some rest => return (name, rest)
  | none =>
    if name == "export" then
      let (name, rest) ← readName rest
      return (name, ← readEquals (skipBlanks rest))
    else none

/-- Whether nothing but a comment stands here. -/
def isVoid (cs : List Char) : Bool := cs.isEmpty || cs.head? == some '#'

/-- Reads a logical line: nothing, or a variable and its value. -/
def readLine (lookup : String → String) (line : List Char) :
    Option (Option (String × String)) := do
  let cs := skipBlanks (dropBlanksAtEnd line)
  if isVoid cs then return none
  else
    let (name, rest) ← readTarget cs
    let rest := skipBlanks rest
    if isVoid rest then return some (name, "")
    else return some (name, ← readValue lookup .start rest)

/-- What a name stands for inside of a value: a variable that is set comes before the file. -/
def valueOf (set file : Dict String) (name : String) : String :=
  ((set.get? name).orElse fun _ => file.get? name).getD ""

/-- Sets the variables of logical lines, up to the first malformed one. Variables that are set
already stay as they are. -/
def setLines : Dict String → Dict String → List (Option (List Char)) → Dict String
  | set, _, [] => set
  | set, _, none :: _ => set
  | set, file, some line :: rest =>
    match readLine (valueOf set file) line with
    | none => set
    | some none => setLines set file rest
    | some (some (name, value)) =>
      setLines (if Dict.has set name then set else set.put name value) (file.put name value) rest

/-- The variables after a file was read. -/
def load (set : Dict String) (text : String) : Dict String :=
  let cs := match text.toList with
    | '\ufeff' :: rest => rest
    | cs => cs
  setLines set [] (logicalLines [] .complete (cutLines [] cs))

end AgentGraph.EnvFile
