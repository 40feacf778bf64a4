import AgentGraph.Disk
/-!
# A folder in memory

Files and directories below one folder, which is where relative paths start. Nothing outside of the
folder is there. A failing operation may leave traces: directories made on the way stay.
-/
namespace AgentGraph

/-- A place below the folder; the folder itself is the empty one. -/
abbrev Place := List String

/-- The contents of a folder. -/
structure Folder where
  files : List (Place × String)
  directories : List Place

namespace Folder

def empty : Folder := ⟨[], []⟩

def file? (f : Folder) (place : Place) : Option String := f.files.lookup place

def isDirectory (f : Folder) (place : Place) : Bool :=
  place.isEmpty || f.directories.contains place

def has (f : Folder) (place : Place) : Bool := f.isDirectory place || (f.file? place).isSome

def put (f : Folder) (place : Place) (text : String) : Folder :=
  if (f.file? place).isSome then
    { f with files := f.files.map fun entry =>
        if entry.1 == place then (place, text) else entry }
  else { f with files := f.files ++ [(place, text)] }

def erase (f : Folder) (place : Place) : Folder :=
  { f with files := f.files.filter (·.1 != place) }

def addDirectory (f : Folder) (place : Place) : Folder :=
  { f with directories := f.directories ++ [place] }

/-- The longest name, in bytes. -/
def maxName : Nat := 255

/-- Refuses a name that no file can have. -/
def checkName (name : String) : Except Fault Unit :=
  if name.toList.contains '\x00' then .error .zeroInName
  else if name.utf8ByteSize > maxName then .error .nameTooLong
  else .ok ()

/-- Refuses a place that is no directory. -/
def checkDirectory (f : Folder) (place : Place) : Except Fault Unit :=
  if f.isDirectory place then .ok ()
  else if (f.file? place).isSome then .error .notADirectory
  else .error .notFound

/-- Follows the parts of a path from a place; every place on the way must be a directory. -/
def follow (f : Folder) : Place → List String → Except Fault Place
  | here, [] => .ok here
  | here, part :: rest => do
    f.checkDirectory here
    checkName part
    if part == "." then f.follow here rest
    else if part == ".." then
      if here.isEmpty then throw .notFound else f.follow here.dropLast rest
    else f.follow (here ++ [part]) rest

/-- The place of a path. -/
def locate (f : Folder) (p : Path) : Except Fault Place :=
  if p.absolute || (p.parts.isEmpty && !p.asDirectory) then .error .notFound
  else f.follow [] p.parts

def read (f : Folder) (p : Path) : Except Fault String := do
  let place ← f.locate p
  if f.isDirectory place then throw .isADirectory
  match f.file? place with
  | none => throw .notFound
  | some text => if p.asDirectory then throw .notADirectory else return text

def write (f : Folder) (p : Path) (text : String) : Except Fault Folder := do
  let place ← f.locate p
  if f.isDirectory place then throw .isADirectory
  if p.asDirectory then throw (if f.has place then .notADirectory else .isADirectory)
  return f.put place text

def rename (f : Folder) (source target : Path) : Except Fault Folder := do
  let source ← f.locate source
  let target ← f.locate target
  match f.file? source with
  | none => throw .notFound
  | some text =>
    if f.isDirectory target then throw .isADirectory
    return (f.erase source).put target text

def remove (f : Folder) (p : Path) : Except Fault Folder := do
  let place ← f.locate p
  if f.isDirectory place then throw .isADirectory
  if (f.file? place).isNone then throw .notFound
  return f.erase place

/-- Makes the directories on the way from a place. -/
def makeFrom (f : Folder) : Place → List String → Except Fault Unit × Folder
  | _, [] => (.ok (), f)
  | here, part :: rest =>
    if part == "." then f.makeFrom here rest
    else if part == ".." then
      if here.isEmpty then (.error .notFound, f) else f.makeFrom here.dropLast rest
    else
      match checkName part with
      | .error e => (.error e, f)
      | .ok _ =>
        let place := here ++ [part]
        if f.isDirectory place then f.makeFrom place rest
        else if (f.file? place).isSome then
          (.error (if rest.isEmpty then .alreadyExists else .notADirectory), f)
        else (f.addDirectory place).makeFrom place rest

/-- Makes a directory and those above it. -/
def makeDirectories (f : Folder) (p : Path) : Except Fault Unit × Folder :=
  if p.absolute then (.error .notFound, f) else f.makeFrom [] p.parts

/-- Whether there is anything at a path. -/
def present (f : Folder) (p : Path) : Bool :=
  match f.locate p with
  | .ok place => f.isDirectory place || ((f.file? place).isSome && !p.asDirectory)
  | .error _ => false

/-- The names directly below a place. -/
def namesAt (f : Folder) (place : Place) : List String :=
  ((f.files.map (·.1)) ++ f.directories).filterMap fun other =>
    if other.dropLast == place then other.getLast? else none

/-- The names in a directory. -/
def names (f : Folder) (p : Path) : Except Fault (List String) := do
  let place ← f.locate p
  f.checkDirectory place
  return f.namesAt place

/-- Keeps the folder if an operation fails. -/
def attempt (operation : Folder → Except Fault Folder) : StateM Folder (Except Fault Unit) := do
  match operation (← get) with
  | .ok f =>
    set f
    return .ok ()
  | .error e => return .error e

end Folder

instance : Disk (StateM Folder) where
  read p := return (← get).read p
  write p text := Folder.attempt (·.write p text)
  rename source target := Folder.attempt (·.rename source target)
  remove p := Folder.attempt (·.remove p)
  makeDirectories p := modifyGet (·.makeDirectories p)
  present p := return (← get).present p
  names p := return (← get).names p

end AgentGraph
