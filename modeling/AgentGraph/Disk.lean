/-!
# What the program needs of a file system

Paths are the parts of their text. A disk reads, writes, renames and removes files and makes
directories; every operation may fail for the causes that an operating system gives.
-/
namespace AgentGraph

/-- A path as its parts; empty parts are left out. -/
structure Path where
  absolute : Bool
  parts : List String
  /-- Whether the text of the path ends like that of a directory. -/
  asDirectory : Bool

namespace Path

/-- The path that a text stands for. -/
def ofText (text : String) : Path :=
  { absolute := text.startsWith "/", parts := (text.splitOn "/").filter (· != ""),
    asDirectory := text.endsWith "/" || text.endsWith "/." || text == "." }

/-- The path of a file in a directory. -/
def child (directory : Path) (name : String) : Path :=
  { directory with parts := directory.parts ++ [name], asDirectory := false }

def text (p : Path) : String := (if p.absolute then "/" else "") ++ "/".intercalate p.parts

end Path

/-- Causes for which an operation on files fails. -/
inductive Fault where
  | notFound
  | alreadyExists
  | notADirectory
  | isADirectory
  | nameTooLong
  /-- A name holds the zero character. -/
  | zeroInName
  | other (text : String)
  deriving DecidableEq

def Fault.message : Fault → String
  | notFound => "No such file or directory (os error 2)"
  | alreadyExists => "File exists (os error 17)"
  | notADirectory => "Not a directory (os error 20)"
  | isADirectory => "Is a directory (os error 21)"
  | nameTooLong => "File name too long (os error 36)"
  | zeroInName => "file name contained an unexpected NUL byte"
  | other text => text

/-- The operations on files, inside of a monad. -/
class Disk (m : Type → Type) where
  /-- The text of a file. -/
  read : Path → m (Except Fault String)
  /-- Makes a file hold a text, whatever it held before. -/
  write : Path → String → m (Except Fault Unit)
  /-- Gives a file another name; a file of that name is replaced. -/
  rename : Path → Path → m (Except Fault Unit)
  remove : Path → m (Except Fault Unit)
  /-- Makes a directory and all directories above it that are missing. -/
  makeDirectories : Path → m (Except Fault Unit)
  /-- Whether there is a file or directory. -/
  present : Path → m Bool
  /-- The names of files and directories in a directory. -/
  names : Path → m (Except Fault (List String))

end AgentGraph
