/-!
# Releases of the document format

The released versions in order of release. A few strings that were written before a release are
read as the release they led to.
-/
namespace AgentGraph

/-- A released version of the document format. -/
inductive Release where
  | v25_4_1
  | v25_4_2
  | v26_1_0
  deriving DecidableEq

namespace Release

/-- All releases, oldest first. -/
def all : List Release := [v25_4_1, v25_4_2, v26_1_0]

def current : Release := v26_1_0

/-- The position of a release in the order of release. -/
def rank : Release → Nat
  | v25_4_1 => 0
  | v25_4_2 => 1
  | v26_1_0 => 2

/-- Whether the second release is the first one or a later one. -/
def atMost (a b : Release) : Bool := a.rank ≤ b.rank

def name : Release → String
  | v25_4_1 => "25.4.1"
  | v25_4_2 => "25.4.2"
  | v26_1_0 => "26.1.0"

/-- Strings in use before a release, and the release they are read as. -/
def preReleases : List (String × Release) :=
  [("25.4.0", v25_4_1), ("25.4.2.dev0", v25_4_2), ("26.1.0.dev0", v26_1_0)]

/-- The release that a version string of a document stands for. -/
def ofName? (text : String) : Option Release :=
  match all.find? (·.name == text) with
  | some release => some release
  | none => preReleases.lookup text

def parse (text : String) : Except String Release :=
  match ofName? text with
  | some release => .ok release
  | none => .error ("unknown agentspec version: " ++ text)

end Release
end AgentGraph
