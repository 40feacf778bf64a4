/-!
# A page being written

The text written so far, together with what decides whether the next thing needs a space or a new
line: the column, whether a gap was just written, and whether the line holds only indentation and
marks so far.
-/
namespace AgentGraph.Yaml

/-- A text under construction. -/
structure Page where
  text : String
  column : Nat
  /-- Whether nothing or a gap stands before the place of writing. -/
  spaced : Bool
  /-- Whether the line holds nothing but indentation and marks. -/
  fresh : Bool

namespace Page

def empty : Page := ⟨"", 0, true, true⟩

def put (p : Page) (c : Char) : Page := { p with text := p.text.push c, column := p.column + 1 }

def puts (p : Page) (cs : List Char) : Page := cs.foldl put p

/-- Ends the line with a given break. -/
def endLine (p : Page) (c : Char) : Page := { p with text := p.text.push c, column := 0 }

/-- Notes that content stands at the end of the page. -/
def solid (p : Page) : Page := { p with spaced := false, fresh := false }

/-- Moves to an indentation, on a new line unless the line is still fresh and short enough. -/
def indentTo (p : Page) (indent : Nat) : Page :=
  let p :=
    if !p.fresh || p.column > indent || (p.column == indent && !p.spaced) then p.endLine '\n' else p
  let p := p.puts (List.replicate (indent - p.column) ' ')
  { p with spaced := true, fresh := true }

/-- Writes a mark. A mark that introduces a node keeps a fresh line fresh. -/
def mark (p : Page) (text : List Char) (needsGap introduces : Bool) : Page :=
  let p := if needsGap && !p.spaced then p.put ' ' else p
  let p := p.puts text
  { p with spaced := false, fresh := p.fresh && introduces }

end Page
end AgentGraph.Yaml
