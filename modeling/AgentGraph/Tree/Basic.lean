import AgentGraph.Dict
import AgentGraph.Decimal.Double
/-!
# Document trees

The plain trees that documents are made of: null, booleans, numbers, strings, lists and ordered
mappings. A number is an integer or a finite double; the two are never equal. `Tree.same`
compares two trees without regard to the order of keys in mappings.
-/
namespace AgentGraph

/-- A number of a document: an integer, or a finite double given by its bits. -/
inductive Number where
  | int (value : Int)
  | float (bits : UInt64)
  deriving DecidableEq

/-- Equality of numbers by value; an integer never equals a double. -/
def Number.same : Number → Number → Bool
  | .int a, .int b => a == b
  | .float a, .float b => Double.same a b
  | _, _ => false

/-- A plain document tree. -/
inductive Tree where
  | null
  | bool (value : Bool)
  | number (value : Number)
  | string (value : String)
  | list (items : List Tree)
  | map (entries : List (String × Tree))

instance : Inhabited Tree := ⟨.null⟩

namespace Tree

/-- The kind of a tree as messages name it. -/
def kindName : Tree → String
  | .null => "null"
  | .bool _ => "a boolean"
  | .number _ => "a number"
  | .string _ => "a string"
  | .list _ => "a list"
  | .map _ => "a mapping"

def isNull : Tree → Bool
  | .null => true
  | _ => false

def string? : Tree → Option String
  | .string s => some s
  | _ => none

def entries? : Tree → Option (Dict Tree)
  | .map entries => some entries
  | _ => none

/-- The value under a key of a mapping. -/
def field? : Tree → String → Option Tree
  | .map entries, key => Dict.get? entries key
  | _, _ => none

/-- The trees directly below a tree, in order. -/
def children : Tree → List Tree
  | .list items => items
  | .map entries => Dict.values entries
  | _ => []

mutual
/-- The number of nodes of a tree. -/
def size : Tree → Nat
  | .list items => sizeList items + 1
  | .map entries => sizeEntries entries + 1
  | _ => 1
/-- The number of nodes of a list of trees. -/
def sizeList : List Tree → Nat
  | [] => 0
  | t :: rest => size t + sizeList rest
/-- The number of nodes of the values of a mapping. -/
def sizeEntries : List (String × Tree) → Nat
  | [] => 0
  | (_, t) :: rest => size t + sizeEntries rest
end

theorem sizeList_append (xs ys : List Tree) :
    sizeList (xs ++ ys) = sizeList xs + sizeList ys := by
  induction xs with
  | nil => simp [sizeList]
  | cons t rest ih => simp [sizeList, ih, Nat.add_assoc]

theorem sizeList_values (entries : Dict Tree) :
    sizeList (Dict.values entries) = sizeEntries entries := by
  induction entries with
  | nil => rfl
  | cons p rest ih =>
    obtain ⟨k, t⟩ := p
    simp only [Dict.values, List.map_cons, sizeList, sizeEntries] at *
    omega

theorem sizeList_children_lt (t : Tree) : sizeList t.children < t.size := by
  cases t with
  | list items => simp [children, size]
  | map entries => simp [children, size, sizeList_values]
  | _ => simp [children, size, sizeList]

mutual
/-- Equality of trees, mappings compared without regard to the order of their keys. -/
def same : Tree → Tree → Bool
  | .null, .null => true
  | .bool a, .bool b => a == b
  | .number a, .number b => a.same b
  | .string a, .string b => a == b
  | .list xs, .list ys => sameList xs ys
  | .map xs, .map ys => xs.length == ys.length && sameEntries xs ys
  | _, _ => false
/-- Equality of lists of trees, item by item. -/
def sameList : List Tree → List Tree → Bool
  | [], [] => true
  | x :: xs, y :: ys => same x y && sameList xs ys
  | _, _ => false
/-- Whether each entry of the first mapping is in the second. -/
def sameEntries : List (String × Tree) → Dict Tree → Bool
  | [], _ => true
  | (key, x) :: rest, other =>
    (match other.get? key with
      | some y => same x y
      | none => false) && sameEntries rest other
end

def sameDict (xs ys : Dict Tree) : Bool := xs.length == ys.length && sameEntries xs ys

end Tree
end AgentGraph
