import AgentGraph.Tree.Basic
/-!
# Reserved keys

Three keys change the prototype of an object when a document reaches a script engine. They are
dropped from every mapping on the way in and on the way out.
-/
namespace AgentGraph

/-- The keys that no mapping of a document may hold. -/
def reservedKeys : List String := ["__proto__", "constructor", "prototype"]

/-- Whether a key has to be dropped. -/
def isReservedKey (key : String) : Bool := reservedKeys.contains key

namespace Tree

mutual
/-- Drops the reserved keys of every mapping at any depth and keeps everything else in order. -/
def strip : Tree → Tree
  | .list items => .list (stripList items)
  | .map entries => .map (stripEntries entries)
  | t => t
def stripList : List Tree → List Tree
  | [] => []
  | t :: rest => strip t :: stripList rest
/-- Drops the reserved keys of a mapping and strips the other values. -/
def stripEntries : List (String × Tree) → List (String × Tree)
  | [] => []
  | (key, t) :: rest =>
    if isReservedKey key then stripEntries rest else (key, strip t) :: stripEntries rest
end

mutual
/-- How many entries `strip` drops; what stands below a dropped entry is not counted. -/
def reservedCount : Tree → Nat
  | .list items => reservedCountList items
  | .map entries => reservedCountEntries entries
  | _ => 0
/-- How many entries are dropped from a list of trees. -/
def reservedCountList : List Tree → Nat
  | [] => 0
  | t :: rest => reservedCount t + reservedCountList rest
/-- How many entries are dropped from a mapping and from the values it keeps. -/
def reservedCountEntries : List (String × Tree) → Nat
  | [] => 0
  | (key, t) :: rest =>
    (if isReservedKey key then 1 else reservedCount t) + reservedCountEntries rest
end

end Tree
end AgentGraph
