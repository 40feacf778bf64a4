/-!
# Ordered mappings

A mapping is a list of pairs in order of insertion. Putting a value under a key that is present
replaces the value where it stands; a new key goes to the end. So a mapping made by `put` alone
has no repeated key, and its order is the order in which its keys were first put.
-/
namespace AgentGraph

/-- Pairs of a key and a value, in order. -/
abbrev Dict (α : Type) := List (String × α)

namespace Dict
variable {α β : Type}

/-- The value under a key: the first one, should the key be repeated. -/
def get? : Dict α → String → Option α
  | [], _ => none
  | (k, v) :: rest, key => if k = key then some v else get? rest key

def has (d : Dict α) (key : String) : Bool := d.any (·.1 == key)

def keys (d : Dict α) : List String := d.map (·.1)

def values (d : Dict α) : List α := d.map (·.2)

/-- Puts a value under a key, in place if the key is present and at the end otherwise. -/
def put : Dict α → String → α → Dict α
  | [], key, v => [(key, v)]
  | (k, old) :: rest, key, v =>
    if k = key then (key, v) :: rest else (k, old) :: put rest key v

/-- Takes a key out and keeps the order of the others. -/
def remove (d : Dict α) (key : String) : Dict α := d.filter (·.1 != key)

/-- Puts every pair of the second mapping into the first. -/
def merge (d e : Dict α) : Dict α := e.foldl (fun acc pair => acc.put pair.1 pair.2) d

/-- The mapping that holds the given pairs; of a repeated key the last value stays. -/
def ofPairs (pairs : List (String × α)) : Dict α := merge [] pairs

/-- Changes the values and keeps the keys. -/
def mapValues (f : α → β) (d : Dict α) : Dict β := d.map fun pair => (pair.1, f pair.2)

@[simp] theorem get?_nil (key : String) : get? ([] : Dict α) key = none := rfl

theorem get?_put_self (d : Dict α) (key : String) (v : α) : (d.put key v).get? key = some v := by
  induction d with
  | nil => simp [put, get?]
  | cons p rest ih =>
    by_cases h : p.1 = key
    · simp [put, get?, h]
    · simp [put, get?, h, ih]

theorem get?_put_of_ne (d : Dict α) {key other : String} (v : α) (h : key ≠ other) :
    (d.put key v).get? other = d.get? other := by
  induction d with
  | nil => simp [put, get?, h]
  | cons p rest ih =>
    obtain ⟨k, old⟩ := p
    by_cases hp : k = key
    · subst hp
      simp [put, get?, h]
    · by_cases ho : k = other
      · subst ho
        simp [put, get?, hp]
      · simp [put, get?, hp, ho, ih]

end Dict
end AgentGraph
