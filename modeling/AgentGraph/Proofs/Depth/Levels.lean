import AgentGraph.Proofs.Depth.Tree
import AgentGraph.Proofs.FullGraph
import AgentGraph.Proofs.Sidecar.Plan
/-!
# Levels of a graph and of the documents written from it

A value stands so many levels below the root of its graph, and takes some levels by itself when it is
written. What is written for a component that was reached at some level may take the levels from there to
the limit, and some more: one for every record that is carried for others in place of being written where
it is used.
-/
namespace AgentGraph

namespace Value

/-- The levels that a value takes at least, whatever stands in it. Opaque data is measured in full before
it is written. -/
def levels : Value → Nat
  | .data _ => 0
  | .property p => p.toTree.depth
  | .component _ => 1
  | .list _ => 1
  | .map _ => 1

mutual
/-- No component stands under a reserved key, where it is left out while others may still refer to it. -/
def ComponentsKept : Value → Prop
  | .list items => componentsKeptItems items
  | .map entries => componentsKeptEntries entries
  | _ => True
/-- No component stands under a reserved key in the values of a list. -/
def componentsKeptItems : List Value → Prop
  | [] => True
  | v :: rest => v.ComponentsKept ∧ componentsKeptItems rest
/-- No component stands under a reserved key of a mapping, or of one in its values. -/
def componentsKeptEntries : List (String × Value) → Prop
  | [] => True
  | (key, v) :: rest =>
    (isReservedKey key = true → v.components = []) ∧ v.ComponentsKept ∧ componentsKeptEntries rest
end

mutual
theorem KeysKept.componentsKept {v : Value} (h : v.KeysKept) : v.ComponentsKept := by
  match v with
  | .list items => exact componentsKeptItems_of_keysKept h
  | .map entries => exact componentsKeptEntries_of_keysKept h
  | .data _ | .property _ | .component _ => trivial
theorem componentsKeptItems_of_keysKept {items : List Value} (h : keysKeptItems items) :
    componentsKeptItems items := by
  match items with
  | [] => trivial
  | v :: rest => exact ⟨h.1.componentsKept, componentsKeptItems_of_keysKept h.2⟩
theorem componentsKeptEntries_of_keysKept {entries : List (String × Value)}
    (h : keysKeptEntries entries) : componentsKeptEntries entries := by
  match entries with
  | [] => trivial
  | (key, v) :: rest =>
    have hfree : isReservedKey key = true → v.components = [] := fun hkey => by simp [h.1] at hkey
    exact ⟨hfree, h.2.1.componentsKept, componentsKeptEntries_of_keysKept h.2.2⟩
end

end Value

namespace Writer

/-- The values that stand so many levels below the root. The fields of a component are those that were
found under its id. -/
inductive StandsAt (w : Writer) (root : Component) : Nat → Value → Prop
  | root : StandsAt w root 0 (.component root)
  | field {k : Nat} {c d : Component} {f : String × Value} : StandsAt w root k (.component c) →
      Component.Reaches w.children root d → d.id = c.id → f ∈ w.shown d →
      StandsAt w root (k + 1) f.2
  | item {k : Nat} {items : List Value} {v : Value} : StandsAt w root k (.list items) → v ∈ items →
      StandsAt w root (k + 1) v
  | entry {k : Nat} {entries : Dict Value} {f : String × Value} :
      StandsAt w root k (.map entries) → f ∈ entries → isReservedKey f.1 = false →
      StandsAt w root (k + 1) f.2

/-- The values so many levels below the root, in a graph of which these are the components. -/
def level (w : Writer) (found : List Component) (root : Component) : Nat → List Value
  | 0 => [.component root]
  | k + 1 => (w.level found root k).flatMap fun
    | .component c => (found.filter (·.id == c.id)).flatMap fun d => (w.shown d).map (·.2)
    | .list items => items
    | .map entries => entries.map (·.2)
    | _ => []

theorem StandsAt.mem_level {w : Writer} {root : Component} {found : List Component} {k : Nat}
    {v : Value} (hfound : ∀ c, Component.Reaches w.children root c → c ∈ found)
    (h : w.StandsAt root k v) : v ∈ w.level found root k := by
  induction h with
  | root => exact List.mem_singleton.mpr rfl
  | @field k c d f _ hd hid hf ih =>
    have hsame : d ∈ found.filter (·.id == c.id) := List.mem_filter.mpr ⟨hfound d hd, by simpa using hid⟩
    exact List.mem_flatMap.mpr ⟨_, ih, List.mem_flatMap.mpr ⟨d, hsame, List.mem_map_of_mem hf⟩⟩
  | item _ hv ih => exact List.mem_flatMap.mpr ⟨_, ih, hv⟩
  | entry _ hf _ ih => exact List.mem_flatMap.mpr ⟨_, ih, List.mem_map_of_mem hf⟩

/-- The levels that what is written from a level on may take. -/
def allowance (w : Writer) (extra slack k : Nat) : Nat := (1 + extra) * (w.maxDepth - k) + slack

/-- A graph whose values overrun the limit by at most some slack. If there are no extra levels, then no
component to which users refer is a field by itself. -/
structure Fits (w : Writer) (root : Component) (l : Layout) (extra slack : Nat) : Prop where
  levels : ∀ k v, w.StandsAt root k v → k ≤ w.maxDepth → k + v.levels ≤ w.maxDepth + slack
  kept : ∀ c, Component.Reaches w.children root c → ∀ f ∈ w.shown c, f.2.ComponentsKept
  apart : 1 ≤ extra ∨ ∀ c, Component.Reaches w.children root c → ∀ f ∈ w.shown c, ∀ e,
    f.2 = .component e → l.reference? e.id = none

variable {w : Writer} {root : Component} {l : Layout} {extra slack j k m : Nat}

theorem allowance_add (hkj : k ≤ j) (hj : j ≤ w.maxDepth) :
    w.allowance extra slack j + (1 + extra) * (j - k) = w.allowance extra slack k := by
  have hsplit : w.maxDepth - k = (w.maxDepth - j) + (j - k) := by omega
  rw [allowance, allowance, hsplit, Nat.mul_add]
  omega

/-- A level of the graph leaves a level of the document. -/
theorem allowance_succ (hk : k + 1 ≤ w.maxDepth) :
    w.allowance extra slack (k + 1) + 1 ≤ w.allowance extra slack k := by
  rw [← allowance_add (Nat.le_add_right k 1) hk, Nat.add_sub_cancel_left, Nat.mul_one]
  omega

/-- Two levels of the graph leave two of the document. With extra levels one is enough. -/
theorem allowance_carried (hj : j ≤ w.maxDepth) (hkj : k + 2 ≤ j ∨ 1 ≤ extra ∧ k + 1 ≤ j) :
    w.allowance extra slack j + 2 ≤ w.allowance extra slack k := by
  have htwo : 2 ≤ (1 + extra) * (j - k) := by
    rcases hkj with hkj | ⟨hextra, hkj⟩
    · exact Nat.le_trans (by omega) (Nat.le_mul_of_pos_left (j - k) (by omega))
    · exact Nat.mul_le_mul (by omega : 2 ≤ 1 + extra) (by omega : 1 ≤ j - k)
  rw [← allowance_add (by omega : k ≤ j) hj]
  omega

/-- What fits into the limit with the slack is within what may be written. -/
theorem le_allowance (hk : k ≤ w.maxDepth) (h : k + m ≤ w.maxDepth + slack) :
    m ≤ w.allowance extra slack k := by
  have hlevels : w.maxDepth - k ≤ (1 + extra) * (w.maxDepth - k) :=
    Nat.le_mul_of_pos_left _ (by omega)
  rw [allowance]
  omega

end Writer
end AgentGraph
