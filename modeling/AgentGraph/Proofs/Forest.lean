import Mathlib.Data.List.Nodup
import Mathlib.Data.List.Flatten
/-!
# Forests of nested records

Every node stands within at most one other, and further down the rank falls. So a listing of each
node with everything within it, from all the tops, lists nothing twice.
-/
namespace AgentGraph

/-- Nodes and the nodes that stand directly within them. -/
structure Forest where
  node : String → Prop
  sub : String → List String
  rank : String → Nat
  node_sub : ∀ {x y}, node x → y ∈ sub x → node y
  rank_lt : ∀ {x y}, node x → y ∈ sub x → rank y < rank x
  nodup : ∀ {x}, node x → (sub x).Nodup
  parent : ∀ {x x' y}, node x → node x' → y ∈ sub x → y ∈ sub x' → x = x'

namespace Forest
variable {F : Forest} {x y z t : String}

/-- A node stands within another one, at some depth. -/
inductive Within (F : Forest) : String → String → Prop
  | here (x : String) : Within F x x
  | step {x y z : String} : y ∈ F.sub x → Within F y z → Within F x z

theorem Within.trans (h : F.Within x y) (k : F.Within y z) : F.Within x z := by
  induction h with
  | here => exact k
  | step hy _ ih => exact .step hy (ih k)

theorem Within.node (h : F.Within x y) (hx : F.node x) : F.node y := by
  induction h with
  | here => exact hx
  | step hy _ ih => exact ih (F.node_sub hx hy)

theorem Within.rank_le (h : F.Within x y) (hx : F.node x) : F.rank y ≤ F.rank x := by
  induction h with
  | here => exact Nat.le_refl _
  | step hy _ ih =>
    exact Nat.le_trans (ih (F.node_sub hx hy)) (Nat.le_of_lt (F.rank_lt hx hy))

/-- A node within another one is that one, or it stands directly within some node there. -/
theorem Within.last (h : F.Within x z) : x = z ∨ ∃ p, F.Within x p ∧ z ∈ F.sub p := by
  induction h with
  | here => exact .inl rfl
  | @step x y z hy _ ih =>
    rcases ih with rfl | ⟨p, hp, hz⟩
    · exact .inr ⟨x, .here x, hy⟩
    · exact .inr ⟨p, .step hy hp, hz⟩

/-- Of two nodes around one node, one stands within the other. -/
theorem Within.comparable (h : F.Within x z) (k : F.Within y z) (hx : F.node x) (hy : F.node y) :
    F.Within x y ∨ F.Within y x := by
  induction h with
  | here => exact .inr k
  | @step x u z hu h ih =>
    rcases ih k (F.node_sub hx hu) with hu' | hu'
    · exact .inl (.step hu hu')
    · rcases hu'.last with rfl | ⟨p, hp, hup⟩
      · exact .inl (.step hu (.here _))
      · obtain rfl := F.parent (hp.node hy) hx hup hu
        exact .inr hp

/-- A node and what stands within it, down to a depth. -/
def walkTo (F : Forest) : Nat → String → List String
  | 0, x => [x]
  | depth + 1, x => x :: (F.sub x).flatMap (F.walkTo depth)

/-- A node and all that stands within it. -/
def walk (F : Forest) (x : String) : List String := F.walkTo (F.rank x) x

/-- Below its rank there is nothing within a node. -/
theorem walkTo_eq {n : Nat} (hx : F.node x) (hn : F.rank x ≤ n) :
    F.walkTo n x = x :: (F.sub x).flatMap F.walk := by
  induction n using Nat.strongRecOn generalizing x with
  | _ n ih =>
    cases n with
    | zero =>
      have hnone : F.sub x = [] := List.eq_nil_iff_forall_not_mem.mpr fun y hy => by
        have := F.rank_lt hx hy
        omega
      rw [walkTo, hnone, List.flatMap_nil]
    | succ n =>
      have hsub : ∀ y ∈ F.sub x, F.walkTo n y = F.walk y := by
        intro y hy
        have hlt := F.rank_lt hx hy
        have hy' := F.node_sub hx hy
        rw [walk, ih n (Nat.lt_succ_self n) hy' (by omega),
          ih (F.rank y) (by omega) hy' (Nat.le_refl _)]
      rw [walkTo, List.flatMap_congr hsub]

theorem walk_eq (hx : F.node x) : F.walk x = x :: (F.sub x).flatMap F.walk :=
  walkTo_eq hx (Nat.le_refl _)

variable {listing : String → List String}
  (hlisting : ∀ {x}, F.node x → listing x = x :: (F.sub x).flatMap listing)
include hlisting

theorem mem_listing (hx : F.node x) : z ∈ listing x ↔ F.Within x z := by
  induction hn : F.rank x using Nat.strongRecOn generalizing x with
  | _ n ih =>
    subst hn
    rw [hlisting hx, List.mem_cons, List.mem_flatMap]
    constructor
    · rintro (rfl | ⟨y, hy, hz⟩)
      · exact .here _
      · exact .step hy ((ih _ (F.rank_lt hx hy) (F.node_sub hx hy) rfl).mp hz)
    · intro h
      cases h with
      | here => exact .inl rfl
      | step hy hz => exact .inr ⟨_, hy, (ih _ (F.rank_lt hx hy) (F.node_sub hx hy) rfl).mpr hz⟩

/-- Two nodes with nothing above them, or under one parent, list nothing in common. -/
theorem disjoint_listing (hx : F.node x) (hy : F.node y) (hxy : ¬ F.Within x y)
    (hyx : ¬ F.Within y x) : (listing x).Disjoint (listing y) := by
  intro z hzx hzy
  rcases ((mem_listing hlisting hx).mp hzx).comparable ((mem_listing hlisting hy).mp hzy) hx hy
    with h | h
  · exact hxy h
  · exact hyx h

theorem nodup_listing (hx : F.node x) : (listing x).Nodup := by
  induction hn : F.rank x using Nat.strongRecOn generalizing x with
  | _ n ih =>
    subst hn
    -- a sibling above a sibling would have the common parent within itself
    have hsibling : ∀ {a b}, a ∈ F.sub x → b ∈ F.sub x → a ≠ b → ¬ F.Within a b := by
      intro a b ha hb hne hab
      rcases hab.last with rfl | ⟨p, hp, hbp⟩
      · exact hne rfl
      · obtain rfl := F.parent (hp.node (F.node_sub hx ha)) hx hbp hb
        have := hp.rank_le (F.node_sub hx ha)
        have := F.rank_lt hx ha
        omega
    rw [hlisting hx, List.nodup_cons, List.nodup_flatMap]
    refine ⟨fun hmem => ?_, fun y hy => ih _ (F.rank_lt hx hy) (F.node_sub hx hy) rfl, ?_⟩
    · obtain ⟨y, hy, hxy⟩ := List.mem_flatMap.mp hmem
      have := ((mem_listing hlisting (F.node_sub hx hy)).mp hxy).rank_le (F.node_sub hx hy)
      have := F.rank_lt hx hy
      omega
    · refine (F.nodup hx).imp_of_mem fun ha hb hne => ?_
      exact disjoint_listing hlisting (F.node_sub hx ha) (F.node_sub hx hb)
        (hsibling ha hb hne) (hsibling hb ha (Ne.symm hne))

/-- The listings of distinct nodes that stand within no other have nothing twice. -/
theorem nodup_tops (tops : List String) (htops : tops.Nodup) (hnode : ∀ t ∈ tops, F.node t)
    (hfree : ∀ t ∈ tops, ∀ x, F.node x → t ∉ F.sub x) : (tops.flatMap listing).Nodup := by
  have hno : ∀ {a b}, a ∈ tops → b ∈ tops → a ≠ b → ¬ F.Within a b := by
    intro a b ha hb hne hab
    rcases hab.last with rfl | ⟨p, hp, hbp⟩
    · exact hne rfl
    · exact hfree b hb p (hp.node (hnode a ha)) hbp
  rw [List.nodup_flatMap]
  refine ⟨fun t ht => nodup_listing hlisting (hnode t ht), htops.imp_of_mem fun ha hb hne => ?_⟩
  exact disjoint_listing hlisting (hnode _ ha) (hnode _ hb) (hno ha hb hne)
    (hno hb ha (Ne.symm hne))

end Forest
end AgentGraph
