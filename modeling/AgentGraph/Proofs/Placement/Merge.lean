import Mathlib.Data.List.Induction
import AgentGraph.Proofs.Dominator
import AgentGraph.Proofs.Dict
/-!
# Merging placement tables

Under each id the tables of the children and the component's own children vote. What they agree on
stays, and where they disagree the component becomes the anchor. If the tables of the children are
right, so is the merged one.
-/
namespace AgentGraph

/-- One more vote for a place: the first one stays until another differs. -/
def Placement.vote (here : String) : Option Placement → Option Placement → Option Placement
  | none, v => v
  | some p, none => some p
  | some p, some q => if p = q then some p else some (.referenced here)

namespace Placement
variable {here : String} {p q : Placement} {v : Option Placement} {vs : List (Option Placement)}

theorem votes_none (h : ∀ u ∈ vs, u = none) : vs.foldl (vote here) v = v := by
  induction vs generalizing v with
  | nil => rfl
  | cons u rest ih =>
    obtain ⟨rfl, hrest⟩ := List.forall_mem_cons.mp h
    rw [List.foldl_cons, ih hrest]
    cases v <;> rfl

theorem votes_agree (h : ∀ q, some q ∈ v :: vs → q = p) (hp : some p ∈ v :: vs) :
    vs.foldl (vote here) v = some p := by
  induction vs generalizing v with
  | nil => exact (List.mem_singleton.mp hp).symm
  | cons u rest ih =>
    rw [List.foldl_cons]
    cases v with
    | none =>
      exact ih (fun q hq => h q (List.mem_cons_of_mem _ hq)) (List.mem_of_ne_of_mem (by simp) hp)
    | some a =>
      obtain rfl : a = p := h a List.mem_cons_self
      have hvote : vote here (some a) u = some a := by
        cases u with
        | none => rfl
        | some b =>
          obtain rfl : b = a := h b (by simp)
          simp [vote]
      rw [hvote]
      refine ih (fun q hq => ?_) List.mem_cons_self
      rcases List.mem_cons.mp hq with hq | hq
      · exact Option.some.inj hq
      · exact h q (by simp [hq])

/-- Once the component is the anchor it stays so. -/
theorem votes_anchor : vs.foldl (vote here) (some (.referenced here)) = some (.referenced here) := by
  induction vs with
  | nil => rfl
  | cons u rest ih =>
    rw [List.foldl_cons]
    have hu : vote here (some (.referenced here)) u = some (.referenced here) := by
      cases u with
      | none => rfl
      | some q => simp [vote]
    rw [hu, ih]

theorem votes_differ (hp : some p ∈ v :: vs) (hq : some q ∈ v :: vs) (hne : p ≠ q) :
    vs.foldl (vote here) v = some (.referenced here) := by
  induction vs generalizing v with
  | nil =>
    simp only [List.mem_singleton] at hp hq
    rw [← hp, Option.some.injEq] at hq
    exact absurd hq.symm hne
  | cons u rest ih =>
    rw [List.foldl_cons]
    cases v with
    | none =>
      exact ih (List.mem_of_ne_of_mem (by simp) hp) (List.mem_of_ne_of_mem (by simp) hq)
    | some a =>
      cases u with
      | none =>
        refine ih ?_ ?_
        · simpa [vote] using hp
        · simpa [vote] using hq
      | some b =>
        by_cases hab : a = b
        · subst hab
          refine ih ?_ ?_
          · simpa [vote] using hp
          · simpa [vote] using hq
        · rw [vote, if_neg hab]
          exact votes_anchor

end Placement

namespace PlacementTable
variable {here x : String} {table child : PlacementTable} {ts : List PlacementTable}

theorem nodup_mergeChild (h : (Dict.keys table).Nodup) (child : PlacementTable) :
    (Dict.keys (mergeChild here table child)).Nodup := by
  unfold mergeChild
  induction child generalizing table with
  | nil => exact h
  | cons entry rest ih =>
    refine ih ?_
    unfold mergeEntry
    split
    · exact Dict.nodup_put h _ _
    · split
      · exact h
      · exact Dict.nodup_put h _ _

theorem get?_mergeEntry (table : PlacementTable) (entry : String × Placement) (x : String) :
    Dict.get? (mergeEntry here table entry) x =
      if entry.1 = x then Placement.vote here (Dict.get? table x) (some entry.2)
      else Dict.get? table x := by
  unfold mergeEntry
  split
  · rename_i hnone
    rw [Dict.get?_put]
    split
    · subst x; rw [hnone]; rfl
    · rfl
  · rename_i p hp
    split
    · rename_i heq
      split
      · subst x; rw [hp]; simp [Placement.vote, heq]
      · rfl
    · rename_i hne
      rw [Dict.get?_put]
      split
      · subst x; rw [hp]; simp [Placement.vote, hne]
      · rfl

/-- The table of a child votes once under each of its ids. -/
theorem get?_mergeChild (table : PlacementTable) (h : (Dict.keys child).Nodup) (x : String) :
    Dict.get? (mergeChild here table child) x =
      Placement.vote here (Dict.get? table x) (Dict.get? child x) := by
  unfold mergeChild
  induction child generalizing table with
  | nil => cases hx : Dict.get? table x <;> simp [hx, Placement.vote]
  | cons entry rest ih =>
    obtain ⟨key, p⟩ := entry
    simp only [Dict.keys_cons, List.nodup_cons] at h
    rw [List.foldl_cons, ih _ h.2, get?_mergeEntry]
    by_cases hk : key = x
    · subst hk
      have hnone : Dict.get? rest key = none := Dict.get?_eq_none_iff.mpr h.1
      rw [if_pos rfl, hnone, Dict.get?, if_pos rfl]
      cases Placement.vote here (Dict.get? table key) (some p) <;> rfl
    · rw [if_neg hk, Dict.get?, if_neg hk]

theorem nodup_foldl_mergeChild (h : (Dict.keys table).Nodup) (ts : List PlacementTable) :
    (Dict.keys (ts.foldl (mergeChild here) table)).Nodup := by
  induction ts generalizing table with
  | nil => exact h
  | cons t rest ih => exact ih (nodup_mergeChild h t)

theorem get?_foldl_mergeChild (table : PlacementTable)
    (h : ∀ t ∈ ts, (Dict.keys t).Nodup) (x : String) :
    Dict.get? (ts.foldl (mergeChild here) table) x =
      (ts.map (Dict.get? · x)).foldl (Placement.vote here) (Dict.get? table x) := by
  induction ts generalizing table with
  | nil => rfl
  | cons t rest ih =>
    obtain ⟨ht, h⟩ := List.forall_mem_cons.mp h
    rw [List.foldl_cons, ih _ h, get?_mergeChild _ ht, List.map_cons, List.foldl_cons]

/-- The own vote of a component for what it holds itself. -/
def own (here : String) : Nat → Option Placement
  | 0 => none
  | 1 => some (.inline here)
  | _ + 2 => some (.referenced here)

theorem ofChildren_spec (here : String) (children : List Component) :
    (Dict.keys (ofChildren here children)).Nodup ∧ ∀ x,
      Dict.get? (ofChildren here children) x = own here ((children.map (·.id)).count x) := by
  -- the table is built from the front, so the induction is on the children already placed
  induction children using List.reverseRecOn with
  | nil => exact ⟨List.nodup_nil, fun x => rfl⟩
  | append_singleton children c ih =>
    obtain ⟨hnodup, hget⟩ := ih
    have hstep : ofChildren here (children ++ [c]) =
        Dict.put (ofChildren here children) c.id
          (if Dict.has (ofChildren here children) c.id then .referenced here
            else .inline here) := by
      rw [ofChildren, List.foldl_append]
      rfl
    rw [hstep]
    refine ⟨Dict.nodup_put hnodup _ _, fun x => ?_⟩
    rw [Dict.get?_put]
    by_cases hx : c.id = x
    · subst hx
      have hcount : ((children ++ [c]).map (·.id)).count c.id =
          (children.map (·.id)).count c.id + 1 := by simp [List.count_append]
      have hown := hget c.id
      rw [if_pos rfl, hcount]
      generalize (children.map (·.id)).count c.id = n at hown
      by_cases hmem : c.id ∈ Dict.keys (ofChildren here children)
      · rw [if_pos (Dict.has_iff.mpr hmem)]
        cases n with
        | zero => exact absurd hown (Dict.get?_ne_none_iff.mpr hmem)
        | succ n => rfl
      · rw [if_neg (fun hhas => hmem (Dict.has_iff.mp hhas))]
        rw [Dict.get?_eq_none_iff.mpr hmem] at hown
        obtain _ | _ | n := n
        · rfl
        · exact absurd hown (by simp [own])
        · exact absurd hown (by simp [own])
    · rw [if_neg hx, hget]
      simp [List.count_append, hx]

section
variable {G : Dag} {y : String} {vs : List (Option Placement)}

/-- If the held nodes that have a node below them vote for its place there, the outcome is its
place. -/
theorem votes_placed
    (hvote : ∀ p, some p ∈ vs → ∃ a ∈ G.kids x, G.Below a y ∧ G.Placed a y p)
    (hvoter : ∀ a ∈ G.kids x, G.Below a y → ∃ p, some p ∈ vs ∧ G.Placed a y p)
    (hy : G.Below x y) :
    ∃ p, vs.foldl (Placement.vote x) (own x ((G.kids x).count y)) = some p ∧ G.Placed x y p := by
  rcases hn : (G.kids x).count y with _ | _ | n
  · have hno : y ∉ G.kids x := List.count_eq_zero.mp hn
    obtain ⟨a, ha, hay⟩ := id hy
    have hab : G.Below a y := hay.below_of_ne (by rintro rfl; exact hno ha)
    obtain ⟨p, hp, hpa⟩ := hvoter a ha hab
    by_cases hagree : ∀ q, some q ∈ vs → q = p
    · refine ⟨p, Placement.votes_agree (fun q hq => hagree q ?_) ?_, ?_⟩
      · exact List.mem_of_ne_of_mem (by simp [own]) hq
      · exact List.mem_cons_of_mem _ hp
      · refine .of_agree hno hy fun b hb hby => ?_
        obtain ⟨q, hq, hqb⟩ := hvoter b hb hby
        exact hagree q hq ▸ hqb
    · simp only [not_forall] at hagree
      obtain ⟨q, hq, hne⟩ := hagree
      obtain ⟨b, hb, hby, hqb⟩ := hvote q hq
      exact ⟨_, Placement.votes_differ (List.mem_cons_of_mem _ hp) (List.mem_cons_of_mem _ hq)
        (Ne.symm hne), .of_differ ha hb hab hby hpa hqb (Ne.symm hne)⟩
  · have hyk : y ∈ G.kids x := List.count_pos_iff.mp (by omega)
    by_cases hfurther : ∃ a ∈ G.kids x, G.Below a y
    · obtain ⟨a, ha, hay⟩ := hfurther
      obtain ⟨p, hp, hpa⟩ := hvoter a ha hay
      refine ⟨_, Placement.votes_differ List.mem_cons_self (List.mem_cons_of_mem _ hp) ?_,
        .of_once_above hyk ha hay⟩
      -- below what it holds there is no way back to the component
      rintro rfl
      cases hpa with
      | inline ho =>
        have := ho.1.rank_le
        have := G.rank_lt ha
        omega
    · simp only [not_exists, not_and] at hfurther
      refine ⟨.inline x, Placement.votes_agree (fun q hq => ?_) List.mem_cons_self,
        .of_once hn hfurther⟩
      rcases List.mem_cons.mp hq with hq | hq
      · exact Option.some.inj hq
      · obtain ⟨a, ha, hay, -⟩ := hvote q hq
        exact absurd hay (hfurther a ha)
  · exact ⟨_, Placement.votes_anchor, .of_twice (by omega)⟩

theorem votes_absent
    (hvote : ∀ p, some p ∈ vs → ∃ a ∈ G.kids x, G.Below a y ∧ G.Placed a y p)
    (hy : ¬ G.Below x y) :
    vs.foldl (Placement.vote x) (own x ((G.kids x).count y)) = none := by
  have hcount : (G.kids x).count y = 0 :=
    List.count_eq_zero.mpr fun hyk => hy ⟨y, hyk, .refl y⟩
  rw [hcount, Placement.votes_none fun u hu => ?_]
  · rfl
  · cases u with
    | none => rfl
    | some q =>
      obtain ⟨a, ha, hay, -⟩ := hvote q hu
      exact absurd (Dag.Below.of_kid ha hay) hy

end

/-- A table is right for a node: it has each node below it once, at its place. -/
structure Fits (G : Dag) (x : String) (table : PlacementTable) : Prop where
  nodup : (Dict.keys table).Nodup
  mem : ∀ y, y ∈ Dict.keys table ↔ G.Below x y
  placed : ∀ y p, Dict.get? table y = some p → G.Placed x y p

/-- Merging the right tables of all held nodes gives the right table. -/
theorem fits_merge {G : Dag} {children : List Component}
    (hkids : ((children.map (·.id)).Perm (G.kids x)))
    (htables : ∀ t ∈ ts, ∃ a ∈ G.kids x, Fits G a t)
    (hkid : ∀ a ∈ G.kids x, ∃ t ∈ ts, Fits G a t) :
    Fits G x (ts.foldl (mergeChild x) (ofChildren x children)) := by
  obtain ⟨hnodup, hown⟩ := ofChildren_spec x children
  have hvote : ∀ y p, some p ∈ ts.map (Dict.get? · y) →
      ∃ a ∈ G.kids x, G.Below a y ∧ G.Placed a y p := by
    intro y p hp
    obtain ⟨t, ht, hget⟩ := List.mem_map.mp hp
    obtain ⟨a, ha, hf⟩ := htables t ht
    exact ⟨a, ha, (hf.mem y).mp (Dict.mem_keys_iff.mpr ⟨p, hget⟩), hf.placed y p hget⟩
  have hvoter : ∀ y, ∀ a ∈ G.kids x, G.Below a y →
      ∃ p, some p ∈ ts.map (Dict.get? · y) ∧ G.Placed a y p := by
    intro y a ha hay
    obtain ⟨t, ht, hf⟩ := hkid a ha
    obtain ⟨p, hp⟩ := Dict.mem_keys_iff.mp ((hf.mem y).mpr hay)
    exact ⟨p, List.mem_map.mpr ⟨t, ht, hp⟩, hf.placed y p hp⟩
  have hget : ∀ y, Dict.get? (ts.foldl (mergeChild x) (ofChildren x children)) y =
      (ts.map (Dict.get? · y)).foldl (Placement.vote x) (own x ((G.kids x).count y)) := by
    intro y
    rw [get?_foldl_mergeChild _ fun t ht => (htables t ht).choose_spec.2.nodup, hown,
      hkids.count_eq]
  have hmem : ∀ y, y ∈ Dict.keys (ts.foldl (mergeChild x) (ofChildren x children)) ↔
      G.Below x y := by
    intro y
    rw [← Dict.get?_ne_none_iff, hget]
    constructor
    · intro hne
      by_contra hno
      exact hne (votes_absent (hvote y) hno)
    · intro hy
      obtain ⟨p, hp, -⟩ := votes_placed (hvote y) (hvoter y) hy
      simp [hp]
  refine ⟨nodup_foldl_mergeChild hnodup ts, hmem, fun y p hp => ?_⟩
  have hy := (hmem y).mp (Dict.mem_keys_iff.mpr ⟨p, hp⟩)
  obtain ⟨q, hq, hplaced⟩ := votes_placed (hvote y) (hvoter y) hy
  rw [hget, hq] at hp
  exact Option.some.inj hp ▸ hplaced

end PlacementTable
end AgentGraph
