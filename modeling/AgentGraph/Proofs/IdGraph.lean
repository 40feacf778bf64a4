import Mathlib.Algebra.GroupWithZero.Nat
import AgentGraph.Proofs.Graph
/-!
# The graph of ids

Under a root whose graph is coherent every id stands for one component, up to equality, so the graph
may be drawn with ids for nodes. The number of places in the unfolding of a component is the rank.
-/
namespace AgentGraph
open List (Forall₂)

/-- The graph below a root is as every graph of distinct mappings is: components of one id are equal,
and no key is repeated. -/
structure Writer.Regular (w : Writer) (root : Component) : Prop where
  coherent : Component.Coherent w.children root
  proper : ∀ c, Component.Reaches w.children root c → c.Proper

namespace Writer
variable {w : Writer} {root c d e : Component} {x y a : String} {i : List String}

theorem length_flatMap_unfold {cs ds : List Component}
    (h : Forall₂ (fun a b => (w.unfold a).length = (w.unfold b).length) cs ds) :
    (cs.flatMap w.unfold).length = (ds.flatMap w.unfold).length := by
  induction h with
  | nil => rfl
  | cons hab _ ih => simp only [List.flatMap_cons, List.length_append, hab, ih]

/-- Equal components unfold to as many places. -/
theorem length_unfold_same (h : c.same d = true)
    (hc : ∀ e, Component.Reaches w.children c e → e.Proper) :
    (w.unfold c).length = (w.unfold d).length := by
  induction hn : c.weight using Nat.strongRecOn generalizing c d with
  | _ n ih =>
    subst hn
    obtain ⟨l, hl, hperm⟩ := children_paired (w := w) h (hc c (.refl c))
    rw [unfold_eq, unfold_eq, List.length_cons, List.length_cons,
      ← (hperm.flatMap_right _).length_eq]
    refine congrArg (· + 1) (length_flatMap_unfold ?_)
    refine (List.forall₂_and_left (p := fun a => a ∈ w.children c) _ _ |>.mpr ⟨fun a ha => ha, hl⟩).imp ?_
    rintro a b ⟨ha, hab⟩
    exact ih _ (Component.weight_lt_of_child (mem_children ha)) hab
      (fun e he => hc e (.step ha he)) rfl

theorem length_unfold_lt (h : d ∈ w.children c) :
    (w.unfold d).length < (w.unfold c).length := by
  rw [w.unfold_eq c, List.length_cons]
  refine Nat.lt_succ_of_le (List.Sublist.length_le ?_)
  rw [List.flatMap_def]
  exact List.sublist_flatten_of_mem (List.mem_map_of_mem h)

/-- The component that stands for an id. -/
def representative? (w : Writer) (root : Component) (id : String) : Option Component :=
  (w.distinct root).find? (·.id == id)

theorem representative?_spec (h : w.representative? root x = some c) :
    c ∈ w.distinct root ∧ c.id = x ∧ Component.Reaches w.children root c := by
  have hc := List.mem_of_find?_eq_some h
  exact ⟨hc, by simpa using List.find?_some h, mem_unfold.mp (mem_firstOfEachId hc).1⟩

theorem exists_representative (h : Component.Reaches w.children root c) :
    ∃ r, w.representative? root c.id = some r := by
  obtain ⟨r, hr, hid⟩ := exists_firstOfEachId (mem_unfold.mpr h) (List.not_mem_nil (a := c.id))
  refine Option.ne_none_iff_exists'.mp fun hnone => ?_
  exact (List.find?_eq_none.mp hnone) r hr (by simpa using hid)

/-- The ids at the positions of the component of an id. -/
def kidsOf (w : Writer) (root : Component) (id : String) : List String :=
  match w.representative? root id with
  | some c => (w.children c).map (·.id)
  | none => []

/-- The number of places in the unfolding of the component of an id. -/
def rankOf (w : Writer) (root : Component) (id : String) : Nat :=
  match w.representative? root id with
  | some c => (w.unfold c).length
  | none => 0

theorem le_sum_of_mem {ns : List Nat} {n : Nat} (h : n ∈ ns) : n ≤ ns.sum := by
  obtain ⟨as, bs, rfl⟩ := List.append_of_mem h
  rw [List.sum_append, List.sum_cons]
  omega

namespace Regular
variable (h : w.Regular root)
include h

theorem rankOf_eq (hc : Component.Reaches w.children root c) :
    w.rankOf root c.id = (w.unfold c).length := by
  obtain ⟨r, hr⟩ := exists_representative hc
  obtain ⟨-, hid, hreach⟩ := representative?_spec hr
  simp only [rankOf, hr]
  exact length_unfold_same (h.coherent r c hreach hc hid) fun e he => h.proper e (hreach.trans he)

theorem kidsOf_perm (hc : Component.Reaches w.children root c) :
    (w.kidsOf root c.id).Perm ((w.children c).map (·.id)) := by
  obtain ⟨r, hr⟩ := exists_representative hc
  obtain ⟨-, hid, hreach⟩ := representative?_spec hr
  obtain ⟨l, hl, hperm⟩ := children_paired (w := w) (h.coherent r c hreach hc hid) (h.proper r hreach)
  have hids : (w.children r).map (·.id) = l.map (·.id) :=
    map_eq_of_forall₂ hl fun _ _ => Component.same_id
  simp only [kidsOf, hr, hids]
  exact hperm.map _

theorem mem_kidsOf (hc : Component.Reaches w.children root c) :
    y ∈ w.kidsOf root c.id ↔ ∃ d ∈ w.children c, d.id = y := by
  rw [(h.kidsOf_perm hc).mem_iff, List.mem_map]

/-- The graph of the ids below the root. -/
def dag : Dag where
  kids := w.kidsOf root
  rank := w.rankOf root
  rank_lt {x y} hy := by
    unfold kidsOf at hy
    cases hr : w.representative? root x with
    | none => simp [hr] at hy
    | some c =>
      obtain ⟨-, rfl, hc⟩ := representative?_spec hr
      simp only [hr] at hy
      obtain ⟨d, hd, rfl⟩ := List.mem_map.mp hy
      rw [h.rankOf_eq hc, h.rankOf_eq (hc.kid hd)]
      exact length_unfold_lt hd

@[simp] theorem dag_kids : h.dag.kids = w.kidsOf root := rfl

/-- Ways between components are routes between their ids. -/
theorem route (hc : Component.Reaches w.children root c)
    (p : Component.Route w.children c i e) : h.dag.Route c.id i e.id := by
  induction p with
  | here c => exact .here _
  | step hd _ ih => exact .step ((h.mem_kidsOf hc).mpr ⟨_, hd, rfl⟩) (ih (hc.kid hd))

/-- Routes between ids are ways between components. -/
theorem exists_route (hc : Component.Reaches w.children root c)
    (p : h.dag.Route c.id i y) : ∃ e, Component.Route w.children c i e ∧ e.id = y := by
  generalize hx : c.id = x at p
  induction p generalizing c with
  | here x => subst hx; exact ⟨c, .here c, rfl⟩
  | step hy _ ih =>
    subst hx
    obtain ⟨d, hd, hid⟩ := (h.mem_kidsOf hc).mp hy
    obtain ⟨e, q, he⟩ := ih (hc.kid hd) hid
    exact ⟨e, .step hd q, he⟩

theorem reaches_iff (hc : Component.Reaches w.children root c) :
    h.dag.Reaches c.id y ↔ ∃ e, Component.Reaches w.children c e ∧ e.id = y := by
  constructor
  · rintro ⟨i, p⟩
    obtain ⟨e, q, he⟩ := h.exists_route hc p
    exact ⟨e, ⟨i, q⟩, he⟩
  · rintro ⟨e, ⟨i, q⟩, rfl⟩
    exact ⟨i, h.route hc q⟩

theorem exists_component (hx : h.dag.Reaches root.id x) :
    ∃ c, Component.Reaches w.children root c ∧ c.id = x :=
  (h.reaches_iff (.refl root)).mp hx

theorem reaches_root (hc : Component.Reaches w.children root c) : h.dag.Reaches root.id c.id :=
  (h.reaches_iff (.refl root)).mpr ⟨c, hc, rfl⟩

/-- The positions at which an id stands, counted for each id that holds it. -/
theorem occurrences_eq (x : String) : w.occurrences root x =
    ((w.distinct root).map fun c => (w.kidsOf root c.id).count x).sum := by
  rw [occurrences, List.count_flatMap]
  refine congrArg List.sum (List.map_congr_left fun c hc => ?_)
  exact ((h.kidsOf_perm (mem_unfold.mp (mem_firstOfEachId hc).1)).count_eq x).symm

theorem exists_distinct (hx : h.dag.Reaches root.id x) : ∃ c ∈ w.distinct root, c.id = x := by
  obtain ⟨c, hc, rfl⟩ := h.exists_component hx
  obtain ⟨r, hr⟩ := exists_representative hc
  exact ⟨r, (representative?_spec hr).1, (representative?_spec hr).2.1⟩

theorem occurrences_of_shared (hs : h.dag.Shared root.id x) : 2 ≤ w.occurrences root x := by
  rw [h.occurrences_eq]
  rcases hs with ⟨p, hp, htwo⟩ | ⟨p, q, hne, hp, hq, hxp, hxq⟩
  · obtain ⟨c, hc, rfl⟩ := h.exists_distinct hp
    exact Nat.le_trans htwo (le_sum_of_mem (List.mem_map.mpr ⟨c, hc, rfl⟩))
  · obtain ⟨c, hc, rfl⟩ := h.exists_distinct hp
    obtain ⟨d, hd, rfl⟩ := h.exists_distinct hq
    obtain ⟨as, bs, hL⟩ := List.append_of_mem hc
    have hd' : d ∈ as ++ bs := by
      rw [hL, List.mem_append, List.mem_cons] at hd
      rcases hd with hd | rfl | hd
      · exact List.mem_append_left _ hd
      · exact absurd rfl hne
      · exact List.mem_append_right _ hd
    have hle := le_sum_of_mem
      (List.mem_map_of_mem (f := fun c => (w.kidsOf root c.id).count x) hd')
    have hc1 : 1 ≤ (w.kidsOf root c.id).count x := List.count_pos_iff.mpr hxp
    have hd1 : 1 ≤ (w.kidsOf root d.id).count x := List.count_pos_iff.mpr hxq
    rw [hL]
    simp only [List.map_append, List.map_cons, List.sum_append, List.sum_cons] at hle ⊢
    omega

theorem occurrences_of_onlyUser {p : String} (ho : h.dag.OnlyUser root.id p x) :
    w.occurrences root x = 1 := by
  rw [h.occurrences_eq]
  obtain ⟨hp, hone, honly⟩ := ho
  obtain ⟨c, hc, rfl⟩ := h.exists_distinct hp
  obtain ⟨as, bs, hL⟩ := List.append_of_mem hc
  have hnodup : ((w.distinct root).map (·.id)).Nodup := nodup_firstOfEachId
  have hzero : ((as ++ bs).map fun c => (w.kidsOf root c.id).count x).sum = 0 := by
    refine List.sum_eq_zero_iff_forall_eq_nat.mpr fun n hn => ?_
    obtain ⟨d, hd, rfl⟩ := List.mem_map.mp hn
    have hdL : d ∈ w.distinct root := by
      rw [hL, List.mem_append, List.mem_cons]
      rcases List.mem_append.mp hd with hd | hd
      · exact .inl hd
      · exact .inr (.inr hd)
    refine List.count_eq_zero.mpr fun hx => ?_
    have hid := honly d.id (h.reaches_root (mem_unfold.mp (mem_firstOfEachId hdL).1)) hx
    rw [hL, List.map_append, List.map_cons, List.nodup_middle, List.nodup_cons,
      ← List.map_append] at hnodup
    exact hnodup.1 (List.mem_map.mpr ⟨d, hd, hid⟩)
  rw [hL]
  simp only [List.map_append, List.map_cons, List.sum_append, List.sum_cons, dag_kids] at hzero hone ⊢
  omega

end Regular
end Writer
end AgentGraph
