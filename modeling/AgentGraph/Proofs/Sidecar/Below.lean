import AgentGraph.Proofs.Placement.Survey
import AgentGraph.Save.Sidecar
/-!
# The ids below an id

The worklist of `Survey.below` meets every id once. What it returns lies below the start, and it is
closed under the children of everything in it; so it is all that lies below. The number of
components found is enough fuel, since each round either takes an id off the list or is the first
to meet one.
-/
namespace AgentGraph

theorem nodup_eraseDups : (xs : List String) → xs.eraseDups.Nodup
  | [] => by simp
  | x :: rest => by
    rw [List.eraseDups_cons, List.nodup_cons]
    refine ⟨fun hx => ?_, nodup_eraseDups _⟩
    simp [List.mem_eraseDups] at hx
termination_by xs => xs.length
decreasing_by exact Nat.lt_succ_of_le (List.length_filter_le _ _)

namespace Survey

/-- The ids at the positions of the component of an id. -/
def kidsAt (s : Survey) (id : String) : List String :=
  (heldComponents ((s.fields? id).getD [])).map (·.id)

/-- The children of an id that were not met before. -/
def fresh (s : Survey) (id : String) (seen : List String) : List String :=
  (s.kidsAt id).eraseDups.filter (!seen.contains ·)

theorem mem_fresh {s : Survey} {id y : String} {seen : List String} :
    y ∈ s.fresh id seen ↔ y ∈ s.kidsAt id ∧ y ∉ seen := by
  simp [fresh, List.mem_eraseDups]

theorem nodup_fresh_append {s : Survey} {id : String} {seen : List String} (h : seen.Nodup) :
    (s.fresh id seen ++ seen).Nodup := by
  refine List.nodup_append.mpr ⟨(nodup_eraseDups _).filter _, h, ?_⟩
  rintro a ha b hb rfl
  exact (mem_fresh.mp ha).2 hb

theorem reach_step (s : Survey) (fuel : Nat) (id : String) (rest seen : List String) :
    s.reach (fuel + 1) (id :: rest) seen =
      s.reach fuel (s.fresh id seen ++ rest) (s.fresh id seen ++ seen) := rfl

end Survey

namespace Writer
variable {w : Writer} {root : Component} {h : w.Regular root} {s₀ s : Survey}
  {table : PlacementTable} {x y start : String}

theorem Surveyed.exists_found (hs : w.Surveyed h root.id s₀ table s)
    (hx : h.dag.Reaches root.id x) :
    ∃ d, s.found.get? x = some (d, w.shown d) ∧ d.id = x ∧
      Component.Reaches w.children root d := by
  obtain ⟨⟨d, fields⟩, hd⟩ := Dict.mem_keys_iff.mp (hs.covers x hx)
  obtain ⟨hid, hreach, rfl⟩ := hs.known.found x d fields hd
  exact ⟨d, hd, hid, hreach⟩

theorem component?_found {s : Survey} {d : Component}
    (hd : s.found.get? x = some (d, w.shown d)) : s.component? x = some d := by
  simp [Survey.component?, hd]

theorem kidsAt_found {s : Survey} {d : Component} (hd : s.found.get? x = some (d, w.shown d)) :
    s.kidsAt x = (w.children d).map (·.id) := by
  rw [Survey.kidsAt, Survey.fields?, hd]
  rfl

theorem Surveyed.kidsAt_perm (hs : w.Surveyed h root.id s₀ table s)
    (hx : h.dag.Reaches root.id x) : (s.kidsAt x).Perm (h.dag.kids x) := by
  obtain ⟨d, hd, rfl, hreach⟩ := hs.exists_found hx
  rw [kidsAt_found hd]
  exact (h.kidsOf_perm hreach).symm

/-- What the worklist has met so far: all of it is below the start, and the children of everything
that is off the list were met. -/
structure Meets (h : w.Regular root) (s : Survey) (start : String) (stack seen : List String) :
    Prop where
  nodup : seen.Nodup
  below : ∀ y ∈ seen, h.dag.Below start y
  pending : ∀ y ∈ stack, y = start ∨ y ∈ seen
  closed : ∀ p, p = start ∨ p ∈ seen → p ∉ stack → ∀ y ∈ s.kidsAt p, y ∈ seen

theorem Meets.step {stack seen : List String} (hs : w.Surveyed h root.id s₀ table s)
    (hstart : h.dag.Reaches root.id start) (m : w.Meets h s start (x :: stack) seen) :
    w.Meets h s start (s.fresh x seen ++ stack) (s.fresh x seen ++ seen) := by
  have hx : h.dag.Reaches start x := by
    rcases m.pending x List.mem_cons_self with rfl | hx
    · exact .refl _
    · exact (m.below x hx).reaches
  refine ⟨Survey.nodup_fresh_append m.nodup, fun y hy => ?_, fun y hy => ?_,
    fun p hp hno y hy => ?_⟩
  · rcases List.mem_append.mp hy with hy | hy
    · have hkid := (hs.kidsAt_perm (hstart.trans hx)).mem_iff.mp (Survey.mem_fresh.mp hy).1
      exact hx.trans_below ⟨y, hkid, .refl y⟩
    · exact m.below y hy
  · rcases List.mem_append.mp hy with hy | hy
    · exact .inr (List.mem_append_left _ hy)
    · exact (m.pending y (List.mem_cons_of_mem _ hy)).imp_right (List.mem_append_right _)
  · by_cases hpx : p = x
    · subst hpx
      by_cases hseen : y ∈ seen
      · exact List.mem_append_right _ hseen
      · exact List.mem_append_left _ (Survey.mem_fresh.mpr ⟨hy, hseen⟩)
    · have hp' : p = start ∨ p ∈ seen := by
        rcases hp with rfl | hp
        · exact .inl rfl
        · rcases List.mem_append.mp hp with hp | hp
          · exact absurd (List.mem_append_left _ hp) hno
          · exact .inr hp
      refine List.mem_append_right _ (m.closed p hp' (fun hmem => ?_) y hy)
      rcases List.mem_cons.mp hmem with rfl | hmem
      · exact hpx rfl
      · exact hno (List.mem_append_right _ hmem)

/-- With fuel for every pending id and every id not yet met the worklist comes to its end. -/
theorem Meets.reach (hs : w.Surveyed h root.id s₀ table s) (hstart : h.dag.Reaches root.id start)
    {stack seen : List String} (m : w.Meets h s start stack seen) (fuel : Nat)
    (hfuel : stack.length + s.found.length ≤ fuel + seen.length) :
    w.Meets h s start [] (s.reach fuel stack seen) := by
  have hlen : ∀ {seen stack}, w.Meets h s start stack seen → seen.length ≤ s.found.length := by
    intro seen stack m
    have hsub : seen ⊆ s.found.keys :=
      fun y hy => hs.covers y (hstart.trans (m.below y hy).reaches)
    simpa [Dict.keys] using (List.subperm_of_subset m.nodup hsub).length_le
  induction fuel generalizing stack seen with
  | zero =>
    have := hlen m
    obtain rfl : stack = [] := List.length_eq_zero_iff.mp (by omega)
    exact m
  | succ fuel ih =>
    cases stack with
    | nil => exact m
    | cons x rest =>
      rw [Survey.reach_step]
      refine ih (m.step hs hstart) ?_
      simp only [List.length_append, List.length_cons] at hfuel ⊢
      omega

/-- `Survey.below` lists what lies below an id. -/
theorem mem_below (hs : w.Surveyed h root.id s₀ table s) (hstart : h.dag.Reaches root.id start) :
    y ∈ s.below start ↔ h.dag.Below start y := by
  have hfirst : w.Meets h s start [start] [] := by
    refine ⟨List.nodup_nil, by simp, by simp, fun p hp hno => ?_⟩
    rcases hp with rfl | hp
    · exact absurd List.mem_cons_self hno
    · simp at hp
  have m := hfirst.reach hs hstart (s.found.length + 1) (by simp; omega)
  refine ⟨m.below y, fun hy => ?_⟩
  -- follow the route down from the start
  obtain ⟨x, hx, i, p⟩ := hy
  have hstep : ∀ {p q}, h.dag.Reaches start p → (p = start ∨ p ∈ s.below start) →
      q ∈ h.dag.kids p → q ∈ s.below start := by
    intro p q hreach hp hq
    refine m.closed p hp (List.not_mem_nil) q ?_
    exact (hs.kidsAt_perm (hstart.trans hreach)).mem_iff.mpr hq
  have hmem := hstep (.refl start) (.inl rfl) hx
  have hreach : h.dag.Reaches start x := .kid hx
  clear hx
  induction p with
  | here => exact hmem
  | step hy _ ih =>
    exact ih (hstep hreach (.inr hmem) hy) (hreach.trans (.kid hy))

end Writer
end AgentGraph
