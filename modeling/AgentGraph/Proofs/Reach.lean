import AgentGraph.Component.Reach
import AgentGraph.Proofs.BuiltinGraph
/-!
# Reaching is a depth-first search

`Component.search` is the recursive search: a component whose id is new is listed, and then its children
are searched in order. The loop has a stack in place of the recursion, on which a component may wait at
several places, and marks an id only when it is taken off; it lists the same. If components of one id are
equal, no id that can be reached is missed: a component that is passed over has the children of the one
that was listed in its place.
-/
namespace AgentGraph.Component
variable {c d root : Component} {stack rest listed : List Component} {seen : List String} {x : String}

/-- Searches a component after others were listed: if its id is new, it is listed, and then its children
are searched in the order of its fields. -/
def search (listed : List Component) (c : Component) : List Component :=
  if c.id ∈ listed.map (·.id) then listed
  else c.children.attach.foldl (fun listed d => search listed d.1) (listed ++ [c])
termination_by c.weight
decreasing_by exact weight_lt_of_child d.2

theorem search_of_mem (h : c.id ∈ listed.map (·.id)) : search listed c = listed := by
  rw [search, if_pos h]

theorem search_of_notMem (h : c.id ∉ listed.map (·.id)) :
    search listed c = c.children.foldl search (listed ++ [c]) := by
  rw [search, if_neg h, List.foldl_attach]

/-- The loop lists what the search lists for the components on the stack, one after the other. -/
theorem append_visit (hseen : ∀ x, x ∈ seen ↔ x ∈ listed.map (·.id)) :
    listed ++ visit stack seen = stack.foldl search listed := by
  -- The children on top of the stack are all dealt with before what was below them.
  induction stack, seen using visit.induct generalizing listed with
  | case1 seen => simp [visit]
  | case2 seen c rest hc ih =>
    have hlisted := (hseen c.id).mp (List.contains_iff_mem.mp hc)
    rw [visit, if_pos hc, ih hseen, List.foldl_cons, search_of_mem hlisted]
  | case3 seen c rest hc ih =>
    have hnew : c.id ∉ listed.map (·.id) := by
      rw [← hseen, ← List.contains_iff_mem]
      exact hc
    have hnext : ∀ x, x ∈ c.id :: seen ↔ x ∈ (listed ++ [c]).map (·.id) := by
      intro x
      simp [hseen x, or_comm]
    calc listed ++ visit (c :: rest) seen
        = listed ++ [c] ++ visit (c.children ++ rest) (c.id :: seen) := by
          rw [visit, if_neg hc, List.append_assoc, List.singleton_append]
      _ = (c.children ++ rest).foldl search (listed ++ [c]) := ih hnext
      _ = (c :: rest).foldl search listed := by
          rw [List.foldl_append, List.foldl_cons, search_of_notMem hnew]

/-- The loop lists no id twice, and none that it has seen. -/
theorem nodup_visit :
    ((visit stack seen).map (·.id)).Nodup ∧ ∀ c ∈ visit stack seen, c.id ∉ seen := by
  induction stack, seen using visit.induct with
  | case1 seen => simp [visit]
  | case2 seen c rest hc ih => rwa [visit, if_pos hc]
  | case3 seen c rest hc ih =>
    obtain ⟨hnodup, hnew⟩ := ih
    rw [visit, if_neg hc, List.map_cons, List.nodup_cons]
    refine ⟨⟨fun hmem => ?_, hnodup⟩, List.forall_mem_cons.mpr ⟨?_, fun d hd h => ?_⟩⟩
    · obtain ⟨d, hd, hid⟩ := List.mem_map.mp hmem
      exact hnew d hd (hid ▸ List.mem_cons_self)
    · exact fun h => hc (List.contains_iff_mem.mpr h)
    · exact hnew d hd (List.mem_cons_of_mem _ h)

/-- What the loop lists is reached from a component on the stack. -/
theorem reaches_of_mem_visit (h : d ∈ visit stack seen) : ∃ c ∈ stack, Reaches children c d := by
  induction stack, seen using visit.induct with
  | case1 seen => simp [visit] at h
  | case2 seen c rest hc ih =>
    rw [visit, if_pos hc] at h
    obtain ⟨e, he, hed⟩ := ih h
    exact ⟨e, List.mem_cons_of_mem _ he, hed⟩
  | case3 seen c rest hc ih =>
    rw [visit, if_neg hc] at h
    rcases List.mem_cons.mp h with rfl | h
    · exact ⟨d, List.mem_cons_self, .refl d⟩
    · obtain ⟨e, he, hed⟩ := ih h
      rcases List.mem_append.mp he with he | he
      · exact ⟨c, List.mem_cons_self, .step he hed⟩
      · exact ⟨e, List.mem_cons_of_mem _ he, hed⟩

/-- An id that was seen before, or that the loop lists. -/
def Met (stack : List Component) (seen : List String) (x : String) : Prop :=
  x ∈ seen ∨ x ∈ (visit stack seen).map (·.id)

theorem met_cons_of_seen (h : seen.contains c.id = true) :
    Met (c :: rest) seen x ↔ Met rest seen x := by
  rw [Met, Met, visit, if_pos h]

theorem met_cons_of_new (h : ¬seen.contains c.id = true) :
    Met (c :: rest) seen x ↔ Met (c.children ++ rest) (c.id :: seen) x := by
  rw [Met, Met, visit, if_neg h, List.map_cons, List.mem_cons, List.mem_cons, or_left_comm, or_assoc]

/-- The ids of the stack are met, and so are those of the children of all that is listed. -/
theorem met_visit : (∀ c ∈ stack, Met stack seen c.id) ∧
    ∀ c ∈ visit stack seen, ∀ d ∈ c.children, Met stack seen d.id := by
  induction stack, seen using visit.induct with
  | case1 seen => simp [visit]
  | case2 seen c rest hc ih =>
    simp only [met_cons_of_seen hc]
    rw [visit, if_pos hc]
    exact ⟨List.forall_mem_cons.mpr ⟨.inl (List.contains_iff_mem.mp hc), ih.1⟩, ih.2⟩
  | case3 seen c rest hc ih =>
    obtain ⟨hchildren, hrest⟩ := List.forall_mem_append.mp ih.1
    simp only [met_cons_of_new hc]
    rw [visit, if_neg hc]
    exact ⟨List.forall_mem_cons.mpr ⟨.inl List.mem_cons_self, hrest⟩,
      List.forall_mem_cons.mpr ⟨hchildren, ih.2⟩⟩

theorem reaches_of_mem_reachable (h : c ∈ root.reachable) : Reaches children root c := by
  obtain ⟨d, hd, hdc⟩ := reaches_of_mem_visit h
  rwa [List.mem_singleton.mp hd] at hdc

/-- If components of one id are equal, the id of everything below a component is listed, once the id of
the component is. -/
theorem id_mem_reachable (hsame : Coherent children root) (hroot : Reaches children root c)
    (hc : c.id ∈ root.reachable.map (·.id)) (h : Reaches children c d) :
    d.id ∈ root.reachable.map (·.id) := by
  obtain ⟨i, p⟩ := h
  induction p with
  | here => exact hc
  | @step c d e i hd _ ih =>
    obtain ⟨c', hc', hid⟩ := List.mem_map.mp hc
    have heq := hsame c c' hroot (reaches_of_mem_reachable hc') hid.symm
    obtain ⟨d', hd', hdd'⟩ := children_matched heq hd
    have hmet : Met [root] [] d'.id := met_visit.2 c' hc' d' hd'
    rw [← same_id hdd'] at hmet
    exact ih (hroot.kid hd) (hmet.resolve_left List.not_mem_nil)

/-- What is told to be reachable is the pre-order of the recursive search. The root comes first, and no
id comes twice; if components of one id are equal, the ids are those of all that is reached. -/
theorem reachable_depth_first (root : Component) :
    root.reachable = search [] root ∧
    root.reachable.head? = some root ∧
    (root.reachable.map (·.id)).Nodup ∧
    (Coherent children root →
      ∀ x, x ∈ root.reachable.map (·.id) ↔ ∃ c, Reaches children root c ∧ c.id = x) := by
  refine ⟨?_, ?_, nodup_visit.1, fun hsame x => ⟨fun h => ?_, ?_⟩⟩
  · have hsearch : [] ++ visit [root] [] = [root].foldl search [] := append_visit (by simp)
    exact hsearch
  · rw [reachable, visit, if_neg (by simp), List.head?_cons]
  · obtain ⟨c, hc, hid⟩ := List.mem_map.mp h
    exact ⟨c, reaches_of_mem_reachable hc, hid⟩
  · rintro ⟨c, hc, rfl⟩
    have hmet : Met [root] [] root.id := met_visit.1 root List.mem_cons_self
    exact id_mem_reachable hsame (.refl root) (hmet.resolve_left List.not_mem_nil) hc

/-- The model, which both agents of the team use, and the first agent, which stands twice, are listed
where they are first met. -/
theorem reachable_depth_first_team :
    Coherent children Sample.team ∧
    Sample.team.reachable.map (·.id) = ["team", "alice", "model", "search", "bob"] ∧
    ∀ x, x ∈ ["team", "alice", "model", "search", "bob"] ↔
      ∃ c, Reaches children Sample.team c ∧ c.id = x := by
  have hids : Sample.team.reachable.map (·.id) = ["team", "alice", "model", "search", "bob"] := by
    decide +kernel
  refine ⟨Sample.coherent, hids, ?_⟩
  rw [← hids]
  exact (reachable_depth_first Sample.team).2.2.2 Sample.coherent

end AgentGraph.Component
