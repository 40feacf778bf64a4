import AgentGraph.Proofs.BuiltinGraph
/-!
# The placement table is the table of immediate dominators

A component that stands once is placed with its holder, and one that stands at several positions with
its immediate dominator: the deepest component, other than itself, on every way down to it.
-/
namespace AgentGraph

namespace Component
variable {kids : Component → List Component} {root : Component} {a x : String}

/-- Every way from the root to a component of an id passes another id. -/
def Dominates (kids : Component → List Component) (root : Component) (a x : String) : Prop :=
  ∀ i c, Route kids root i c → c.id = x → a ∈ i

/-- The deepest id other than the id itself on every way to it: every other such id is on every way
to this one. -/
structure ImmediateDominator (kids : Component → List Component) (root : Component)
    (a x : String) : Prop where
  ne : a ≠ x
  dominates : Dominates kids root a x
  deepest : ∀ b, b ≠ x → Dominates kids root b x → Dominates kids root b a

end Component

namespace Writer
variable {w : Writer} {root : Component} {a x : String}

theorem Regular.dominates_iff (h : w.Regular root) :
    h.dag.Dominates root.id a x ↔ Component.Dominates w.children root a x := by
  constructor
  · rintro hd i c p rfl
    exact hd i (h.route (.refl root) p)
  · intro hd i p
    obtain ⟨c, q, hc⟩ := h.exists_route (.refl root) p
    exact hd i c q hc

theorem Regular.immediateDominator (h : w.Regular root)
    (hd : h.dag.ImmediateDominator root.id a x) :
    Component.ImmediateDominator w.children root a x :=
  ⟨hd.ne, h.dominates_iff.mp hd.dominates, fun b hb hdb =>
    h.dominates_iff.mp (hd.deepest b hb (h.dominates_iff.mpr hdb))⟩

/-- The ids below the root are those of the components that are reached, but its own. -/
theorem Regular.below_root_iff (h : w.Regular root) :
    h.dag.Below root.id x ↔
      x ≠ root.id ∧ ∃ c, Component.Reaches w.children root c ∧ c.id = x := by
  constructor
  · intro hb
    exact ⟨hb.ne.symm, h.exists_component hb.reaches⟩
  · rintro ⟨hne, c, hc, rfl⟩
    exact (h.reaches_root hc).below_of_ne (Ne.symm hne)

/-- A survey of a graph ends with the table of immediate dominators of its root. -/
theorem survey_immediate_dominators (w : Writer) (root : Component)
    (hregistry : w.registry.ListsFields)
    (hsame : Component.Coherent w.children root)
    (hproper : ∀ c, Component.Reaches w.children root c → c.Proper)
    {room : Nat} {table : PlacementTable} {survey : Survey}
    (hrun : (w.survey room root).run .empty = .ok (table, survey)) :
    (Dict.keys table).Nodup ∧
    (∀ x, x ∈ Dict.keys table ↔
      x ≠ root.id ∧ ∃ c, Component.Reaches w.children root c ∧ c.id = x) ∧
    ∀ x ∈ Dict.keys table,
      (w.occurrences root x = 1 ∧ ∃ p, Component.Reaches w.children root p ∧
        x ∈ (w.children p).map (·.id) ∧ Dict.get? table x = some (.inline p.id)) ∨
      (2 ≤ w.occurrences root x ∧ ∃ a, Component.ImmediateDominator w.children root a x ∧
        Dict.get? table x = some (.referenced a)) := by
  have h : w.Regular root := ⟨hsame, hproper⟩
  have hfits := (survey_ok h (faithful_of_listsFields hregistry root) (.refl root) (known_empty h) hrun).fits
  refine ⟨hfits.nodup, fun x => (hfits.mem x).trans h.below_root_iff, fun x hx => ?_⟩
  obtain ⟨place, hplace⟩ := Dict.mem_keys_iff.mp hx
  cases hfits.placed x place hplace with
  | inline ho =>
    obtain ⟨p, hp, rfl⟩ := h.exists_component ho.1
    refine .inl ⟨h.occurrences_of_onlyUser ho, p, hp, ?_, hplace⟩
    exact (h.kidsOf_perm hp).mem_iff.mp ho.mem
  | referenced hd hs =>
    exact .inr ⟨h.occurrences_of_shared hs, _, h.immediateDominator hd, hplace⟩

/-- In the team the agent that stands twice and the model that both agents use go to the team. -/
theorem survey_team :
    ∃ survey, (Sample.writer.survey 9 Sample.team).run .empty =
        .ok ([("alice", .referenced "team"), ("bob", .inline "team"),
          ("model", .referenced "team"), ("search", .inline "alice")], survey) ∧
      Component.ImmediateDominator Sample.writer.children Sample.team "team" "model" ∧
      Sample.writer.occurrences Sample.team "search" = 1 := by
  have hsurvey : ∃ survey, (Sample.writer.survey 9 Sample.team).run .empty =
      .ok ([("alice", .referenced "team"), ("bob", .inline "team"),
        ("model", .referenced "team"), ("search", .inline "alice")], survey) := ⟨_, rfl⟩
  obtain ⟨survey, hrun⟩ := hsurvey
  have h := survey_immediate_dominators Sample.writer Sample.team
    (fun plugin hp => absurd hp List.not_mem_nil) Sample.graph.regular.coherent
    Sample.graph.regular.proper hrun
  refine ⟨survey, hrun, ?_, ?_⟩
  · rcases h.2.2 "model" (by decide) with ⟨-, p, -, -, hp⟩ | ⟨-, a, ha, hp⟩
    · cases hp
    · cases hp
      exact ha
  · rcases h.2.2 "search" (by decide) with ⟨hone, -⟩ | ⟨-, a, -, hp⟩
    · exact hone
    · cases hp

end Writer
end AgentGraph
