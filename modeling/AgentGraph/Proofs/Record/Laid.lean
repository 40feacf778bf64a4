import AgentGraph.Proofs.Record.Saved
/-!
# Records as they stand in a document

Every id of a graph has its record with all its parts, and the document is the record of the root with
the release. An id to which users refer has its record on top of the sidecar, or its anchor carries
it.
-/
namespace AgentGraph

namespace Writer
variable {w : Writer} {root c d : Component} {l : Layout} {r : Records} {x y name : String}
  {record : Dict Tree} {listed : List (String × Option String)} {exportSidecar : Bool}
  {saved : Saved} {G : w.FullGraph root}

theorem flatMap_filter {α β : Type} (f : α → List β) (p : α → Bool) (xs : List α) :
    (xs.filter p).flatMap f = xs.flatMap fun x => if p x then f x else [] := by
  induction xs with
  | nil => rfl
  | cons x rest ih =>
    rw [List.filter_cons, List.flatMap_cons, ← ih]
    split <;> simp

/-- What stands where a component is used. -/
def written (w : Writer) (l : Layout) (r : Records) (id : String) : Tree :=
  w.useOf l id (r.at id)

/-- A record of the graph, with or without the release. -/
def Stands (w : Writer) (root : Component) (l : Layout) (r : Records) (x : String)
    (record : Dict Tree) : Prop :=
  ∃ c d, c.id = x ∧ Component.Reaches w.children root c ∧
    l.survey.found.get? x = some (d, w.shown d) ∧ w.RecordOf l r c d record

/-- A record of the graph with all its parts in order, with or without the release. -/
def Laid (w : Writer) (root : Component) (l : Layout) (r : Records) (x : String)
    (record : Dict Tree) : Prop :=
  ∃ c d front, c.id = x ∧ Component.Reaches w.children root c ∧
    l.survey.found.get? x = some (d, w.shown d) ∧ w.IsFront c front ∧
    record = front ++ w.fieldEntries l r (w.shown d) ++ w.carried l r c.id

theorem Laid.stands (h : w.Laid root l r x record) (G : w.FullGraph root)
    (P : w.Planned G.regular listed l) : w.Stands root l r x record := by
  obtain ⟨c, d, front, hcx, hc, hd, hfront, rfl⟩ := h
  obtain ⟨-, hdreach, -⟩ := P.surveyed.known.found _ _ _ hd
  exact ⟨c, d, hcx, hc, hd, hfront.recordOf (G.inFull hdreach)⟩

namespace Stands
variable (hs : w.Stands root l r x record)
include hs

theorem reference_none : Dict.get? record w.target.naming.protocol.componentRef = none := by
  obtain ⟨c, d, -, -, -, h⟩ := hs
  exact h.reference

theorem id : Dict.get? record "id" = some (.string x) := by
  obtain ⟨c, d, rfl, -, -, h⟩ := hs
  exact h.id

end Stands

namespace Outcome
variable (O : Outcome G listed exportSidecar l r saved)
include O

theorem laid (hx : G.regular.dag.Reaches root.id x) : w.Laid root l r x (r.at x) := by
  obtain ⟨record, hget⟩ := Dict.mem_keys_iff.mp (O.known x hx)
  obtain ⟨c, d, hcx, hc, hd, rfl, -, -⟩ := O.whole x record hget
  refine ⟨c, d, _, hcx, hc, hd, isFront_fullRecord c, ?_⟩
  rw [Records.at, hget]
  rfl

theorem document_laid : ∃ record, saved.document = .map record ∧ w.Laid root l r root.id record ∧
    Dict.get? record w.releaseEntry.1 = some w.releaseEntry.2 := by
  obtain ⟨record, hget⟩ := Dict.mem_keys_iff.mp (O.known root.id (.refl _))
  obtain ⟨c, d, hcx, hc, hd, rfl, -, -⟩ := O.whole root.id record hget
  obtain ⟨-, hdreach, -⟩ := O.planned.surveyed.known.found _ _ _ hd
  refine ⟨w.rootRecord l r c d, ?_, ⟨c, d, _, hcx, hc, hd, isFront_rootRecord c, rfl⟩, ?_⟩
  · rw [O.document, Records.at, hget, Option.getD_some, stampRoot_fullRecord (G.inFull hdreach)]
  · have hne : w.target.naming.protocol.componentType ≠ w.target.naming.protocol.version := by
      cases w.target.naming <;> decide
    simp [rootRecord, releaseEntry, Dict.get?, hne]

theorem stands (hx : G.regular.dag.Reaches root.id x) : w.Stands root l r x (r.at x) :=
  (O.laid hx).stands G O.planned

/-- An entry that is carried goes by the name that references use. -/
theorem hosted_name (hy : y ∈ l.hosted x) :
    G.regular.dag.Reaches root.id y ∧ l.aliases.get? y = none ∧ referenceName listed y = y := by
  obtain ⟨hno, hplace⟩ := O.planned.mem_hosted.mp hy
  have hbelow := (O.planned.surveyed.fits.mem y).mp (Dict.mem_keys_iff.mpr ⟨_, hplace⟩)
  refine ⟨hbelow.reaches, hno, ?_⟩
  exact (O.planned.reference_name (Planned.reference?_of_referenced hno hplace)).symm

theorem aliased_name (hy : (y, name) ∈ l.aliases) :
    G.regular.dag.Reaches root.id y ∧ l.aliases.get? y = some name ∧
      referenceName listed y = name := by
  have hget := Dict.get?_of_mem O.planned.nodup hy
  refine ⟨(O.planned.below_of_aliased (by rw [hget]; exact Option.some_ne_none _)).reaches, hget, ?_⟩
  exact (O.planned.reference_name (Planned.reference?_of_aliased hget)).symm

/-- An id to which users refer has an entry on top of the sidecar, or its anchor carries it. -/
theorem exists_home (hy : G.regular.dag.Below root.id y) (href : l.reference? y = some name) :
    l.aliases.get? y = some name ∨
      l.aliases.get? y = none ∧ name = y ∧ ∃ a, G.regular.dag.ImmediateDominator root.id a y ∧
        G.regular.dag.Reaches root.id a ∧ y ∈ l.hosted a := by
  cases ha : l.aliases.get? y with
  | some other =>
    rw [Planned.reference?_of_aliased ha] at href
    exact .inl href
  | none =>
    obtain ⟨p, hp, hplaced⟩ := O.planned.place hy
    cases hplaced with
    | inline ho =>
      rw [Planned.reference?_of_inline ha hp] at href
      cases href
    | referenced hd _ =>
      rw [Planned.reference?_of_referenced ha hp] at href
      exact .inr ⟨rfl, (Option.some.inj href).symm, _, hd, (hd.dominates.reaches hy.reaches).1,
        O.planned.mem_hosted.mpr ⟨ha, hp⟩⟩

end Outcome
end Writer
end AgentGraph
