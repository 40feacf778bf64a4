import AgentGraph.Proofs.BuiltinGraph
import AgentGraph.Proofs.Document
import AgentGraph.Proofs.Record.Laid
/-!
# The records of a saved document

What the walk through a document finds in the records of a graph: at each use a reference or the
record of the id, and in each record the entries that its id carries. So the walk meets the records
of the forest that the layout lays out.
-/
namespace AgentGraph

mutual
/-- The value is a component, or a list of such values. -/
def Value.IsUse : Value → Prop
  | .component _ => True
  | .list items => areUses items
  | _ => False
/-- All values are components, or lists of such values. -/
def areUses : List Value → Prop
  | [] => True
  | v :: rest => v.IsUse ∧ areUses rest
end

theorem areUses_map {α : Type} {f : α → Value} (h : ∀ a, (f a).IsUse) (as : List α) :
    areUses (as.map f) := by
  induction as with
  | nil => trivial
  | cons a rest ih => exact ⟨h a, ih⟩

theorem Value.isUse_componentList (cs : List Component) : (Value.componentList cs).IsUse :=
  areUses_map (f := Value.component) (fun _ => trivial) cs

/-- The fields of a builtin kind that are for components hold nothing else. -/
theorem Kind.isUse_fields {k : Kind} (h : k.isBuiltin = true) :
    ∀ f ∈ k.fields, f.1 ∈ Builtin.componentFields k.componentType → f.2.IsUse := by
  cases k with
  | modelConfig c =>
    have hnone : Builtin.componentFields c.provider.componentType = [] := by
      cases c.provider <;> rfl
    simp [componentType, hnone]
  | tool t =>
    have hnone : Builtin.componentFields t.componentType = [] := by
      rw [Tool.componentType]
      cases t.site <;> rfl
    simp [componentType, hnone]
  | agent c p ts hu s =>
    simp [componentType, Builtin.componentFields, fields, Slots.fields, Value.IsUse,
      Value.isUse_componentList]
  | swarm f rs =>
    have hpairs : (Value.list (rs.map fun p => .componentList [p.1, p.2])).IsUse :=
      areUses_map (fun _ => Value.isUse_componentList _) rs
    simp only [fields, List.forall_mem_cons]
    exact ⟨fun _ => trivial, fun _ => hpairs, by simp⟩
  | managerWorkers m ws =>
    simp [componentType, Builtin.componentFields, fields, Value.IsUse, Value.isUse_componentList]
  | flow n ns cs ds s =>
    simp [componentType, Builtin.componentFields, fields, Slots.fields, Value.IsUse,
      Value.isUse_componentList]
  | node role s =>
    cases role with
    | finish b => simp [componentType, NodeRole.componentType, Builtin.componentFields]
    | _ =>
      simp [componentType, NodeRole.componentType, Builtin.componentFields, fields, Slots.fields,
        NodeRole.fields, Value.IsUse]
  | controlFlowEdge f b t =>
    cases b <;>
      simp [componentType, Builtin.componentFields, fields, optionalText, Value.IsUse]
  | dataFlowEdge s o d i =>
    simp [componentType, Builtin.componentFields, fields, Value.IsUse]
  | extension t fs => cases h

namespace Writer
variable {w : Writer} {root c d : Component} {l : Layout} {r : Records} {x y : String}
  {record : Dict Tree}

theorem uses_written (id : String) : (w.written l r id).uses = [w.written l r id] := by
  unfold written useOf referenceTo
  cases l.reference? id <;> rw [Tree.uses]

mutual
theorem uses_render {v : Value} (h : v.IsUse) :
    (w.render l r v).uses = v.components.map fun c => w.written l r c.id := by
  match v with
  | .component c =>
    rw [render, Value.components]
    exact uses_written c.id
  | .list items =>
    rw [render, Value.components, Tree.uses]
    exact uses_renderItems h
theorem uses_renderItems {items : List Value} (h : areUses items) :
    Tree.usesOfList (w.renderItems l r items) =
      (Value.componentsOfList items).map fun c => w.written l r c.id := by
  match items with
  | [] => rw [renderItems, Value.componentsOfList, Tree.usesOfList, List.map_nil]
  | v :: rest =>
    rw [renderItems, Value.componentsOfList, Tree.usesOfList, List.map_append, uses_render h.1,
      uses_renderItems h.2]
end

variable {B : w.BuiltinGraph root} {listed : List (String × Option String)}

/-- Where a component is seen, the components it holds stand in the fields that are for them. -/
theorem BuiltinGraph.fields_at (B : w.BuiltinGraph root)
    (hd : Component.Reaches w.children root d) {field : String}
    (hf : field ∈ Builtin.componentFields d.componentType) :
    Dict.get? (w.shown d) field = Dict.get? d.kind.fields field := by
  have hdr := B.full.reaches_iff.mp hd
  rw [(B.full.inFull hd).shown_eq]
  have hshows : w.shows d.componentType field = true := by
    rw [shows, B.policy]
    exact Builtin.componentFields_shown (Kind.type_mem (B.builtin d hdr)) hf _
  rw [Dict.get?_filter, if_pos hshows]

theorem mem_names_of_componentFields {field : String} (hd : d.kind.isBuiltin = true)
    (hf : field ∈ Builtin.componentFields d.componentType) : field ∈ d.kind.names := by
  have hall : ∀ type ∈ Builtin.types, ∀ field ∈ Builtin.componentFields type,
      field ∈ Builtin.fieldNames type := by decide +kernel
  rw [Kind.names_builtin hd]
  exact hall _ (Kind.type_mem hd) field hf

/-- A record uses what its component holds. -/
theorem RecordOf.uses (B : w.BuiltinGraph root) (hd : Component.Reaches w.children root d)
    (htype : c.componentType = d.componentType) (h : w.RecordOf l r c d record) :
    w.target.naming.uses record = (w.children d).map fun e => w.written l r e.id := by
  have hdr := B.full.reaches_iff.mp hd
  have hb := B.builtin d hdr
  rw [B.full.children_eq hdr, Component.children, Kind.held_eq hb, List.map_flatMap,
    NamingMode.uses, h.type]
  simp only [htype]
  refine List.flatMap_congr fun field hf => ?_
  rw [h.field field (mem_names_of_componentFields hb hf), B.fields_at hd hf, Kind.componentsAt]
  cases hget : Dict.get? d.kind.fields field with
  | none => rfl
  | some v => exact uses_render (Kind.isUse_fields hb (field, v) (Dict.mem_of_get? hget) hf)

theorem RecordOf.definitions (h : w.RecordOf l r c d record) :
    w.target.naming.definitions record = carriedEntries r (l.hosted c.id) := by
  rw [NamingMode.definitions, h.carried]
  cases l.hosted c.id with
  | nil => rfl
  | cons y rest => rfl

namespace Stands
variable (hs : w.Stands root l r x record)
include hs

theorem definitions : w.target.naming.definitions record = carriedEntries r (l.hosted x) := by
  obtain ⟨c, d, rfl, -, -, h⟩ := hs
  exact h.definitions

theorem uses (B : w.BuiltinGraph root) (P : w.Planned B.full.regular listed l) :
    w.target.naming.uses record = (l.survey.kidsAt x).map (w.written l r) := by
  obtain ⟨c, d, rfl, hc, hd, h⟩ := hs
  obtain ⟨hid, hdreach, -⟩ := P.surveyed.known.found _ _ _ hd
  have htype := Component.same_type (B.full.regular.coherent c d hc hdreach hid.symm)
  rw [h.uses B hdreach htype, kidsAt_found hd, List.map_map]
  rfl

end Stands

/-- The trees of known records, and of references, that stand where an id is used. -/
theorem records_written (x : String) :
    w.target.naming.records (w.written l r x) =
      if (l.reference? x).isNone then w.target.naming.records (.map (r.at x)) else [] := by
  unfold written useOf
  cases l.reference? x with
  | none => rfl
  | some name => exact NamingMode.records_reference (by simp [Dict.has])

/-- The walk meets a record, and then the records that stand directly within it. -/
theorem records_eq (B : w.BuiltinGraph root) (P : w.Planned B.full.regular listed l)
    (hx : w.Stands root l r x record) :
    w.target.naming.records (.map record) =
      record :: (l.sub x).flatMap fun y => w.target.naming.records (.map (r.at y)) := by
  rw [NamingMode.records_map hx.reference_none, hx.definitions, hx.uses B P, Layout.sub,
    List.flatMap_append, flatMap_filter, carriedEntries, List.flatMap_map, List.flatMap_map,
    List.cons_append]
  refine congrArg (record :: ·) (congrArg (· ++ _) (List.flatMap_congr fun y _ => ?_))
  exact records_written y

end Writer
end AgentGraph
