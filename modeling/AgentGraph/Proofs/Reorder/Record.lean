import AgentGraph.Proofs.Equality.Keyed
import AgentGraph.Proofs.Reorder.Schema
/-!
# Fields of records with their keys in another order

A field of a record is looked up by name, so what is read from a record is read as well when its keys
stand in another order: texts and truth values as they are, opaque data and slots as equal ones.
-/
namespace AgentGraph
open List (Forall₂)

namespace Record

/-- The second record is the first with its keys, at any depth, in another order. No mapping repeats a
key. -/
structure Reordered (r r' : Record) : Prop where
  naming : r.naming = r'.naming
  type : r.componentType = r'.componentType
  fields : Dict.Reordered Tree.Reordered r.fields r'.fields
  proper : (Tree.map r.fields).Proper

variable {r r' : Record} (h : r.Reordered r') (field : String)
include h

theorem rel_get? : Option.Rel (fun t u => t.Proper ∧ t.Reordered u) (r.get? field)
    (r'.get? field) := by
  have hrel := Tree.rel_get? h.fields h.proper (r.naming.toDocument field)
  unfold Record.get?
  rw [← h.naming]
  generalize Dict.get? r.fields (r.naming.toDocument field) = found at hrel
  generalize Dict.get? r'.fields (r.naming.toDocument field) = found' at hrel
  cases hrel with
  | none => exact .none
  | @some t u htu =>
    simp only [Option.filter, htu.2.2.isNull_eq]
    split
    · exact .some htu.2
    · exact .none

theorem carried_optionalText :
    Carried (· = ·) (r.optionalText field) (r'.optionalText field) := by
  have hrel := rel_get? h field
  unfold optionalText
  generalize r.get? field = found at hrel
  generalize r'.get? field = found' at hrel
  cases hrel with
  | none => exact .ok rfl
  | @some t u htu =>
    cases t with
    | string text =>
      obtain rfl := (Tree.reordered_scalar rfl).mp htu.2
      exact .ok rfl
    | _ => exact .error

theorem carried_requiredText :
    Carried (· = ·) (r.requiredText field) (r'.requiredText field) := by
  refine (carried_optionalText h field).bind ?_
  rintro text _ rfl
  cases text with
  | none => exact .error
  | some _ => exact .ok rfl

theorem carried_optionalBool :
    Carried (· = ·) (r.optionalBool field) (r'.optionalBool field) := by
  have hrel := rel_get? h field
  unfold optionalBool
  generalize r.get? field = found at hrel
  generalize r'.get? field = found' at hrel
  cases hrel with
  | none => exact .ok rfl
  | @some t u htu =>
    cases t with
    | bool value =>
      obtain rfl := (Tree.reordered_scalar rfl).mp htu.2
      exact .ok rfl
    | _ => exact .error

theorem carried_mapping? : Carried
    (Option.Rel fun d e => (Tree.map d).Proper ∧ Dict.Reordered Tree.Reordered d e)
    (r.mapping? field) (r'.mapping? field) := by
  have hrel := rel_get? h field
  unfold mapping?
  generalize r.get? field = found at hrel
  generalize r'.get? field = found' at hrel
  cases hrel with
  | none => exact .ok .none
  | @some t u htu =>
    cases t with
    | map d =>
      obtain ⟨e, rfl, hde⟩ := Tree.reordered_map.mp htu.2
      exact .ok (.some ⟨htu.1, hde⟩)
    | _ => exact .error

theorem carried_mapping : Carried
    (fun d e => (Tree.map d).Proper ∧ Dict.Reordered Tree.Reordered d e)
    (r.mapping field) (r'.mapping field) := by
  refine (carried_mapping? h field).bind fun found found' hrel => .ok ?_
  cases hrel with
  | none => exact ⟨⟨List.nodup_nil, trivial⟩, .of_forall₂ .nil⟩
  | some hde => exact hde

omit h in
/-- The texts of a mapping are read one by one. -/
theorem texts_ok_iff {d : Dict Tree} {texts : Dict String} : r.texts field d = .ok texts ↔
    Forall₂ (fun f p => f.1 = p.1 ∧ f.2 = .string p.2) d texts := by
  induction d generalizing texts with
  | nil =>
    rw [Record.texts, List.forall₂_nil_left_iff]
    exact ⟨fun h => (Except.ok.inj h).symm, fun h => congrArg _ h.symm⟩
  | cons f rest ih =>
    obtain ⟨key, t⟩ := f
    rw [List.forall₂_cons_left_iff]
    cases t with
    | string text =>
      rw [Record.texts]
      constructor
      · intro h
        obtain ⟨found, hfound, h⟩ := bind_ok h
        cases h
        exact ⟨(key, text), found, ⟨rfl, rfl⟩, ih.mp hfound, rfl⟩
      · rintro ⟨⟨_, _⟩, found, ⟨rfl, htext⟩, hfound, rfl⟩
        rw [ih.mpr hfound, Tree.string.inj htext]
        rfl
    | _ =>
      constructor
      · intro h
        cases h
      · rintro ⟨_, _, ⟨-, h⟩, -⟩
        cases h

theorem carried_textMapping : Carried (fun a b => sameTexts a b = true)
    (r.textMapping field) (r'.textMapping field) := by
  refine (carried_mapping h field).bind fun d e hde texts htexts => ?_
  rw [texts_ok_iff] at htexts
  have hread : ∀ (f g : String × Tree) (p : String × String), f.1 = g.1 ∧ f.2.Reordered g.2 →
      f.1 = p.1 ∧ f.2 = .string p.2 → ∃ q : String × String,
        (g.1 = q.1 ∧ g.2 = .string q.2) ∧ p.1 = q.1 ∧ p.2 = q.2 := by
    intro f g p hfg hfp
    rw [hfp.2, Tree.reordered_scalar rfl] at hfg
    exact ⟨(g.1, p.2), ⟨rfl, hfg.2⟩, hfp.1.symm.trans hfg.1, rfl⟩
  obtain ⟨others, hothers, hsame⟩ := hde.2.made htexts hread
  have hkeys : Dict.keys d = texts.keys := map_eq_of_forall₂ htexts fun _ _ hfp => hfp.1
  have hnodup : texts.keys.Nodup := hkeys ▸ (Tree.proper_map.mp hde.1).1
  refine ⟨others, (texts_ok_iff field).mpr hothers, sameTexts_iff.mpr ⟨hsame.length_eq, ?_⟩⟩
  exact Dict.Reordered.found (R := (· = ·)) hsame hnodup

theorem carried_properties : Carried (Forall₂ Property.Twins) (r.properties field)
    (r'.properties field) := by
  have hrel := rel_get? h field
  unfold properties
  generalize r.get? field = found at hrel
  generalize r'.get? field = found' at hrel
  cases hrel with
  | none => exact .ok .nil
  | @some t u htu =>
    cases t with
    | list items =>
      obtain ⟨others, rfl, hitems⟩ := Tree.reordered_list.mp htu.2
      exact (Property.carried_ofTrees (Tree.proper_list.mp htu.1) hitems).mapError
    | _ => exact .error

theorem carried_slots : Carried Slots.Twins r.slots r'.slots := by
  refine (carried_properties h "inputs").bind fun ins ins' hins => ?_
  refine (carried_properties h "outputs").bind fun outs outs' houts => ?_
  exact (Slots.carried_of hins houts).mapError

end Record
end AgentGraph
