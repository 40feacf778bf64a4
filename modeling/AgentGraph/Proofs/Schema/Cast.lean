import AgentGraph.Proofs.Equality.Children
import AgentGraph.Proofs.Schema.Castable
import AgentGraph.Proofs.Schema.Readable
/-!
# Casts between equal schemas

Equal schemas, in which mappings may have their keys in another order, are of one type. So what can be cast
stays castable when both schemas are replaced by equal ones.
-/
namespace AgentGraph

namespace Schema
variable {s s' t : Schema}

theorem sameList_iff {xs ys : List Schema} :
    sameList xs ys = true ↔ List.Forall₂ (fun x y => x.same y = true) xs ys := by
  induction xs generalizing ys with
  | nil => cases ys <;> simp [sameList]
  | cons x rest ih => cases ys <;> simp [sameList, ih]

/-- Equality of what is said of other keys, one level deep. -/
theorem matches_of_sameAdditional {a b : Additional} (h : sameAdditional a b = true) :
    a.Matches (fun s t => s.same t = true) b := by
  cases a with
  | following s =>
    cases b with
    | following t => exact .following (by rwa [sameAdditional] at h)
    | _ => simp [sameAdditional] at h
  | unspecified =>
    cases b with
    | unspecified => exact .flag rfl rfl
    | _ => simp [sameAdditional] at h
  | allowed isOpen =>
    cases b with
    | allowed other =>
      obtain rfl : isOpen = other := by simpa [sameAdditional] using h
      exact .flag rfl rfl
    | _ => simp [sameAdditional] at h

/-- Equality, one level deep. -/
theorem matches_of_same (h : s.same t = true) :
    s.type.Matches (fun s t => s.same t = true) t.type := by
  have htype : sameTypePart s.type t.type = true := (same_iff.mp h).2.2.2.2.1
  generalize s.type = a at htype
  generalize t.type = b at htype
  cases a with
  | array i =>
    cases b with
    | array j =>
      apply SchemaType.Matches.array
      cases i with
      | none =>
        cases j with
        | none => simp [itemsOrAny, any, ofType, same_iff, title, description, fallback, type, extra,
            sameTypePart, Tree.sameDict, Tree.sameEntries]
        | some t => simp [sameTypePart] at htype
      | some s =>
        cases j with
        | none => simp [sameTypePart] at htype
        | some t => simpa [sameTypePart, itemsOrAny] using htype
    | _ => simp [sameTypePart] at htype
  | object ps c =>
    cases b with
    | object qs d =>
      simp only [sameTypePart, Bool.and_eq_true, beq_iff_eq] at htype
      obtain ⟨⟨hlen, hproperties⟩, hadditional⟩ := htype
      exact .object hlen (sameProperties_iff.mp hproperties) (matches_of_sameAdditional hadditional)
    | _ => simp [sameTypePart] at htype
  | anyOf xs =>
    cases b with
    | anyOf ys =>
      rw [sameTypePart] at htype
      have hpairs := sameList_iff.mp htype
      constructor
      · intro x hx
        obtain ⟨y, hy, hxy⟩ := exists_left hpairs.flip hx
        exact ⟨y, hy, hxy⟩
      · intro y hy
        obtain ⟨x, hx, hxy⟩ := exists_left hpairs hy
        exact ⟨x, hx, hxy⟩
    | _ => simp [sameTypePart] at htype
  | _ => cases b <;> first | exact .leaf rfl | simp [sameTypePart] at htype

theorem sameType_of_same (h : s.same t = true) : sameType s t = true := by
  induction s using inner_induction generalizing t with
  | step s ih =>
    exact sameType_iff.mpr ((matches_of_same h).imp fun u hu v huv => ih u hu huv)

theorem Readable.type (h : s.Readable) : readableType s.type := by
  cases s
  exact h.2.2.2.2.2

theorem Readable.names (h : s.Readable) : s.propertyNames.Nodup := by
  have htype := h.type
  rw [propertyNames]
  generalize s.type = a at htype
  cases a with
  | object ps b => exact htype.1
  | _ => exact List.nodup_nil

theorem Readable.inner {u : Schema} (h : s.Readable) (hu : u ∈ s.type.inner) : u.Readable := by
  rcases SchemaType.inner_cases hu with rfl | hu
  · exact readable_ofType trivial
  · exact (readableType_iff.mp h.type).2 u hu

/-- No object of a schema that was read names a property twice. -/
theorem Readable.namesOnce (h : s.Readable) : s.NamesOnce := by
  induction s using inner_induction with
  | step s ih => exact namesOnce_iff.mpr ⟨h.names, fun u hu => ih u hu (h.inner hu)⟩

/-- A schema is of one type with an equal one that was read. -/
theorem sameType_back (hs : s'.same s = true) (hread : s'.Readable) :
    s.NamesOnce ∧ sameType s s' = true :=
  have hsame : sameType s' s = true := sameType_of_same hs
  ⟨hread.namesOnce.of_sameType hsame, hread.namesOnce.sameType_symm hsame⟩

end Schema
end AgentGraph
