import AgentGraph.Proofs.Dict
import AgentGraph.Proofs.Schema.Nodes
/-!
# Schemas of the same type

Among schemas in which no object names a property twice, having the same type is an equivalence. What one
level of two schemas has to agree on is a relation of types with the relation of the schemas inside as a
parameter (`SchemaType.Matches`). Each law is proved of one level and carried to all levels by induction
on the schemas inside.
-/
namespace AgentGraph

/-- Whether other keys are allowed, where they have no schema to follow. -/
def Additional.isOpen? : Additional → Option Bool
  | .unspecified => some true
  | .allowed isOpen => some isOpen
  | .following _ => none

/-- The schemas directly inside a type; the items of an array may be anything if nothing is said. -/
def SchemaType.inner : SchemaType → List Schema
  | .array items => [Schema.itemsOrAny items]
  | .object properties additional => Dict.values properties ++ additional.inner
  | .anyOf alternatives => alternatives
  | _ => []

theorem SchemaType.inner_cases {a : SchemaType} {u : Schema} (h : u ∈ a.inner) :
    u = Schema.any ∨ u ∈ a.contents := by
  cases a with
  | array items =>
    cases items with
    | none => exact .inl (List.mem_singleton.mp h)
    | some items => exact .inr h
  | _ => exact .inr h

theorem SchemaType.inner_of_contents {a : SchemaType} {u : Schema} (h : u ∈ a.contents) :
    u ∈ a.inner := by
  cases a with
  | array items =>
    cases items with
    | none => cases h
    | some items => exact h
  | _ => exact h

/-- Whether a type has no room for schemas inside. -/
def SchemaType.isLeaf : SchemaType → Bool
  | .array _ | .object _ _ | .anyOf _ => false
  | _ => true

/-- Agreement on other keys, given what it is for two schemas to agree. -/
inductive Additional.Matches (R : Schema → Schema → Prop) : Additional → Additional → Prop
  | flag {a b : Additional} {isOpen : Bool} (ha : a.isOpen? = some isOpen)
    (hb : b.isOpen? = some isOpen) : Matches R a b
  | following {s t : Schema} (h : R s t) : Matches R (.following s) (.following t)

/-- Agreement of two types, given what it is for two schemas to agree. -/
inductive SchemaType.Matches (R : Schema → Schema → Prop) : SchemaType → SchemaType → Prop
  | leaf {a : SchemaType} (h : a.isLeaf = true) : Matches R a a
  | array {i j : Option Schema} (h : R (Schema.itemsOrAny i) (Schema.itemsOrAny j)) :
    Matches R (.array i) (.array j)
  | object {ps qs : Dict Schema} {a b : Additional} (hlen : ps.length = qs.length)
    (hnames : ∀ f ∈ ps, ∃ t, Dict.get? qs f.1 = some t ∧ R f.2 t) (hadd : a.Matches R b) :
    Matches R (.object ps a) (.object qs b)
  | anyOf {xs ys : List Schema} (hleft : ∀ x ∈ xs, ∃ y ∈ ys, R x y)
    (hright : ∀ y ∈ ys, ∃ x ∈ xs, R x y) : Matches R (.anyOf xs) (.anyOf ys)

section OneLevel
variable {R : Schema → Schema → Prop}

theorem Additional.inner_of_isOpen {a : Additional} {isOpen : Bool}
    (h : a.isOpen? = some isOpen) : a.inner = [] := by
  cases a with
  | following s => cases h
  | _ => rfl

theorem Additional.Matches.refl {a : Additional} (h : ∀ u ∈ a.inner, R u u) : a.Matches R a := by
  cases a with
  | unspecified => exact .flag rfl rfl
  | allowed isOpen => exact .flag rfl rfl
  | following s => exact .following (h s (by simp [inner]))

theorem Additional.Matches.imp {S : Schema → Schema → Prop} {a b : Additional}
    (hR : ∀ u ∈ a.inner, ∀ v, R u v → S u v) (h : a.Matches R b) : a.Matches S b := by
  cases h with
  | flag ha hb => exact .flag ha hb
  | following h => exact .following (hR _ (by simp [inner]) _ h)

theorem Additional.Matches.symm {a b : Additional} (hR : ∀ u ∈ a.inner, ∀ v, R u v → R v u)
    (h : a.Matches R b) : b.Matches R a := by
  cases h with
  | flag ha hb => exact .flag hb ha
  | following h => exact .following (hR _ (by simp [inner]) _ h)

theorem Additional.Matches.trans {a b c : Additional}
    (hR : ∀ u ∈ a.inner, ∀ v w, R u v → R v w → R u w) (h : a.Matches R b) (k : b.Matches R c) :
    a.Matches R c := by
  cases h with
  | flag ha hb =>
    cases k with
    | flag hb' hc => exact .flag ha (hc.trans (hb'.symm.trans hb))
    | following k => cases hb
  | following h =>
    cases k with
    | flag hb hc => cases hb
    | following k => exact .following (hR _ (by simp [inner]) _ _ h k)

theorem SchemaType.Matches.refl {a : SchemaType} (hnames : (Schema.ofType a).propertyNames.Nodup)
    (hR : ∀ u ∈ a.inner, R u u) : a.Matches R a := by
  cases a with
  | array items => exact .array (hR _ (by simp [inner]))
  | object ps b =>
    refine .object rfl (fun f hf => ?_) (.refl fun u hu => hR u (List.mem_append_right _ hu))
    have hvalue : f.2 ∈ Dict.values ps := List.mem_map_of_mem hf
    exact ⟨f.2, Dict.get?_of_mem hnames hf, hR _ (List.mem_append_left _ hvalue)⟩
  | anyOf xs => exact .anyOf (fun x hx => ⟨x, hx, hR x hx⟩) (fun x hx => ⟨x, hx, hR x hx⟩)
  | _ => exact .leaf rfl

theorem SchemaType.Matches.imp {S : Schema → Schema → Prop} {a b : SchemaType}
    (hR : ∀ u ∈ a.inner, ∀ v, R u v → S u v) (h : a.Matches R b) : a.Matches S b := by
  cases h with
  | leaf hleaf => exact .leaf hleaf
  | array h => exact .array (hR _ (by simp [inner]) _ h)
  | object hlen hall hadd =>
    refine .object hlen (fun f hf => ?_) (hadd.imp fun u hu => hR u (List.mem_append_right _ hu))
    obtain ⟨t, hget, h⟩ := hall f hf
    have hvalue : f.2 ∈ Dict.values _ := List.mem_map_of_mem hf
    exact ⟨t, hget, hR _ (List.mem_append_left _ hvalue) _ h⟩
  | anyOf hleft hright =>
    constructor
    · intro x hx
      obtain ⟨y, hy, h⟩ := hleft x hx
      exact ⟨y, hy, hR x hx y h⟩
    · intro y hy
      obtain ⟨x, hx, h⟩ := hright y hy
      exact ⟨x, hx, hR x hx y h⟩

theorem SchemaType.Matches.symm {a b : SchemaType} (hnames : (Schema.ofType a).propertyNames.Nodup)
    (hR : ∀ u ∈ a.inner, ∀ v, R u v → R v u) (h : a.Matches R b) : b.Matches R a := by
  cases h with
  | leaf h => exact .leaf h
  | array h => exact .array (hR _ (by simp [inner]) _ h)
  | @object ps qs _ _ hlen hall hadd =>
    have hback : ∀ f ∈ ps, ∃ t, Dict.get? qs f.1 = some t ∧ R t f.2 := by
      intro f hf
      obtain ⟨t, hget, h⟩ := hall f hf
      have hvalue : f.2 ∈ Dict.values ps := List.mem_map_of_mem hf
      exact ⟨t, hget, hR _ (List.mem_append_left _ hvalue) _ h⟩
    refine .object hlen.symm (Dict.mirrored (R := fun x y => R y x) hnames hlen hback) ?_
    exact hadd.symm fun u hu => hR u (List.mem_append_right _ hu)
  | anyOf hleft hright =>
    constructor
    · intro y hy
      obtain ⟨x, hx, h⟩ := hright y hy
      exact ⟨x, hx, hR x hx y h⟩
    · intro x hx
      obtain ⟨y, hy, h⟩ := hleft x hx
      exact ⟨y, hy, hR x hx y h⟩

theorem SchemaType.Matches.trans {a b c : SchemaType}
    (hR : ∀ u ∈ a.inner, ∀ v w, R u v → R v w → R u w) (h : a.Matches R b) (k : b.Matches R c) :
    a.Matches R c := by
  cases h with
  | leaf h => exact k
  | array h =>
    cases k with
    | leaf hleaf => cases hleaf
    | array k => exact .array (hR _ (by simp [inner]) _ _ h k)
  | object hlen hall hadd =>
    cases k with
    | leaf hleaf => cases hleaf
    | object klen kall kadd =>
      refine .object (hlen.trans klen) (fun f hf => ?_)
        (hadd.trans (fun u hu => hR u (List.mem_append_right _ hu)) kadd)
      obtain ⟨t, hget, h⟩ := hall f hf
      obtain ⟨u, kget, k⟩ := kall _ (Dict.mem_of_get? hget)
      have hvalue : f.2 ∈ Dict.values _ := List.mem_map_of_mem hf
      exact ⟨u, kget, hR _ (List.mem_append_left _ hvalue) _ _ h k⟩
  | anyOf hleft hright =>
    cases k with
    | leaf hleaf => cases hleaf
    | anyOf kleft kright =>
      constructor
      · intro x hx
        obtain ⟨y, hy, h⟩ := hleft x hx
        obtain ⟨z, hz, k⟩ := kleft y hy
        exact ⟨z, hz, hR x hx y z h k⟩
      · intro z hz
        obtain ⟨y, hy, k⟩ := kright z hz
        obtain ⟨x, hx, h⟩ := hright y hy
        exact ⟨x, hx, hR x hx y z h k⟩

theorem SchemaType.inner_of_isLeaf {a : SchemaType} (h : a.isLeaf = true) : a.inner = [] := by
  cases a <;> first | rfl | cases h

/-- Each schema inside the second type agrees with one inside the first. -/
theorem SchemaType.Matches.exists_inner {a b : SchemaType} {v : Schema} (h : a.Matches R b)
    (hnames : (Schema.ofType a).propertyNames.Nodup) (hv : v ∈ b.inner) : ∃ u ∈ a.inner, R u v := by
  cases h with
  | leaf hleaf =>
    rw [SchemaType.inner_of_isLeaf hleaf] at hv
    cases hv
  | array h =>
    obtain rfl := List.mem_singleton.mp hv
    exact ⟨_, List.mem_singleton_self _, h⟩
  | object hlen hall hadd =>
    rcases List.mem_append.mp hv with hmem | hmem
    · obtain ⟨g, hg, rfl⟩ := List.mem_map.mp hmem
      obtain ⟨u, hget, h⟩ := Dict.mirrored hnames hlen hall g hg
      have hvalue : u ∈ Dict.values _ := List.mem_map_of_mem (Dict.mem_of_get? hget)
      exact ⟨u, List.mem_append_left _ hvalue, h⟩
    · cases hadd with
      | flag _ hb =>
        rw [Additional.inner_of_isOpen hb] at hmem
        cases hmem
      | following h =>
        obtain rfl := List.mem_singleton.mp hmem
        exact ⟨_, List.mem_append_right _ (List.mem_singleton_self _), h⟩
  | anyOf _ hright => exact hright v hv

theorem SchemaType.Matches.names {a b : SchemaType} (h : a.Matches R b)
    (hnames : (Schema.ofType a).propertyNames.Nodup) : (Schema.ofType b).propertyNames.Nodup := by
  cases h with
  | leaf _ => exact hnames
  | object hlen hall _ => exact Dict.nodup_of_found hnames hlen hall
  | _ => exact List.nodup_nil

end OneLevel

namespace Schema
variable {s t u : Schema}

theorem sizeOf_contents {a : SchemaType} (h : u ∈ a.contents) : sizeOf u < sizeOf a := by
  cases a with
  | array items =>
    cases items with
    | none => cases h
    | some items =>
      obtain rfl := List.mem_singleton.mp h
      simp only [SchemaType.array.sizeOf_spec, Option.some.sizeOf_spec]
      omega
  | object properties additional =>
    simp only [SchemaType.object.sizeOf_spec]
    rcases List.mem_append.mp h with hmem | hmem
    · obtain ⟨f, hf, rfl⟩ := List.mem_map.mp hmem
      have hlt : sizeOf f.2 < sizeOf properties := Dict.sizeOf_lt_of_mem (k := f.1) hf
      omega
    · cases additional with
      | following v =>
        obtain rfl := List.mem_singleton.mp hmem
        simp only [Additional.following.sizeOf_spec]
        omega
      | _ => cases hmem
  | anyOf alternatives =>
    have hlt := List.sizeOf_lt_of_mem (show u ∈ alternatives from h)
    simp only [SchemaType.anyOf.sizeOf_spec]
    omega
  | _ => cases h

theorem sizeOf_inner (h : u ∈ s.type.inner) : u = any ∨ sizeOf u < sizeOf s := by
  refine (SchemaType.inner_cases h).imp_right fun h => ?_
  obtain ⟨title, description, fallback, type, extra⟩ := s
  have hlt := sizeOf_contents h
  rw [Schema.type] at hlt
  simp only [mk.sizeOf_spec]
  omega

/-- What holds of a schema as soon as it holds of the schemas inside holds of all schemas. -/
theorem inner_induction {P : Schema → Prop} (step : ∀ s, (∀ u ∈ s.type.inner, P u) → P s)
    (s : Schema) : P s := by
  apply step
  intro u hu
  rcases sizeOf_inner hu with rfl | hlt
  · apply step
    intro v hv
    cases hv
  · exact inner_induction step u
termination_by sizeOf s

theorem self_mem_nodes (s : Schema) : s ∈ s.nodes := by
  cases s
  exact List.mem_cons_self

theorem nodes_any : any.nodes = [any] := rfl

/-- A node of a schema is the schema itself or a node of a schema inside. -/
theorem mem_nodes_cases {n : Schema} (h : n ∈ s.nodes) : n = s ∨ ∃ u ∈ s.type.inner, n ∈ u.nodes := by
  obtain ⟨title, description, fallback, type, extra⟩ := s
  refine (List.mem_cons.mp h).imp_right fun h => ?_
  obtain ⟨u, hu, hn⟩ := mem_nodesOfType.mp h
  exact ⟨u, SchemaType.inner_of_contents hu, hn⟩

/-- What holds of all nodes of a schema holds of the nodes of the schemas inside. -/
theorem nodes_of_inner {Q : Schema → Prop} (hany : Q any) (h : ∀ n ∈ s.nodes, Q n)
    (hu : u ∈ s.type.inner) : ∀ n ∈ u.nodes, Q n := by
  rcases SchemaType.inner_cases hu with rfl | hu
  · rw [nodes_any]
    exact List.forall_mem_singleton.mpr hany
  · obtain ⟨title, description, fallback, type, extra⟩ := s
    intro n hn
    exact (List.forall_mem_cons.mp h).2 n (mem_nodesOfType.mpr ⟨u, hu, hn⟩)

/-- No object of the schema, at any depth, names a property twice. -/
def NamesOnce (s : Schema) : Prop := ∀ n ∈ s.nodes, n.propertyNames.Nodup

instance (s : Schema) : Decidable s.NamesOnce :=
  inferInstanceAs (Decidable (∀ n ∈ s.nodes, n.propertyNames.Nodup))

theorem NamesOnce.names (h : s.NamesOnce) : (ofType s.type).propertyNames.Nodup :=
  h s (self_mem_nodes s)

theorem NamesOnce.inner (h : s.NamesOnce) (hu : u ∈ s.type.inner) : u.NamesOnce :=
  nodes_of_inner (Q := fun n => n.propertyNames.Nodup) List.nodup_nil h hu

/-- No object names a property twice if the schema does not and none of the schemas inside does. -/
theorem namesOnce_iff : s.NamesOnce ↔
    s.propertyNames.Nodup ∧ ∀ u ∈ s.type.inner, u.NamesOnce := by
  constructor
  · exact fun h => ⟨h s (self_mem_nodes s), fun u hu => h.inner hu⟩
  · rintro ⟨hnames, hinner⟩ n hn
    rcases mem_nodes_cases hn with rfl | ⟨u, hu, hn⟩
    · exact hnames
    · exact hinner u hu n hn

theorem sameType_eq (s t : Schema) : sameType s t = sameTypeOf s.type t.type := by
  cases s
  rw [sameType, type]

theorem sameType_any : sameType any t = t.type.isAny := by
  rw [any, ofType, sameType]
  cases t.type <;> simp [sameTypeOf, SchemaType.isAny]

theorem sameTypeOf_array {i j : Option Schema} :
    sameTypeOf (.array i) (.array j) = sameType (itemsOrAny i) (itemsOrAny j) := by
  cases i with
  | none => rw [sameTypeOf, itemsOrAny.eq_2, sameType_any]
  | some x => rw [sameTypeOf, itemsOrAny.eq_1]

theorem allSame_iff {ps qs : Dict Schema} : allSame ps qs = true ↔
    ∀ f ∈ ps, ∃ t, Dict.get? qs f.1 = some t ∧ sameType f.2 t = true := by
  induction ps with
  | nil => simp [allSame]
  | cons f rest ih =>
    obtain ⟨key, s⟩ := f
    simp only [allSame, Bool.and_eq_true, ih, List.forall_mem_cons]
    refine and_congr_left fun _ => ?_
    cases Dict.get? qs key <;> simp

theorem allFound_iff {xs ys : List Schema} : allFound xs ys = true ↔
    ∀ x ∈ xs, ∃ y ∈ ys, sameType x y = true := by
  induction xs with
  | nil => simp [allFound]
  | cons x rest ih => simp [allFound, ih]

theorem anyFinds_iff {xs : List Schema} {y : Schema} : anyFinds xs y = true ↔
    ∃ x ∈ xs, sameType x y = true := by
  induction xs with
  | nil => simp [anyFinds]
  | cons x rest ih => simp [anyFinds, ih]

theorem sameTypeAdditional_iff {a b : Additional} : sameTypeAdditional a b = true ↔
    a.Matches (fun s t => sameType s t = true) b := by
  constructor
  · intro h
    cases a with
    | unspecified =>
      cases b with
      | following t => simp [sameTypeAdditional] at h
      | unspecified => exact .flag rfl rfl
      | allowed y =>
        obtain rfl : y = true := by simpa [sameTypeAdditional] using h
        exact .flag rfl rfl
    | allowed x =>
      cases b with
      | following t => simp [sameTypeAdditional] at h
      | unspecified =>
        obtain rfl : x = true := by simpa [sameTypeAdditional] using h
        exact .flag rfl rfl
      | allowed y =>
        obtain rfl : x = y := by simpa [sameTypeAdditional] using h
        exact .flag rfl rfl
    | following s =>
      cases b with
      | following t => exact .following (by simpa [sameTypeAdditional] using h)
      | _ => simp [sameTypeAdditional] at h
  · intro h
    cases h with
    | following h => simpa [sameTypeAdditional] using h
    | flag ha hb => cases a <;> cases b <;> simp_all [Additional.isOpen?, sameTypeAdditional]

/-- One level of the comparison. -/
theorem sameTypeOf_iff {a b : SchemaType} : sameTypeOf a b = true ↔
    a.Matches (fun s t => sameType s t = true) b := by
  constructor
  · intro h
    cases a with
    | array i =>
      cases b with
      | array j => exact .array (sameTypeOf_array ▸ h)
      | _ => simp [sameTypeOf] at h
    | object ps c =>
      cases b with
      | object qs d =>
        simp only [sameTypeOf, Bool.and_eq_true, beq_iff_eq] at h
        exact .object h.1.1 (allSame_iff.mp h.1.2) (sameTypeAdditional_iff.mp h.2)
      | _ => simp [sameTypeOf] at h
    | anyOf xs =>
      cases b with
      | anyOf ys =>
        simp only [sameTypeOf, Bool.and_eq_true, List.all_eq_true] at h
        exact .anyOf (allFound_iff.mp h.1) fun y hy => anyFinds_iff.mp (h.2 y hy)
      | _ => simp [sameTypeOf] at h
    | _ => cases b <;> first | exact .leaf rfl | simp [sameTypeOf] at h
  · intro h
    cases h with
    | leaf h => cases a <;> simp_all [SchemaType.isLeaf, sameTypeOf]
    | array h => rw [sameTypeOf_array, h]
    | object hlen hnames hadd =>
      simp only [sameTypeOf, Bool.and_eq_true, beq_iff_eq]
      exact ⟨⟨hlen, allSame_iff.mpr hnames⟩, sameTypeAdditional_iff.mpr hadd⟩
    | anyOf hleft hright =>
      simp only [sameTypeOf, Bool.and_eq_true, List.all_eq_true]
      exact ⟨allFound_iff.mpr hleft, fun y hy => anyFinds_iff.mpr (hright y hy)⟩

theorem sameType_iff : sameType s t = true ↔
    s.type.Matches (fun s t => sameType s t = true) t.type := by
  rw [sameType_eq, sameTypeOf_iff]

theorem NamesOnce.sameType_refl (h : s.NamesOnce) : sameType s s = true := by
  induction s using inner_induction with
  | step s ih => exact sameType_iff.mpr (.refl h.names fun u hu => ih u hu (h.inner hu))

theorem NamesOnce.sameType_symm (hs : s.NamesOnce) (h : sameType s t = true) :
    sameType t s = true := by
  induction s using inner_induction generalizing t with
  | step s ih =>
    rw [sameType_iff] at h ⊢
    exact h.symm hs.names fun u hu v huv => ih u hu (hs.inner hu) huv

theorem sameType_trans (h : sameType s t = true) (k : sameType t u = true) :
    sameType s u = true := by
  induction s using inner_induction generalizing t u with
  | step s ih =>
    rw [sameType_iff] at h k ⊢
    exact h.trans (fun x hx y z hxy hyz => ih x hx hxy hyz) k

/-- Schemas of one type are alike in that no object names a property twice. -/
theorem NamesOnce.of_sameType (hs : s.NamesOnce) (h : sameType s t = true) : t.NamesOnce := by
  induction s using inner_induction generalizing t with
  | step s ih =>
    have hlevel := sameType_iff.mp h
    refine namesOnce_iff.mpr ⟨hlevel.names hs.names, fun v hv => ?_⟩
    obtain ⟨u, hu, huv⟩ := hlevel.exists_inner hs.names hv
    exact ih u hu (hs.inner hu) huv

/-- Among schemas in which no object names a property twice, having the same type is an equivalence. -/
theorem sameType_equivalence :
    Equivalence fun s t : {s : Schema // s.NamesOnce} => sameType s.1 t.1 = true where
  refl s := s.2.sameType_refl
  symm h := NamesOnce.sameType_symm (Subtype.property _) h
  trans := sameType_trans

end Schema
end AgentGraph
