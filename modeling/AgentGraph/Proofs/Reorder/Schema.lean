import AgentGraph.Proofs.Reorder.Runs
import AgentGraph.Proofs.Reorder.Tree
import AgentGraph.Proofs.Schema.Cast
import AgentGraph.Proofs.Schema.RoundTrip
/-!
# Schemas read from trees with their keys in another order

What can be read as a schema can be read so with its keys in another order, and it becomes an equal
schema. The same holds for properties and for lists of them.
-/
namespace AgentGraph
open List (Forall₂)

namespace Schema
variable {t u : Tree} {d e : Dict Tree}

/-- Trees that are read as equal schemas, if the first is read at all. -/
abbrev ReadsAs (t u : Tree) : Prop :=
  Carried (fun s s' => s.same s' = true) (ofTree t) (ofTree u)

theorem carried_ofTrees {ts us : List Tree} (h : Forall₂ ReadsAs ts us) :
    Carried (fun xs ys => sameList xs ys = true) (ofTrees ts) (ofTrees us) := by
  induction h with
  | nil =>
    rw [ofTrees]
    exact .ok (by rw [sameList])
  | cons hfirst _ ih =>
    rw [ofTrees, ofTrees]
    refine hfirst.bind fun s s' hs => ih.bind fun xs ys hxs => .ok ?_
    rw [sameList, hs, hxs]
    rfl

/-- Named schemas are read one by one, from the entries whose names are not reserved. -/
theorem ofEntries_ok_iff {ps : Dict Schema} : ofEntries d = .ok ps ↔
    Forall₂ (fun f p => f.1 = p.1 ∧ ofTree f.2 = .ok p.2)
      (d.filter fun f => !isReservedKey f.1) ps := by
  induction d generalizing ps with
  | nil =>
    rw [ofEntries, List.filter_nil, List.forall₂_nil_left_iff]
    exact ⟨fun h => (Except.ok.inj h).symm, fun h => congrArg _ h.symm⟩
  | cons f rest ih =>
    obtain ⟨key, t⟩ := f
    rw [ofEntries, List.filter_cons]
    split
    · rename_i hkey
      simp only [hkey, Bool.not_true, Bool.false_eq_true, if_false]
      exact ih
    · rename_i hkey
      simp only [hkey, Bool.not_false, if_true, List.forall₂_cons_left_iff]
      constructor
      · intro h
        obtain ⟨s, hs, h⟩ := bind_ok h
        obtain ⟨qs, hqs, h⟩ := bind_ok h
        cases h
        exact ⟨(key, s), qs, ⟨rfl, hs⟩, ih.mp hqs, rfl⟩
      · rintro ⟨⟨_, s⟩, qs, ⟨rfl, hs⟩, hqs, rfl⟩
        rw [hs, ih.mpr hqs]
        rfl

/-- Named schemas that are equal name by name, in whichever order. -/
def SameNamed (ps qs : Dict Schema) : Prop :=
  Dict.Reordered (fun s s' => s.same s' = true) ps qs

theorem carried_ofEntries (h : Dict.Reordered ReadsAs d e) :
    Carried SameNamed (ofEntries d) (ofEntries e) := by
  intro ps hps
  rw [ofEntries_ok_iff] at hps
  have hread : ∀ (f g : String × Tree) (p : String × Schema), f.1 = g.1 ∧ ReadsAs f.2 g.2 →
      f.1 = p.1 ∧ ofTree f.2 = .ok p.2 → ∃ q : String × Schema,
        (g.1 = q.1 ∧ ofTree g.2 = .ok q.2) ∧ p.1 = q.1 ∧ p.2.same q.2 = true := by
    intro f g p hfg hfp
    obtain ⟨s', hs', hsame⟩ := hfg.2 p.2 hfp.2
    exact ⟨(g.1, s'), ⟨rfl, hs'⟩, hfp.1.symm.trans hfg.1, hsame⟩
  obtain ⟨qs, hqs, hsame⟩ := (h.filter fun key => !isReservedKey key).made hps hread
  exact ⟨qs, ofEntries_ok_iff.mpr hqs, hsame⟩

/-- What was found below two nodes is read alike. -/
structure Parts.Carried (p q : Parts) : Prop where
  items : Option.Rel (AgentGraph.Carried fun s s' : Schema => s.same s' = true) p.items q.items
  properties : Option.Rel (AgentGraph.Carried fun ps qs : Dict Schema =>
    SameNamed ps qs ∧ ps.keys.Nodup) p.properties q.properties
  additional : AgentGraph.Carried (fun a b : Additional => sameAdditional a b = true)
    p.additional q.additional

/-- Two types of which equality holds. -/
abbrev SameType (a b : SchemaType) : Prop := sameTypePart a b = true

theorem sameType_leaf {a : SchemaType} (h : a.isLeaf = true) : SameType a a := by
  cases a with
  | array _ | object _ _ | anyOf _ => cases h
  | _ => rw [SameType, sameTypePart]

theorem same_ofType {a b : SchemaType} (h : SameType a b) : (ofType a).same (ofType b) = true :=
  same_iff.mpr ⟨rfl, rfl, nofun, fun _ => rfl, h, rfl⟩

theorem sameType_object {ps qs : Dict Schema} {a b : Additional} (h : SameNamed ps qs)
    (hps : ps.keys.Nodup) (hab : sameAdditional a b = true) :
    SameType (.object ps a) (.object qs b) := by
  rw [SameType, sameTypePart, Bool.and_eq_true, Bool.and_eq_true, beq_iff_eq, sameProperties_iff]
  exact ⟨⟨h.length_eq, h.found hps⟩, hab⟩

section Parts
variable {p q : Parts} (h : p.Carried q)
include h

theorem carried_ofTypeName (name : String) :
    Carried SameType (ofTypeName p name) (ofTypeName q name) := by
  unfold ofTypeName
  split
  · exact .ok (sameType_leaf rfl)
  · exact .ok (sameType_leaf rfl)
  · exact .ok (sameType_leaf rfl)
  · exact .ok (sameType_leaf rfl)
  · exact .ok (sameType_leaf rfl)
  · have hitems := h.items
    generalize p.items = items at hitems
    generalize q.items = items' at hitems
    cases hitems with
    | none => exact .ok (by rw [SameType, sameTypePart])
    | some hread => exact hread.bind fun s s' hs => .ok (by rwa [SameType, sameTypePart])
  · have hproperties := h.properties
    generalize p.properties = properties at hproperties
    generalize q.properties = properties' at hproperties
    cases hproperties with
    | none =>
      refine h.additional.bind fun a b hab => .ok ?_
      exact sameType_object (.of_forall₂ .nil) List.nodup_nil hab
    | some hread =>
      refine hread.bind fun ps qs hps => h.additional.bind fun a b hab => .ok ?_
      exact sameType_object hps.1 hps.2 hab
  · exact .error

theorem carried_ofTypeNames {names others : List Tree} (hnames : Forall₂ Tree.Reordered names others) :
    Carried (fun xs ys => sameList xs ys = true) (ofTypeNames p names) (ofTypeNames q others) := by
  induction hnames with
  | nil => exact .ok (by rw [sameList])
  | @cons name other rest others hname _ ih =>
    cases name with
    | string text =>
      obtain rfl := (Tree.reordered_scalar rfl).mp hname
      rw [ofTypeNames, ofTypeNames]
      refine (carried_ofTypeName h text).bind fun a b hab => ih.bind fun xs ys hxs => .ok ?_
      rw [sameList, same_ofType hab, hxs]
      rfl
    | _ => exact .error

theorem carried_readNamedType {named other : Option Tree}
    (hnamed : Option.Rel Tree.Reordered named other) :
    Carried SameType (readNamedType p named) (readNamedType q other) := by
  cases hnamed with
  | none => exact .ok (sameType_leaf rfl)
  | @some t u htu =>
    cases t with
    | string name =>
      obtain rfl := (Tree.reordered_scalar rfl).mp htu
      exact carried_ofTypeName h name
    | list names =>
      obtain ⟨others, rfl, hnames⟩ := Tree.reordered_list.mp htu
      refine (carried_ofTypeNames h hnames).bind fun xs ys hxs => .ok ?_
      rwa [SameType, sameTypePart]
    | _ => exact .error

end Parts

section Node
variable (h : Dict.Reordered Tree.Reordered d e) (hd : d.keys.Nodup)
include h hd

theorem carried_readTitle : Carried (· = ·) (readTitle d) (readTitle e) := by
  have hrel := h.get? hd "title"
  unfold readTitle
  generalize Dict.get? d "title" = title at hrel
  generalize Dict.get? e "title" = title' at hrel
  cases hrel with
  | none => exact .ok rfl
  | @some t u htu =>
    cases t with
    | null =>
      obtain rfl := (Tree.reordered_scalar rfl).mp htu
      exact .ok rfl
    | string text =>
      obtain rfl := (Tree.reordered_scalar rfl).mp htu
      exact fun a ha => ⟨a, ha, rfl⟩
    | _ => exact .error

theorem carried_readDescription : Carried (· = ·) (readDescription d) (readDescription e) := by
  have hrel := h.get? hd "description"
  unfold readDescription
  generalize Dict.get? d "description" = description at hrel
  generalize Dict.get? e "description" = description' at hrel
  cases hrel with
  | none => exact .ok rfl
  | @some t u htu =>
    cases t with
    | null =>
      obtain rfl := (Tree.reordered_scalar rfl).mp htu
      exact .ok rfl
    | string text =>
      obtain rfl := (Tree.reordered_scalar rfl).mp htu
      exact .ok rfl
    | _ => exact .error

end Node

theorem sameDict_readExtra (h : Dict.Reordered Tree.Reordered d e) (hd : (Tree.map d).Proper) :
    Tree.sameDict (readExtra d) (readExtra e) = true := by
  have hfilter := Tree.reordered_map.mpr ⟨_, rfl, h.filter fun key => !knownKeywords.contains key⟩
  have hproper : (Tree.map (d.filter fun f => !knownKeywords.contains f.1)).Proper := by
    rw [Tree.proper_map] at hd ⊢
    refine ⟨?_, fun f hf => hd.2 f (List.mem_of_mem_filter hf)⟩
    have hsub : (Dict.keys (d.filter fun f => !knownKeywords.contains f.1)).Sublist d.keys :=
      List.filter_sublist.map _
    exact hsub.nodup hd.1
  exact hfilter.strip.same hproper.strip

/-- All that stands below a mapping is read alike with its keys in another order. -/
def ReadsBelow (d : Dict Tree) : Prop :=
  ∀ t : Tree, sizeOf t < sizeOf (Tree.map d) → t.Proper → ∀ u, t.Reordered u → ReadsAs t u

section Below
variable (hbelow : ReadsBelow d) (h : Dict.Reordered Tree.Reordered d e) (hd : (Tree.map d).Proper)
include hbelow h hd

theorem rel_alternatives : Option.Rel (Carried fun xs ys : List Schema => sameList xs ys = true)
    (alternatives? d) (alternatives? e) := by
  have hrel := Tree.rel_get? h hd "anyOf"
  rw [alternatives?_eq, alternatives?_eq]
  generalize Dict.get? d "anyOf" = found at hrel
  generalize Dict.get? e "anyOf" = found' at hrel
  cases hrel with
  | none => exact .none
  | @some t u htu =>
    obtain ⟨hsize, hproper, hreordered⟩ := htu
    cases t with
    | list items =>
      obtain ⟨others, rfl, hitems⟩ := Tree.reordered_list.mp hreordered
      refine .some (carried_ofTrees ?_)
      refine ((List.forall₂_and_left (p := (· ∈ items)) _ _).mpr ⟨fun _ => id, hitems⟩).imp ?_
      rintro t u ⟨hmem, htu⟩
      have hlt := List.sizeOf_lt_of_mem hmem
      simp only [Tree.list.sizeOf_spec] at hsize
      exact hbelow t (by omega) (Tree.proper_list.mp hproper t hmem) u htu
    | _ => exact .some .error

theorem rel_items : Option.Rel (Carried fun s s' : Schema => s.same s' = true)
    (items? d) (items? e) := by
  have hrel := Tree.rel_get? h hd "items"
  rw [items?_eq, items?_eq]
  generalize Dict.get? d "items" = found at hrel
  generalize Dict.get? e "items" = found' at hrel
  cases hrel with
  | none => exact .none
  | @some t u htu => exact .some (hbelow t htu.1 htu.2.1 u htu.2.2)

theorem rel_properties : Option.Rel (Carried fun ps qs : Dict Schema =>
    SameNamed ps qs ∧ ps.keys.Nodup) (properties? d) (properties? e) := by
  have hrel := Tree.rel_get? h hd "properties"
  rw [properties?_eq, properties?_eq]
  generalize Dict.get? d "properties" = found at hrel
  generalize Dict.get? e "properties" = found' at hrel
  cases hrel with
  | none => exact .none
  | @some t u htu =>
    obtain ⟨hsize, hproper, hreordered⟩ := htu
    cases t with
    | map named =>
      obtain ⟨others, rfl, hnamed⟩ := Tree.reordered_map.mp hreordered
      have hread : Dict.Reordered ReadsAs named others := hnamed.mono fun f hf u hfu => by
        have hlt := Dict.sizeOf_lt_of_mem hf
        simp only [Tree.map.sizeOf_spec] at hsize
        refine hbelow f.2 ?_ ((Tree.proper_map.mp hproper).2 f hf) u hfu
        simp only [Tree.map.sizeOf_spec]
        omega
      refine .some ((carried_ofEntries hread).mono fun ps qs hps hsame => ⟨hsame, ?_⟩)
      exact (ofEntries_ok hps).1.nodup hproper.1
    | _ => exact .some .error

theorem carried_additionalOf : Carried (fun a b : Additional => sameAdditional a b = true)
    (additionalOf d) (additionalOf e) := by
  have hrel := Tree.rel_get? h hd "additionalProperties"
  rw [additionalOf_eq, additionalOf_eq]
  generalize Dict.get? d "additionalProperties" = found at hrel
  generalize Dict.get? e "additionalProperties" = found' at hrel
  cases hrel with
  | none => exact .ok (by rw [sameAdditional])
  | @some t u htu =>
    obtain ⟨hsize, hproper, hreordered⟩ := htu
    have hread := hbelow t hsize hproper u hreordered
    cases t with
    | bool b =>
      obtain rfl := (Tree.reordered_scalar rfl).mp hreordered
      exact .ok (by rw [sameAdditional, BEq.rfl])
    | map f =>
      obtain ⟨g, rfl, -⟩ := Tree.reordered_map.mp hreordered
      exact hread.bind fun s s' hs => .ok (by rwa [sameAdditional])
    | _ => exact .error

theorem carried_readType : Carried SameType (readType d) (readType e) := by
  have halternatives := rel_alternatives hbelow h hd
  have hparts : Parts.Carried ⟨items? d, properties? d, additionalOf d⟩
      ⟨items? e, properties? e, additionalOf e⟩ :=
    ⟨rel_items hbelow h hd, rel_properties hbelow h hd, carried_additionalOf hbelow h hd⟩
  unfold readType
  generalize alternatives? d = alternatives at halternatives
  generalize alternatives? e = others at halternatives
  cases halternatives with
  | none => exact carried_readNamedType hparts (h.get? (Tree.proper_map.mp hd).1 "type")
  | some hread => exact hread.bind fun xs ys hxs => .ok (by rwa [SameType, sameTypePart])

/-- A node is read alike if what stands below it is. -/
theorem readsAs_map : ReadsAs (.map d) (.map e) := by
  intro s hs
  have hnodup := (Tree.proper_map.mp hd).1
  obtain ⟨title, description, type, hrefused, htitle, hdescription, htype, rfl⟩ := ofTree_map_ok hs
  have hrefused' : refusedCombinators.find? (Dict.has e) = none := by
    have hhas : Dict.has e = Dict.has d := funext fun key => (h.has_eq key).symm
    rw [hhas, hrefused]
  obtain ⟨_, htitle', rfl⟩ := carried_readTitle h hnodup title htitle
  obtain ⟨_, hdescription', rfl⟩ := carried_readDescription h hnodup description hdescription
  obtain ⟨type', htype', hsame⟩ := carried_readType hbelow h hd type htype
  refine ⟨_, ofTree_map hrefused' htitle' hdescription' htype', ?_⟩
  have hdefault := Tree.rel_get? h hd "default"
  generalize Dict.get? d "default" = fallback at hdefault
  generalize Dict.get? e "default" = fallback' at hdefault
  refine same_iff.mpr ⟨rfl, rfl, ?_, ?_, hsame, sameDict_readExtra h hd⟩
  · rintro t ht
    cases hdefault with
    | none => cases ht
    | some htu =>
      cases ht
      exact ⟨_, rfl, htu.2.2.strip.same htu.2.1.strip⟩
  · intro hnone
    cases hdefault with
    | none => rfl
    | some _ => cases hnone

end Below

/-- What is read from a tree is read from it with its keys in another order, as an equal schema. -/
theorem carried_ofTree {t u : Tree} (ht : t.Proper) (h : t.Reordered u) : ReadsAs t u := by
  induction hsize : sizeOf t using Nat.strongRecOn generalizing t u with
  | ind n ih =>
    subst hsize
    cases t with
    | map d =>
      obtain ⟨e, rfl, hde⟩ := Tree.reordered_map.mp h
      exact readsAs_map (fun t hlt ht u htu => ih (sizeOf t) hlt ht htu rfl) hde ht
    | _ =>
      intro s hs
      rw [ofTree] at hs
      · cases hs
      · rintro d ⟨⟩

mutual
/-- The titles of a readable schema pass their check again. -/
theorem checkNode_of_readable {s : Schema} (h : s.Readable) : checkNode s = .ok () := by
  match s with
  | mk title _ _ type _ =>
    obtain ⟨htitle, -, -, -, -, htype⟩ := h
    rw [checkNode, checkNestedType_of_readable htype]
    cases title with
    | none => rfl
    | some text =>
      have hcheck : checkTitle text = .ok () := if_pos (htitle text rfl)
      rw [checkOptionalTitle, hcheck]
      rfl
theorem checkNestedType_of_readable {type : SchemaType} (h : readableType type) :
    checkNestedType type = .ok () := by
  match type with
  | .array (some items) =>
    rw [checkNestedType]
    exact checkNode_of_readable h
  | .anyOf alternatives =>
    rw [checkNestedType]
    exact checkNodes_of_readable h
  | .object properties additional =>
    obtain ⟨-, hproperties, hadditional⟩ := h
    match additional with
    | .following s =>
      rw [checkNestedType, checkProperties_of_readable hproperties]
      exact checkNode_of_readable hadditional
    | .unspecified | .allowed _ =>
      rw [checkNestedType, checkProperties_of_readable hproperties]
      · rfl
      · nofun
  | .any | .null | .boolean | .integer | .number | .string | .array none =>
    rw [checkNestedType] <;> nofun
theorem checkNodes_of_readable {xs : List Schema} (h : readableList xs) :
    checkNodes xs = .ok () := by
  match xs with
  | [] => rw [checkNodes]
  | s :: rest =>
    rw [checkNodes, checkNode_of_readable h.1, checkNodes_of_readable h.2]
    rfl
theorem checkProperties_of_readable {ps : List (String × Schema)} (h : readableProperties ps) :
    checkProperties ps = .ok () := by
  match ps with
  | [] => rw [checkProperties]
  | (_, s) :: rest =>
    rw [checkProperties, checkNode_of_readable h.2.1, checkProperties_of_readable h.2.2]
    rfl
end

theorem properSchemas_iff {xs : List Schema} : properSchemas xs ↔ ∀ s ∈ xs, s.Proper := by
  induction xs with
  | nil => simp [properSchemas]
  | cons s rest ih => simp [properSchemas, ih]

theorem properProperties_iff {ps : Dict Schema} :
    properProperties ps ↔ ∀ f ∈ ps, f.2.Proper := by
  induction ps with
  | nil => simp [properProperties]
  | cons f rest ih => simp [properProperties, ih]

theorem Proper.type {s : Schema} (h : s.Proper) : properType s.type := by
  cases s
  exact h.2.1

theorem Proper.inner {s x : Schema} (h : s.Proper) (hx : x ∈ s.type.inner) : x.Proper := by
  have htype := h.type
  generalize s.type = a at htype hx
  cases a with
  | array items =>
    obtain rfl := List.mem_singleton.mp hx
    cases items with
    | none => exact ⟨nofun, trivial, List.nodup_nil, trivial⟩
    | some items => exact htype
  | object ps b =>
    rcases List.mem_append.mp hx with hmem | hmem
    · obtain ⟨f, hf, rfl⟩ := List.mem_map.mp hmem
      exact properProperties_iff.mp htype.2.1 f hf
    · cases b with
      | following v =>
        obtain rfl := List.mem_singleton.mp hmem
        exact htype.2.2
      | _ => cases hmem
  | anyOf xs => exact properSchemas_iff.mp htype x hx
  | _ => cases hx

/-- No object of a proper schema names a property twice. -/
theorem Proper.namesOnce {s : Schema} (h : s.Proper) : s.NamesOnce := by
  induction s using inner_induction with
  | step s ih =>
    refine namesOnce_iff.mpr ⟨?_, fun x hx => ih x hx (h.inner hx)⟩
    have htype := h.type
    rw [propertyNames]
    generalize s.type = a at htype
    cases a with
    | object ps b => exact htype.1
    | _ => exact List.nodup_nil

end Schema

namespace Property
variable {t u : Tree}

/-- Equal properties, in the first of which no object names a property twice. -/
structure Twins (p q : Property) : Prop where
  same : p.same q = true
  names : p.schema.NamesOnce

/-- A readable schema is made a property wherever an equal one was. -/
theorem ofSchema_of_same {s s' : Schema} {p : Property} (h : ofSchema s = .ok p)
    (hsame : s.same s' = true) (hread : s'.Readable) : ofSchema s' = .ok ⟨s'⟩ := by
  have htitle := (Schema.same_iff.mp hsame).1
  have hnested : s'.checkNested = .ok () := by
    cases s'
    rw [Schema.checkNested]
    exact Schema.checkNestedType_of_readable hread.type
  unfold ofSchema at h ⊢
  rw [← htitle, hnested]
  split at h
  · cases h
  · rename_i title hfound
    obtain ⟨_, hcheck, -⟩ := bind_ok h
    rw [hcheck]
    rfl

theorem carried_ofTree (ht : t.Proper) (h : t.Reordered u) :
    Carried Twins (ofTree t) (ofTree u) := by
  intro p hp
  obtain ⟨s, hs, hp⟩ := bind_ok hp
  obtain ⟨s', hs', hsame⟩ := Schema.carried_ofTree ht h s hs
  have hread := Schema.readable_ofTree (h.proper ht) hs'
  refine ⟨⟨s'⟩, ?_, ?_⟩
  · rw [ofTree, hs']
    exact ofSchema_of_same hp hsame hread
  · obtain rfl := ofSchema_ok hp
    exact ⟨hsame, (Schema.readable_ofTree ht hs).namesOnce⟩

theorem carried_ofTrees {ts us : List Tree} (ht : ∀ t ∈ ts, t.Proper)
    (h : Forall₂ Tree.Reordered ts us) : Carried (Forall₂ Twins) (ofTrees ts) (ofTrees us) := by
  induction h with
  | nil => exact .ok .nil
  | cons htu _ ih =>
    obtain ⟨hfirst, hrest⟩ := List.forall_mem_cons.mp ht
    refine (carried_ofTree hfirst htu).bind fun p q hpq => (ih hrest).bind fun ps qs hps => ?_
    exact .ok (.cons hpq hps)

/-- Whether titles occur twice is seen in the titles alone. -/
theorem checkTitlesFrom_congr {list : String} {ps qs : List Property} (h : Forall₂ Twins ps qs)
    (seen : List String) : checkTitlesFrom list seen ps = checkTitlesFrom list seen qs := by
  induction h generalizing seen with
  | nil => rfl
  | cons hpq _ ih => rw [checkTitlesFrom, checkTitlesFrom, title_eq_of_same hpq.same, ih]

end Property

/-- Inputs and outputs that are twins one by one. -/
structure Slots.Twins (s t : Slots) : Prop where
  inputs : Forall₂ Property.Twins s.inputs t.inputs
  outputs : Forall₂ Property.Twins s.outputs t.outputs

namespace Slots

theorem Twins.same {s t : Slots} (h : s.Twins t) : s.same t = true := by
  rw [Slots.same, Bool.and_eq_true, Property.sameList_iff, Property.sameList_iff]
  exact ⟨h.inputs.imp fun _ _ => Property.Twins.same, h.outputs.imp fun _ _ => Property.Twins.same⟩

theorem carried_of {ps qs ps' qs' : List Property} (hps : Forall₂ Property.Twins ps ps')
    (hqs : Forall₂ Property.Twins qs qs') : Carried Twins (of ps qs) (of ps' qs') := by
  unfold of Property.checkTitles
  rw [Property.checkTitlesFrom_congr hps, Property.checkTitlesFrom_congr hqs]
  intro s hs
  obtain ⟨_, hins, hs⟩ := bind_ok hs
  obtain ⟨_, houts, hs⟩ := bind_ok hs
  obtain rfl := Except.ok.inj hs
  refine ⟨⟨ps', qs'⟩, ?_, hps, hqs⟩
  rw [hins, houts]
  rfl

end Slots
end AgentGraph
