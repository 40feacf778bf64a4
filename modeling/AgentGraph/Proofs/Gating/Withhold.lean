import AgentGraph.Proofs.Catalog
import AgentGraph.Proofs.Dict
import AgentGraph.Save
/-!
# A document as an older release has it

Given a document of builtin kinds, the document that an older release would have: in every component
record, be it the root, at a place where a component is used, or carried for others, the fields of its
type that the older release does not have yet are left out. Everything else stands as it stood. The stamp
of the release is replaced at the root.
-/
namespace AgentGraph

namespace Dict
variable {α : Type} {keep : String → Bool} {g : String → α → α} {d e : Dict α} {key : String} {v : α}

/-- Drops entries by their keys and changes the values of the others. -/
def amend (keep : String → Bool) (g : String → α → α) (d : Dict α) : Dict α :=
  d.filterMap fun p => if keep p.1 then some (p.1, g p.1 p.2) else none

theorem amend_cons (p : String × α) (d : Dict α) : amend keep g (p :: d) =
    if keep p.1 then (p.1, g p.1 p.2) :: amend keep g d else amend keep g d := by
  unfold amend
  rw [List.filterMap_cons]
  split
  · rename_i hnone
    rw [if_neg fun hkeep => by simp [hkeep] at hnone]
  · rename_i hsome
    split at hsome
    · rename_i hkeep
      rw [if_pos hkeep, Option.some.inj hsome]
    · cases hsome

theorem get?_amend : (amend keep g d).get? key =
    if keep key then (d.get? key).map (g key) else none := by
  induction d with
  | nil => simp [amend]
  | cons p rest ih =>
    obtain ⟨k, v⟩ := p
    rw [amend_cons]
    by_cases hk : k = key
    · subst hk
      cases hkeep : keep k with
      | true => simp [get?]
      | false => simpa [hkeep] using ih
    · cases hkeep : keep k with
      | true => simp [get?, hk, ih]
      | false => simp [get?, hk, ih]

theorem amend_put (hkeep : keep key = true) :
    amend keep g (put d key v) = put (amend keep g d) key (g key v) := by
  induction d with
  | nil => simp [put, amend, hkeep]
  | cons p rest ih =>
    obtain ⟨k, old⟩ := p
    rw [put]
    by_cases hk : k = key
    · subst hk
      simp [amend_cons, hkeep, put]
    · rw [if_neg hk, amend_cons, amend_cons, ih]
      split <;> simp [put, hk]

/-- What is put under a key that is dropped is dropped with it. -/
theorem amend_put_dropped (hkeep : keep key = false) :
    amend keep g (put d key v) = amend keep g d := by
  induction d with
  | nil => simp [put, amend, hkeep]
  | cons p rest ih =>
    obtain ⟨k, old⟩ := p
    rw [put]
    by_cases hk : k = key
    · subst hk
      simp [amend_cons, hkeep]
    · rw [if_neg hk, amend_cons, amend_cons, ih]

theorem amend_filter (test : String → Bool) :
    amend keep g (d.filter fun p => test p.1) = (amend keep g d).filter fun p => test p.1 := by
  induction d with
  | nil => rfl
  | cons p rest ih =>
    rw [List.filter_cons, amend_cons]
    cases htest : test p.1 with
    | true =>
      rw [if_pos rfl, amend_cons, ih]
      split <;> simp [htest]
    | false =>
      rw [if_neg Bool.false_ne_true, ih]
      split <;> simp [htest]

theorem amend_merge : amend keep g (merge d e) = merge (amend keep g d) (amend keep g e) := by
  unfold merge
  induction e generalizing d with
  | nil => rfl
  | cons p rest ih =>
    rw [List.foldl_cons, ih, amend_cons]
    cases hkeep : keep p.1 with
    | true => rw [if_pos rfl, List.foldl_cons, amend_put hkeep]
    | false => rw [if_neg Bool.false_ne_true, amend_put_dropped hkeep]

/-- Values under keys that are not there need not be treated alike. -/
theorem amend_congr {g' : String → α → α} (h : ∀ p ∈ d, g p.1 p.2 = g' p.1 p.2) :
    amend keep g d = amend keep g' d := by
  induction d with
  | nil => rfl
  | cons p rest ih =>
    obtain ⟨hp, hrest⟩ := List.forall_mem_cons.mp h
    rw [amend_cons, amend_cons, hp, ih hrest]

end Dict

namespace NamingMode

/-- The type of the component that a record is of; no type if it is no record. -/
def typeIn (naming : NamingMode) (record : Dict Tree) : String :=
  match Dict.get? record naming.protocol.componentType with
  | some (.string type) => type
  | _ => ""

/-- The key spells a field of the type that the release does not have yet. -/
def isGated (naming : NamingMode) (release : Release) (type key : String) : Bool :=
  (Builtin.fieldNames type).any fun field =>
    naming.toDocument field == key && !Policy.builtin.fieldAllowed type field release

/-- The key spells a field of the type where components are used. -/
def isUse (naming : NamingMode) (type key : String) : Bool :=
  (Builtin.componentFields type).any fun field => naming.toDocument field == key

section
variable (naming : NamingMode) (release : Release)

mutual
/-- What stands where a component is used, as the release has it: a record, a reference, or a list of
these. -/
def withhold : Tree → Tree
  | .map record => .map (withholdEntries (naming.typeIn record) record)
  | .list items => .list (withholdItems items)
  | t => t
/-- The same for the items of a list. -/
def withholdItems : List Tree → List Tree
  | [] => []
  | t :: rest => withhold t :: withholdItems rest
/-- The entries of a record of a type, without the fields that the release does not have yet. -/
def withholdEntries (type : String) : List (String × Tree) → List (String × Tree)
  | [] => []
  | (key, t) :: rest =>
    if naming.isGated release type key then withholdEntries type rest
    else
      (key,
        if naming.isUse type key then withhold t
        else if key = naming.protocol.referencedComponents then withholdCarried t
        else t) :: withholdEntries type rest
/-- What a record carries for others, as the release has it. -/
def withholdCarried : Tree → Tree
  | .map records => .map (withholdRecords records)
  | t => t
/-- The records that are carried, by id. -/
def withholdRecords : List (String × Tree) → List (String × Tree)
  | [] => []
  | (id, t) :: rest => (id, withhold t) :: withholdRecords rest
end

/-- The value of an entry of a record of a type, as the release has it. -/
def withholdAt (type key : String) (t : Tree) : Tree :=
  if naming.isUse type key then naming.withhold release t
  else if key = naming.protocol.referencedComponents then naming.withholdCarried release t
  else t

/-- The entries of a record, as the release has them. -/
def withholdRecord (record : Dict Tree) : Dict Tree :=
  naming.withholdEntries release (naming.typeIn record) record

/-- The value of a root entry, with the stamp of the release. -/
def stampAt (key : String) (t : Tree) : Tree :=
  if key = naming.protocol.version then .string release.name else t

/-- The stamp at the root replaced by that of the release. -/
def restamp : Tree → Tree
  | .map entries => .map (entries.map fun p => (p.1, naming.stampAt release p.1 p.2))
  | t => t

/-- A whole document, or a sidecar, as the release has it. -/
def asOf (document : Tree) : Tree := naming.restamp release (naming.withhold release document)

end

variable {naming : NamingMode} {release : Release} {type key : String} {t : Tree} {d : Dict Tree}

theorem withholdEntries_eq (type : String) (d : Dict Tree) :
    naming.withholdEntries release type d =
      Dict.amend (!naming.isGated release type ·) (naming.withholdAt release type) d := by
  induction d with
  | nil => rw [withholdEntries, Dict.amend, List.filterMap_nil]
  | cons p rest ih =>
    obtain ⟨key, t⟩ := p
    rw [withholdEntries, Dict.amend_cons, ih]
    cases naming.isGated release type key <;> rfl

theorem withholdRecords_eq (d : Dict Tree) :
    naming.withholdRecords release d = Dict.amend (fun _ => true) (fun _ => naming.withhold release) d := by
  induction d with
  | nil => rw [withholdRecords, Dict.amend, List.filterMap_nil]
  | cons p rest ih =>
    obtain ⟨id, t⟩ := p
    rw [withholdRecords, Dict.amend_cons, ih, if_pos rfl]

theorem withhold_map (record : Dict Tree) :
    naming.withhold release (.map record) = .map (naming.withholdRecord release record) := by
  rw [withhold, withholdRecord]

/-- A reference is what it is in every release. -/
theorem withhold_reference (id : Tree) :
    naming.withhold release (.map [(naming.protocol.componentRef, id)]) =
      .map [(naming.protocol.componentRef, id)] := by
  have htype : naming.typeIn [(naming.protocol.componentRef, id)] = "" := by
    cases naming <;> simp [typeIn, Dict.get?, protocol]
  have hcarried : naming.protocol.componentRef ≠ naming.protocol.referencedComponents := by
    cases naming <;> decide
  rw [withhold, htype]
  simp [withholdEntries, isGated, isUse, Builtin.fieldNames, Builtin.componentFields, hcarried]

/-- A key that every release has, under which nothing is used or carried. -/
structure Plain (naming : NamingMode) (release : Release) (type key : String) : Prop where
  kept : naming.isGated release type key = false
  unused : naming.isUse type key = false
  uncarried : key ≠ naming.protocol.referencedComponents

theorem Plain.withholdAt (h : naming.Plain release type key) (t : Tree) :
    naming.withholdAt release type key t = t := by
  rw [NamingMode.withholdAt, h.unused, if_neg Bool.false_ne_true, if_neg h.uncarried]

theorem componentFields_subset (htype : type ∈ Builtin.types) {field : String}
    (hfield : field ∈ Builtin.componentFields type) : field ∈ Builtin.fieldNames type := by
  have hall : ∀ type ∈ Builtin.types, ∀ field ∈ Builtin.componentFields type,
      field ∈ Builtin.fieldNames type := by decide +kernel
  exact hall type htype field hfield

theorem spelled_inj (htype : type ∈ Builtin.types) {field other : String}
    (hfield : field ∈ Builtin.fieldNames type) (hother : other ∈ Builtin.fieldNames type)
    (h : naming.toDocument other = naming.toDocument field) : other = field := by
  have hnodup := Builtin.nodup_recordKeys naming htype
  rw [Builtin.recordKeys, List.append_assoc] at hnodup
  exact List.inj_on_of_nodup_map (List.nodup_append.mp hnodup).1 hother hfield h

/-- How a field is spelled tells whether it is gated. -/
theorem isGated_spelled (htype : type ∈ Builtin.types) {field : String}
    (hfield : field ∈ Builtin.fieldNames type) :
    naming.isGated release type (naming.toDocument field) =
      !Policy.builtin.fieldAllowed type field release := by
  rw [Bool.eq_iff_iff, isGated, List.any_eq_true]
  constructor
  · rintro ⟨other, hother, h⟩
    simp only [Bool.and_eq_true, beq_iff_eq] at h
    rw [← spelled_inj htype hfield hother h.1]
    exact h.2
  · exact fun h => ⟨field, hfield, by simpa using h⟩

/-- How a field is spelled tells whether components are used there. -/
theorem isUse_spelled (htype : type ∈ Builtin.types) {field : String}
    (hfield : field ∈ Builtin.fieldNames type) :
    naming.isUse type (naming.toDocument field) = (Builtin.componentFields type).contains field := by
  rw [Bool.eq_iff_iff, isUse, List.any_eq_true, List.contains_iff_mem]
  constructor
  · rintro ⟨other, hother, h⟩
    rw [← spelled_inj htype hfield (componentFields_subset htype hother) (by simpa using h)]
    exact hother
  · exact fun h => ⟨field, h, by simp⟩

theorem spelled_not_name (htype : type ∈ Builtin.types) {field : String}
    (hfield : field ∈ Builtin.fieldNames type) :
    naming.toDocument field ∉ naming.protocol.names ++ Record.baseFields := by
  have hnodup := Builtin.nodup_recordKeys naming htype
  rw [Builtin.recordKeys, List.append_assoc] at hnodup
  exact fun hname => (List.nodup_append.mp hnodup).2.2 _ (List.mem_map_of_mem hfield) _ hname rfl

/-- Where components are used, what stands there is as the release has it. -/
theorem withholdAt_use (htype : type ∈ Builtin.types) {field : String}
    (huse : field ∈ Builtin.componentFields type) (t : Tree) :
    naming.withholdAt release type (naming.toDocument field) t = naming.withhold release t := by
  rw [withholdAt, isUse_spelled htype (componentFields_subset htype huse),
    List.contains_iff_mem.mpr huse, if_pos rfl]

/-- What stands in any other field is the same at every release. -/
theorem withholdAt_data (htype : type ∈ Builtin.types) {field : String}
    (hfield : field ∈ Builtin.fieldNames type) (hdata : field ∉ Builtin.componentFields type)
    (t : Tree) : naming.withholdAt release type (naming.toDocument field) t = t := by
  have hcarried : naming.toDocument field ≠ naming.protocol.referencedComponents := by
    intro heq
    have hapart : naming.toDocument field ∉ naming.protocol.names ++ Record.baseFields :=
      spelled_not_name htype hfield
    simp [heq, Protocol.names] at hapart
  rw [withholdAt, isUse_spelled htype hfield, if_neg (by simpa using hdata), if_neg hcarried]

/-- The protocol names and the base fields spell no field of a type. -/
theorem not_field (htype : type ∈ Builtin.types)
    (hkey : key ∈ naming.protocol.names ++ Record.baseFields) :
    naming.isGated release type key = false ∧ naming.isUse type key = false := by
  have hapart : ∀ field ∈ Builtin.fieldNames type, naming.toDocument field ≠ key := by
    rintro field hfield rfl
    exact spelled_not_name htype hfield hkey
  constructor
  · refine List.any_eq_false.mpr fun field hfield => ?_
    simp [hapart field hfield]
  · refine List.any_eq_false.mpr fun field hfield => ?_
    simp [hapart field (componentFields_subset htype hfield)]

/-- The discriminator, the stamp and the base fields are in every release. -/
theorem plain_base (htype : type ∈ Builtin.types)
    (hkey : key ∈ naming.protocol.componentType :: naming.protocol.version :: Record.baseFields) :
    naming.Plain release type key := by
  have hnames : ∀ key ∈ naming.protocol.componentType :: naming.protocol.version :: Record.baseFields,
      key ∈ naming.protocol.names ++ Record.baseFields ∧
        key ≠ naming.protocol.referencedComponents := by
    cases naming <;> decide
  obtain ⟨hname, huncarried⟩ := hnames key hkey
  obtain ⟨hkept, hunused⟩ := not_field htype hname
  exact ⟨hkept, hunused, huncarried⟩

end NamingMode

/-- A saved graph as an older release has it. -/
def Saved.asOf (naming : NamingMode) (release : Release) (s : Saved) : Saved :=
  ⟨naming.asOf release s.document, s.sidecar.map (naming.asOf release)⟩

end AgentGraph
