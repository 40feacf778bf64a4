import AgentGraph.Proofs.Gating.Survey
import AgentGraph.Proofs.Gating.Withhold
import AgentGraph.Proofs.Record.Stamp
/-!
# Records at two releases

A record that an older release writes is that of a newer one without the entries that it does not have
yet. This holds of a record from its discriminator on, whatever is put into both, and it is kept when the
record of the root is stamped. A sidecar document has no discriminator, and only carries records.
-/
namespace AgentGraph

namespace Dict
variable {α : Type} {keep : String → Bool} {g : String → α → α} {d : Dict α}

theorem map_amend (h : String → α → α) : (amend keep g d).map (fun p => (p.1, h p.1 p.2)) =
    amend keep (fun key v => h key (g key v)) d := by
  induction d with
  | nil => rfl
  | cons p rest ih =>
    rw [amend_cons, amend_cons]
    split
    · rw [List.map_cons, ih]
    · exact ih

end Dict

/-- A record of a type as an older release has it, next to what it is at a newer one. The stamp of the
release is put on later, and only at the root. -/
structure NamingMode.Withdrawn (naming : NamingMode) (older : Release) (type : String)
    (old new : Dict Tree) : Prop where
  entries : old = naming.withholdEntries older type new
  type : Dict.get? new naming.protocol.componentType = some (.string type)
  unstamped : Dict.get? new naming.protocol.version = none

namespace NamingMode
variable {naming : NamingMode} {older : Release} {type key : String} {old new : Dict Tree} {t u : Tree}

theorem spelled_ne (hmem : type ∈ Builtin.types) {field : String}
    (hfield : field ∈ Builtin.fieldNames type) :
    naming.toDocument field ≠ naming.protocol.componentType ∧
      naming.toDocument field ≠ naming.protocol.version := by
  have hname : naming.toDocument field ∉ naming.protocol.names ++ Record.baseFields :=
    spelled_not_name hmem hfield
  constructor
  · intro h
    simp [h, Protocol.names] at hname
  · intro h
    simp [h, Protocol.names] at hname

namespace Withdrawn
variable (h : naming.Withdrawn older type old new)
include h

theorem withholdRecord_eq : old = naming.withholdRecord older new := by
  rw [withholdRecord, typeIn, h.type]
  exact h.entries

theorem withhold_eq : .map old = naming.withhold older (.map new) := by
  rw [withhold_map, ← h.withholdRecord_eq]

/-- An entry that is there at both releases. -/
theorem put (hkept : naming.isGated older type key = false)
    (htype : key ≠ naming.protocol.componentType) (hversion : key ≠ naming.protocol.version)
    (ht : t = naming.withholdAt older type key u) :
    naming.Withdrawn older type (Dict.put old key t) (Dict.put new key u) where
  entries := by
    rw [withholdEntries_eq, Dict.amend_put (by rw [hkept]; rfl), ← withholdEntries_eq, ← h.entries, ht]
  type := by rw [Dict.get?_put_of_ne _ _ htype, h.type]
  unstamped := by rw [Dict.get?_put_of_ne _ _ hversion, h.unstamped]

/-- An entry that the older release does not have yet. -/
theorem put_gated (hgated : naming.isGated older type key = true)
    (htype : key ≠ naming.protocol.componentType) (hversion : key ≠ naming.protocol.version) :
    naming.Withdrawn older type old (Dict.put new key u) where
  entries := by
    rw [withholdEntries_eq, Dict.amend_put_dropped (by rw [hgated]; rfl), ← withholdEntries_eq,
      ← h.entries]
  type := by rw [Dict.get?_put_of_ne _ _ htype, h.type]
  unstamped := by rw [Dict.get?_put_of_ne _ _ hversion, h.unstamped]

theorem put_base (hmem : type ∈ Builtin.types) (hkey : key ∈ Record.baseFields) (t : Tree) :
    naming.Withdrawn older type (Dict.put old key t) (Dict.put new key t) := by
  have hnames : ∀ key ∈ Record.baseFields, key ≠ naming.protocol.componentType ∧
      key ≠ naming.protocol.version := by
    cases naming <;> decide
  have hplain : naming.Plain older type key :=
    plain_base hmem (List.mem_cons_of_mem _ (List.mem_cons_of_mem _ hkey))
  obtain ⟨htype, hversion⟩ := hnames key hkey
  exact h.put hplain.kept htype hversion (hplain.withholdAt t).symm

theorem put_field (hmem : type ∈ Builtin.types) {field : String}
    (hfield : field ∈ Builtin.fieldNames type)
    (hallowed : Policy.builtin.fieldAllowed type field older = true)
    (ht : t = naming.withholdAt older type (naming.toDocument field) u) :
    naming.Withdrawn older type (Dict.put old (naming.toDocument field) t)
      (Dict.put new (naming.toDocument field) u) := by
  obtain ⟨htype, hversion⟩ := spelled_ne hmem hfield
  refine h.put ?_ htype hversion ht
  rw [isGated_spelled hmem hfield, hallowed]
  rfl

theorem put_gated_field (hmem : type ∈ Builtin.types) {field : String}
    (hfield : field ∈ Builtin.fieldNames type)
    (hgated : Policy.builtin.fieldAllowed type field older = false) :
    naming.Withdrawn older type old (Dict.put new (naming.toDocument field) u) := by
  obtain ⟨htype, hversion⟩ := spelled_ne hmem hfield
  refine h.put_gated ?_ htype hversion
  rw [isGated_spelled hmem hfield, hgated]
  rfl

theorem put_carried (hmem : type ∈ Builtin.types) {records : Dict Tree} :
    naming.Withdrawn older type
      (Dict.put old naming.protocol.referencedComponents
        (.map (naming.withholdRecords older records)))
      (Dict.put new naming.protocol.referencedComponents (.map records)) := by
  have hnames : naming.protocol.referencedComponents ∈ naming.protocol.names ∧
      naming.protocol.referencedComponents ≠ naming.protocol.componentType ∧
      naming.protocol.referencedComponents ≠ naming.protocol.version := by
    cases naming <;> decide
  obtain ⟨hname, htype, hversion⟩ := hnames
  obtain ⟨hkept, hunused⟩ := not_field hmem (List.mem_append_left _ hname)
  refine h.put hkept htype hversion ?_
  rw [withholdAt, hunused, if_neg Bool.false_ne_true, if_pos rfl, withholdCarried]

end Withdrawn
end NamingMode

namespace Writer
variable {w : Writer} {older : Release} {type key : String} {old new ordered : Dict Tree}

/-- A key that is moved first is, in a record without some entries, moved first just the same. -/
theorem moveFirst_amend {keep : String → Bool} {g : String → Tree → Tree} {record : Dict Tree}
    (hkeep : keep key = true) :
    moveFirst (Dict.amend keep g record) (Dict.amend keep g ordered) key =
      Dict.amend keep g (moveFirst record ordered key) := by
  rw [moveFirst, moveFirst, Dict.get?_amend, if_pos hkeep]
  cases record.get? key with
  | none => rfl
  | some t => exact (Dict.amend_put hkeep).symm

section
variable {keep : String → Bool} {g : String → Tree → Tree}

/-- Stamping at an older release commutes with leaving out entries and replacing the stamp. -/
theorem stampRoot_amend (hkeep : ∀ key ∈ w.target.naming.protocol.componentType ::
      w.target.naming.protocol.version :: Record.baseFields, keep key = true)
    (hstamp : ∀ t, g w.target.naming.protocol.version t = .string older.name) (record : Dict Tree) :
    (w.atRelease older).stampRoot (Dict.amend keep g record) =
      Dict.amend keep g (w.stampRoot record) := by
  have hremove : Dict.remove (Dict.amend keep g record) w.target.naming.protocol.componentType =
      Dict.amend keep g (Dict.remove record w.target.naming.protocol.componentType) :=
    (Dict.amend_filter fun key => key != w.target.naming.protocol.componentType).symm
  have hrest : (Dict.amend keep g record).filter (fun pair =>
        pair.1 != w.target.naming.protocol.componentType &&
          !(["id", "name", "description"].contains pair.1)) =
      Dict.amend keep g (record.filter fun pair =>
        pair.1 != w.target.naming.protocol.componentType &&
          !(["id", "name", "description"].contains pair.1)) :=
    (Dict.amend_filter fun key => key != w.target.naming.protocol.componentType &&
      !(["id", "name", "description"].contains key)).symm
  have hstart : moveFirst (Dict.amend keep g record) [] w.target.naming.protocol.componentType =
      Dict.amend keep g (moveFirst record [] w.target.naming.protocol.componentType) := by
    change moveFirst _ (Dict.amend keep g []) _ = _
    exact moveFirst_amend (hkeep _ (by simp))
  simp only [stampRoot, Writer.atRelease, releaseEntry, List.foldl_cons, List.foldl_nil, hremove,
    hstart, hrest]
  rw [Dict.amend_merge, ← moveFirst_amend (hkeep "description" (by simp [Record.baseFields])),
    ← moveFirst_amend (hkeep "name" (by simp [Record.baseFields])),
    ← moveFirst_amend (hkeep "id" (by simp [Record.baseFields])),
    Dict.amend_put (hkeep w.target.naming.protocol.version (by simp)), hstamp]

end

/-- The root record that the older release stamps is what the stamped one is at that release. -/
theorem asOf_stampRoot (h : w.target.naming.Withdrawn older type old new)
    (hmem : type ∈ Builtin.types) :
    Tree.map ((w.atRelease older).stampRoot old) =
      w.target.naming.asOf older (.map (w.stampRoot new)) := by
  have htype : w.target.naming.typeIn (w.stampRoot new) = type := by
    rw [NamingMode.typeIn, get?_stampRoot, h.type]
  have hold : old = Dict.amend (!w.target.naming.isGated older type ·)
      (fun key t => w.target.naming.stampAt older key (w.target.naming.withholdAt older type key t))
      new := by
    rw [h.entries, NamingMode.withholdEntries_eq]
    refine Dict.amend_congr fun p hp => ?_
    have hunstamped : p.1 ≠ w.target.naming.protocol.version := by
      intro hversion
      exact Dict.get?_eq_none_iff.mp h.unstamped (hversion ▸ Dict.mem_keys_of_mem hp)
    rw [NamingMode.stampAt, if_neg hunstamped]
  rw [hold, NamingMode.asOf, NamingMode.withhold_map, NamingMode.withholdRecord, htype,
    NamingMode.withholdEntries_eq, NamingMode.restamp, Dict.map_amend]
  refine congrArg Tree.map (stampRoot_amend (fun key hkey => ?_) (fun t => ?_) new)
  · rw [(NamingMode.plain_base hmem hkey).kept]
    rfl
  · rw [NamingMode.stampAt, if_pos rfl]

/-- A sidecar document has no discriminator, and what it carries is carried at either release. -/
theorem asOf_sidecar (records : Dict Tree) :
    Tree.map [(w.atRelease older).releaseEntry,
        (w.target.naming.protocol.referencedComponents,
          .map (w.target.naming.withholdRecords older records))] =
      w.target.naming.asOf older (.map [w.releaseEntry,
        (w.target.naming.protocol.referencedComponents, .map records)]) := by
  have htype : w.target.naming.typeIn [w.releaseEntry,
      (w.target.naming.protocol.referencedComponents, .map records)] = "" := by
    unfold releaseEntry
    cases w.target.naming <;> simp [NamingMode.typeIn, Dict.get?, NamingMode.protocol]
  have hnames : w.target.naming.protocol.version ≠ w.target.naming.protocol.referencedComponents := by
    cases w.target.naming <;> decide
  rw [NamingMode.asOf, NamingMode.withhold_map, NamingMode.withholdRecord, htype]
  simp [NamingMode.withholdEntries, NamingMode.isGated, NamingMode.isUse, Builtin.fieldNames,
    Builtin.componentFields, releaseEntry, Writer.atRelease, NamingMode.restamp, NamingMode.stampAt,
    NamingMode.withholdCarried, hnames, hnames.symm]

end Writer
end AgentGraph
