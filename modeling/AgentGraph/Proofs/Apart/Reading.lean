import AgentGraph.Proofs.Document.Saved
import AgentGraph.Proofs.Placement
/-!
# References as they stand

A reference is read off a document next to the component that was written there. The fields of a
component say where its record uses others, for plugins of any kind; what was written under a key is
the last field that is spelled so. From the document and the sidecar on, records are found in the
fields of records and among the records that they carry.
-/
namespace AgentGraph

namespace Value

mutual
/-- The ids of the components in a value, each with what stands for it in a tree that the value was
written to. -/
def usesIn : Value → Tree → List (String × Tree)
  | .component c, t => [(c.id, t)]
  | .list items, .list ts => usesInItems items ts
  | .map entries, .map d => usesInEntries entries d
  | _, _ => []
/-- The uses in the values of a list, which stand in the same order. -/
def usesInItems : List Value → List Tree → List (String × Tree)
  | v :: rest, t :: ts => usesIn v t ++ usesInItems rest ts
  | _, _ => []
/-- The uses in the values of a mapping, which stand in the same order without reserved keys. -/
def usesInEntries : List (String × Value) → Dict Tree → List (String × Tree)
  | [], _ => []
  | (key, v) :: rest, d =>
    if isReservedKey key then usesInEntries rest d
    else match d with
      | [] => []
      | (_, t) :: ts => usesIn v t ++ usesInEntries rest ts
end

theorem usesInEntries_reserved {key : String} (hkey : isReservedKey key = true) (v : Value)
    (rest : List (String × Value)) (d : Dict Tree) :
    usesInEntries ((key, v) :: rest) d = usesInEntries rest d := by
  cases d <;> rw [usesInEntries, if_pos hkey]

theorem usesInEntries_kept {key : String} (hkey : ¬ isReservedKey key = true) (v : Value)
    (rest : List (String × Value)) (p : String × Tree) (d : Dict Tree) :
    usesInEntries ((key, v) :: rest) (p :: d) = v.usesIn p.2 ++ usesInEntries rest d := by
  rw [usesInEntries, if_neg hkey]

end Value

namespace NamingMode

/-- The value that is written under a key: of the fields that are spelled so the last one has it. -/
def lastSpelled (naming : NamingMode) : Dict Value → String → Option Value
  | [], _ => none
  | f :: rest, key => (naming.lastSpelled rest key).or
      (if naming.toDocument f.1 = key then some f.2 else none)

end NamingMode

namespace Writer
section
variable (w : Writer)

/-- What stands for an id in a field of a record of a component. The records that are carried for
others are in no field. -/
def HasUse (c : Component) (record : Dict Tree) (use : String × Tree) : Prop :=
  ∃ key v t, w.target.naming.lastSpelled (w.shown c) key = some v ∧
    key ≠ w.target.naming.protocol.referencedComponents ∧ Dict.get? record key = some t ∧
    use ∈ v.usesIn t

/-- A record tells of a component its type and its id, unless the component has fields that are
spelled the same, and it has all its fields. -/
structure Describes (c : Component) (record : Dict Tree) : Prop where
  nodup : (Dict.keys record).Nodup
  type : w.target.naming.lastSpelled (w.shown c) w.target.naming.protocol.componentType = none →
    Dict.get? record w.target.naming.protocol.componentType = some (.string c.componentType)
  id : w.policy.kindAllowed c.componentType w.target.release = true →
    w.target.naming.lastSpelled (w.shown c) "id" = none →
    Dict.get? record "id" = some (.string c.id)
  fields : ∀ key v, w.target.naming.lastSpelled (w.shown c) key = some v →
    key ∈ Dict.keys record

variable (root : Component) (listed : List (String × Option String))

/-- A component of one id holds one of another id, perhaps through others. -/
def IsBelow (a x : String) : Prop :=
  ∃ c d e, Component.Reaches w.children root c ∧ c.id = a ∧ d ∈ w.children c ∧
    Component.Reaches w.children d e ∧ e.id = x

/-- An id has an entry of its own in the sidecar: it is listed, or it is used on both sides of a
listed one and so goes along with it. -/
def Moved (x : String) : Prop :=
  x ∈ listed.map (·.1) ∨ 2 ≤ w.occurrences root x ∧ ∃ a ∈ listed.map (·.1), w.IsBelow root a x ∧
    ∃ b, Component.ImmediateDominator w.children root b x ∧ b ≠ a ∧ ¬ w.IsBelow root a b

/-- Users refer to an id by name: it is listed or used more than once. -/
def GoesByName (x : String) : Prop := x ∈ listed.map (·.1) ∨ 2 ≤ w.occurrences root x

/-- No two ids go by one name. -/
def NamesApart : Prop :=
  ∀ x y, w.GoesByName root listed x → w.GoesByName root listed y →
    referenceName listed x = referenceName listed y → x = y

variable (first : String → Component) (saved : Saved)

/-- The records in the document and the sidecar of the ids that they are for. The component that a
save meets first under an id is the one whose fields are written. -/
inductive HasRecord : String → Dict Tree → Prop
  | document {record : Dict Tree} : saved.document = .map record → HasRecord root.id record
  | top {x : String} {record : Dict Tree} : w.Moved root listed x →
      (referenceName listed x, .map record) ∈ saved.sidecarEntries w.target.naming →
      HasRecord x record
  | used {x y : String} {record nested : Dict Tree} : HasRecord x record →
      w.HasUse (first x) record (y, .map nested) → (∀ name, .map nested ≠ w.referenceTo name) →
      HasRecord y nested
  | carried {x y : String} {record nested : Dict Tree} : HasRecord x record →
      w.target.naming.lastSpelled (w.shown (first x))
        w.target.naming.protocol.referencedComponents = none →
      (y, .map nested) ∈ w.target.naming.definitions record → HasRecord y nested

/-- Somewhere in the document or the sidecar a name stands for an id. -/
def Refers (x name : String) : Prop :=
  ∃ z record, w.HasRecord root listed first saved z record ∧
    w.HasUse (first z) record (x, w.referenceTo name)

end

variable {w : Writer} {root : Component} {h : w.Regular root} {l : Layout}
  {listed : List (String × Option String)} {a x y name : String}

theorem Regular.below_iff (h : w.Regular root) (ha : h.dag.Reaches root.id a) :
    h.dag.Below a x ↔ w.IsBelow root a x := by
  constructor
  · rintro ⟨y, hy, hyx⟩
    obtain ⟨c, hc, rfl⟩ := h.exists_component ha
    obtain ⟨d, hd, rfl⟩ := (h.mem_kidsOf hc).mp hy
    obtain ⟨e, he, rfl⟩ := (h.reaches_iff (hc.kid hd)).mp hyx
    exact ⟨c, d, e, hc, rfl, hd, he, rfl⟩
  · rintro ⟨c, d, e, hc, rfl, hd, he, rfl⟩
    exact ⟨d.id, (h.mem_kidsOf hc).mpr ⟨d, hd, rfl⟩, (h.reaches_iff (hc.kid hd)).mpr ⟨e, he, rfl⟩⟩

theorem Regular.immediateDominator_iff (h : w.Regular root) :
    h.dag.ImmediateDominator root.id a x ↔ Component.ImmediateDominator w.children root a x := by
  refine ⟨h.immediateDominator, fun hd => ⟨hd.ne, h.dominates_iff.mpr hd.dominates, ?_⟩⟩
  exact fun b hb hdb => h.dominates_iff.mpr (hd.deepest b hb (h.dominates_iff.mp hdb))

namespace Planned
variable (P : w.Planned h listed l)
include P

/-- An anchor in the table is the immediate dominator of an id that is used more than once. -/
theorem referenced_iff (hx : h.dag.Below root.id x) :
    Dict.get? l.table x = some (.referenced a) ↔
      2 ≤ w.occurrences root x ∧ Component.ImmediateDominator w.children root a x := by
  obtain ⟨place, hplace, hplaced⟩ := P.place hx
  rw [hplace, ← h.immediateDominator_iff]
  cases hplaced with
  | inline ho =>
    have hone := h.occurrences_of_onlyUser ho
    constructor
    · intro heq
      cases heq
    · rintro ⟨htwo, -⟩
      omega
  | @referenced b hd hs =>
    constructor
    · intro heq
      cases heq
      exact ⟨h.occurrences_of_shared hs, hd⟩
    · rintro ⟨-, ha⟩
      rw [hd.unique ha hx.reaches]

/-- The ids that the plan writes to the sidecar are those that are moved there. -/
theorem aliased_iff : l.aliases.get? x ≠ none ↔ w.Moved root listed x := by
  have hpulled : ∀ a, forcedName? listed a ≠ none → (PulledAlong h l.table a x ↔
      2 ≤ w.occurrences root x ∧ w.IsBelow root a x ∧ ∃ b,
        Component.ImmediateDominator w.children root b x ∧ b ≠ a ∧ ¬ w.IsBelow root a b) := by
    intro a ha
    have hroot := P.below a ha
    have hiff : ∀ y, h.dag.Below a y ↔ w.IsBelow root a y := fun y => h.below_iff hroot.reaches
    constructor
    · rintro ⟨b, hb, hax, hne, hno⟩
      have hspec := (P.referenced_iff (hroot.reaches.trans_below hax)).mp hb
      exact ⟨hspec.1, (hiff x).mp hax, b, hspec.2, hne, mt (hiff b).mpr hno⟩
    · rintro ⟨htwo, hax, b, hb, hne, hno⟩
      have hx := hroot.reaches.trans_below ((hiff x).mpr hax)
      exact ⟨b, (P.referenced_iff hx).mpr ⟨htwo, hb⟩, (hiff x).mpr hax, hne, mt (hiff b).mp hno⟩
  constructor
  · intro hx
    obtain ⟨name, hname⟩ := Option.ne_none_iff_exists'.mp hx
    rcases (P.aliases x name).mp hname with hforced | ⟨-, -, a, ha, hp⟩
    · exact .inl (forcedName?_ne_none_iff.mp (by rw [hforced]; exact Option.some_ne_none _))
    · obtain ⟨htwo, hax, hb⟩ := (hpulled a ha).mp hp
      exact .inr ⟨htwo, a, forcedName?_ne_none_iff.mp ha, hax, hb⟩
  · rintro (hx | ⟨htwo, a, ha, hax, hb⟩)
    · exact P.aliased_of_listed (forcedName?_ne_none_iff.mpr hx)
    · by_cases hforced : forcedName? listed x = none
      · have ha := forcedName?_ne_none_iff.mpr ha
        have hp := (hpulled a ha).mpr ⟨htwo, hax, hb⟩
        rw [(P.aliases x x).mpr (.inr ⟨hforced, rfl, a, ha, hp⟩)]
        exact Option.some_ne_none x
      · exact P.aliased_of_listed hforced

/-- An id that users refer to goes by its name. -/
theorem goesByName (hx : l.reference? x = some name) :
    w.GoesByName root listed x ∧ name = referenceName listed x := by
  have hbelow : h.dag.Below root.id x := by
    by_cases ha : l.aliases.get? x = none
    · have hmem : x ∈ Dict.keys l.table := by
        by_contra hno
        rw [← Dict.get?_eq_none_iff] at hno
        simp [Layout.reference?, Layout.isReferenced, ha, hno] at hx
      exact (P.surveyed.fits.mem x).mp hmem
    · exact P.below_of_aliased ha
  refine ⟨?_, P.reference_name hx⟩
  rcases (P.reference_iff hbelow).mp (by rw [hx]; exact Option.some_ne_none _) with hl | hs
  · exact .inl (forcedName?_ne_none_iff.mp hl)
  · exact .inr (h.occurrences_of_shared hs)

/-- The entries of the plan, each under the name that users refer to. -/
theorem aliased_name (hx : (x, name) ∈ l.aliases) :
    w.Moved root listed x ∧ w.GoesByName root listed x ∧ name = referenceName listed x := by
  have hget := Dict.get?_of_mem P.nodup hx
  refine ⟨P.aliased_iff.mp (by rw [hget]; exact Option.some_ne_none _), ?_⟩
  exact P.goesByName (reference?_of_aliased hget)

theorem nodup_aliased (hapart : w.NamesApart root listed) : (l.aliases.map (·.2)).Nodup := by
  have hnamed : ∀ x, l.aliases.get? x ≠ none → w.GoesByName root listed x := by
    intro x hx
    obtain ⟨name, hname⟩ := Option.ne_none_iff_exists'.mp hx
    exact (P.goesByName (reference?_of_aliased hname)).1
  exact P.nodup_names_of fun x y hx hy => hapart x y (hnamed x hx) (hnamed y hy)

end Planned
end Writer
end AgentGraph
