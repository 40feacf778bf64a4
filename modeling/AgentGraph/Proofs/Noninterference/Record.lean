import AgentGraph.Proofs.Graph
import AgentGraph.Proofs.Noninterference.Survey
/-!
# Records of graphs that are alike

With the same table and the same sidecar, related components are written by one and the same program,
and related values by one program too. The induction is on the levels that there is room for.
-/
namespace AgentGraph

/-- Two layouts place the same ids at the same places, and know related components. -/
structure Layout.Alike (S : Component → Component → Prop) (l m : Layout) : Prop where
  survey : Survey.Alike S l.survey m.survey
  table : l.table = m.table
  aliases : l.aliases = m.aliases

namespace Layout.Alike
variable {S : Component → Component → Prop} {l m : Layout}

theorem hosted (h : Layout.Alike S l m) (anchor : String) : l.hosted anchor = m.hosted anchor := by
  rw [Layout.hosted, Layout.hosted, h.table, h.aliases]

theorem reference? (h : Layout.Alike S l m) (id : String) : l.reference? id = m.reference? id := by
  rw [Layout.reference?, Layout.reference?, Layout.isReferenced, Layout.isReferenced, h.table,
    h.aliases]

end Layout.Alike

namespace Writer
variable {w : Writer} {S : Component → Component → Prop} {l m : Layout} {c d : Component}
  {dump dump' : Value → RecordM Tree} {recordOf recordOf' : Component → RecordM (Dict Tree)}

theorem fieldsOf_matched (hS : w.Relates S) (hl : Layout.Alike S l m) (h : S c d) :
    Matched (alikeEntries S) (w.fieldsOf l c) (w.fieldsOf m d) := by
  unfold fieldsOf
  rw [← (hS.frame c d h).id]
  rcases hl.survey.fields? c.id with ⟨hl, hm⟩ | ⟨fs, gs, hl, hm, hfields⟩
  · rw [hl, hm]
    exact hS.fields c d h
  · rw [hl, hm]
    exact .ok hfields

theorem dumpFields_eq {fs gs : Dict Value} (h : alikeEntries S fs gs)
    (hdump : ∀ v u, v.Alike S u → dump v = dump' u) (record : Dict Tree) :
    w.dumpFields dump fs record = w.dumpFields dump' gs record := by
  rw [alikeEntries_iff] at h
  induction h generalizing record with
  | nil => rfl
  | @cons f g fs gs hfg _ ih =>
    obtain ⟨key, v⟩ := f
    obtain ⟨key', u⟩ := g
    obtain ⟨rfl, hvu⟩ := hfg
    simp only [dumpFields, hdump v u hvu, ih]

theorem dumpItems_eq {vs us : List Value} (h : alikeItems S vs us)
    (hdump : ∀ v u, v.Alike S u → dump v = dump' u) : dumpItems dump vs = dumpItems dump' us := by
  rw [alikeItems_iff] at h
  induction h with
  | nil => rfl
  | @cons v u vs us hvu _ ih => simp only [dumpItems, hdump v u hvu, ih]

theorem dumpMapping_eq {fs gs : Dict Value} (h : alikeEntries S fs gs)
    (hdump : ∀ v u, v.Alike S u → dump v = dump' u) :
    dumpMapping dump fs = dumpMapping dump' gs := by
  rw [alikeEntries_iff] at h
  induction h with
  | nil => rfl
  | @cons f g fs gs hfg _ ih =>
    obtain ⟨key, v⟩ := f
    obtain ⟨key', u⟩ := g
    obtain ⟨rfl, hvu⟩ := hfg
    simp only [dumpMapping, hdump v u hvu, ih]

theorem dumpEntries_eq (hl : Layout.Alike S l m)
    (hrecord : ∀ c d, S c d → recordOf c = recordOf' d) (ids : List String)
    (entries : Dict Tree) :
    dumpEntries l recordOf ids entries = dumpEntries m recordOf' ids entries := by
  induction ids generalizing entries with
  | nil => rfl
  | cons id rest ih =>
    unfold dumpEntries
    rcases hl.survey.component? id with ⟨hl, hm⟩ | ⟨c, d, hl, hm, hcd⟩
    · simp only [hl, hm, ih]
    · simp only [hl, hm, hrecord c d hcd, ih]

theorem dumpHosted_eq (hl : Layout.Alike S l m)
    (hrecord : ∀ c d, S c d → recordOf c = recordOf' d) (anchor : String) (record : Dict Tree) :
    w.dumpHosted l recordOf anchor record = w.dumpHosted m recordOf' anchor record := by
  simp only [dumpHosted, hl.hosted, dumpEntries_eq hl hrecord]

theorem baseEntries_eq (h : c.SameFrame d) (room : Nat) (record : Dict Tree) :
    w.baseEntries c room record = w.baseEntries d room record := by
  simp only [baseEntries, h.id, h.name, h.description, h.metadata]

/-- Related components have their records built in the same way, if what they hold is written in the
same way one level below. -/
theorem buildRecord_eq (hS : w.Relates S) (hl : Layout.Alike S l m) (h : S c d) (room : Nat)
    (hdump : ∀ v u, v.Alike S u → dump v = dump' u)
    (hrecord : ∀ c d, S c d → recordOf c = recordOf' d) :
    w.buildRecord l room dump recordOf c = w.buildRecord m room dump' recordOf' d := by
  have hframe := hS.frame c d h
  have hmatched := fieldsOf_matched hS hl h
  unfold buildRecord
  generalize w.fieldsOf l c = x at hmatched
  generalize w.fieldsOf m d = y at hmatched
  cases hmatched with
  | error e => rfl
  | @ok fs gs hfields =>
    simp only [lift_ok_bind, ← hframe.type, ← hframe.id, baseEntries_eq hframe,
      dumpFields_eq hfields hdump, dumpHosted_eq hl hrecord]

/-- Related components are written by one program, and so are values that are alike. -/
theorem writes_eq (hS : w.Relates S) (hl : Layout.Alike S l m) (room : Nat) :
    (∀ c d, S c d → w.record l room c = w.record m room d) ∧
      ∀ v u, v.Alike S u → w.dumpValue l room v = w.dumpValue m room u := by
  induction room with
  | zero =>
    constructor
    · intro c d h
      rw [record, record, (hS.frame c d h).id]
    · intro v u _
      rw [dumpValue, dumpValue]
  | succ room ih =>
    obtain ⟨hrecord, hdump⟩ := ih
    have hbuilt : ∀ c d, S c d → w.record l (room + 1) c = w.record m (room + 1) d := by
      intro c d h
      rw [record, record, (hS.frame c d h).id, buildRecord_eq hS hl h room hdump hrecord]
    refine ⟨hbuilt, fun v u h => ?_⟩
    cases v with
    | data t =>
      cases u <;> simp only [Value.Alike] at h
      simp only [dumpValue, h]
    | component c =>
      cases u <;> simp only [Value.Alike] at h
      rename_i d
      simp only [dumpValue_component, hbuilt c d h, useOf, hl.reference?, (hS.frame c d h).id]
    | property p =>
      cases u <;> simp only [Value.Alike] at h
      simp only [dumpValue, h]
    | list vs =>
      cases u <;> simp only [Value.Alike] at h
      simp only [dumpValue, dumpItems_eq h hdump]
    | map fs =>
      cases u <;> simp only [Value.Alike] at h
      simp only [dumpValue, dumpMapping_eq h hdump]

theorem sidecarEntries_eq (hS : w.Relates S) (hl : Layout.Alike S l m)
    (listed : List (String × String)) (entries : Dict Tree) :
    w.sidecarEntries l listed entries = w.sidecarEntries m listed entries := by
  induction listed generalizing entries with
  | nil => rfl
  | cons entry rest ih =>
    obtain ⟨id, reference⟩ := entry
    unfold sidecarEntries
    rcases hl.survey.component? id with ⟨hl, hm⟩ | ⟨c, d, hl', hm, hcd⟩
    · simp only [hl, hm, ih]
    · simp only [hl', hm, (writes_eq hS hl w.maxDepth).1 c d hcd, ih]

theorem documents_eq (hS : w.Relates S) (hl : Layout.Alike S l m) (h : S c d)
    (exportSidecar : Bool) :
    w.documents l c exportSidecar = w.documents m d exportSidecar := by
  simp only [documents, sidecarDocument, (writes_eq hS hl (w.maxDepth + 1)).1 c d h, hl.aliases,
    sidecarEntries_eq hS hl]

end Writer

/-- Saving related roots gives the same, unless one of the two stops at a conflicting id. -/
theorem save_agree {registry : Registry} {policy : Policy} {options : SaveOptions}
    {S : Component → Component → Prop} {root root' : Component}
    (hS : (options.writer registry policy).Relates S) (h : S root root') :
    Agree (· = ·) (save registry policy options root) (save registry policy options root') := by
  have hids : ∀ c d, S c d → c.id = d.id := fun c d hcd => (hS.frame c d hcd).id
  refine Agree.bind (Writer.survey_simulates hS _ h _ _ Survey.Alike.empty) ?_
  rintro ⟨table, s⟩ ⟨table', t⟩ ⟨rfl, hst⟩
  have haliases : s.aliases root.id options.disaggregated =
      t.aliases root'.id options.disaggregated := by
    rw [Survey.aliases_eq hids hst, hids root root' h]
  simp only [haliases]
  cases t.aliases root'.id options.disaggregated with
  | error e => exact .matched (.error e)
  | ok aliases =>
    have hl : Layout.Alike S ⟨s, table, aliases⟩ ⟨t, table, aliases⟩ := ⟨hst, rfl, rfl⟩
    apply Agree.of_eq
    exact congrArg (fun m : RecordM Saved => m.run [] >>= fun p => .ok p.1)
      (Writer.documents_eq hS hl h options.exportSidecar)

end AgentGraph
