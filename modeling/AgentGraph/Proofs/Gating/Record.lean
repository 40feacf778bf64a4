import AgentGraph.Proofs.Gating.Draft
import AgentGraph.Proofs.Gating.Fields
/-!
# Writing at two releases

Writing a graph at an older release keeps step with writing it at a newer one. The fields that the older
release does not have yet are scalars, so they take no part in where records go, and they fail only where
the fields next to them fail as well. Records are kept by id, and a component is either asked for under an
id that has its record or is of the type of what was found under its id.
-/
namespace AgentGraph
open List (Forall₂)

namespace Survey
variable {S : Component → Prop} {s : Survey} {known known' : List String} {cs ds : List Component}

/-- One after another, each of the components has an id that is known by then, or is of the type of what
was found under its id. -/
def Ready (S : Component → Prop) (s : Survey) : List String → List Component → Prop
  | _, [] => True
  | known, c :: rest => (c.id ∈ known ∨ s.Vouches S c) ∧ s.Ready S (c.id :: known) rest

theorem Ready.mono (h : s.Ready S known cs) (hsub : known ⊆ known') : s.Ready S known' cs := by
  induction cs generalizing known known' with
  | nil => trivial
  | cons c rest ih =>
    exact ⟨h.1.imp_left (hsub ·), ih h.2 (List.cons_subset_cons _ hsub)⟩

theorem ready_append (h : s.Ready S known (cs ++ ds)) :
    s.Ready S known cs ∧ s.Ready S (cs.map (·.id) ++ known) ds := by
  induction cs generalizing known with
  | nil => exact ⟨trivial, h⟩
  | cons c rest ih =>
    obtain ⟨hrest, hds⟩ := ih h.2
    refine ⟨⟨h.1, hrest⟩, hds.mono fun x hx => ?_⟩
    simp only [List.mem_append, List.mem_cons, List.map_cons] at hx ⊢
    tauto

/-- It is enough that the first component of every id is vouched for. -/
theorem ready_of_firstOfEachId (h : ∀ c ∈ firstOfEachId known cs, s.Vouches S c) :
    s.Ready S known cs := by
  induction cs generalizing known with
  | nil => trivial
  | cons c rest ih =>
    rw [firstOfEachId] at h
    split at h
    · rename_i hseen
      have hmem : c.id ∈ known := List.contains_iff_mem.mp hseen
      refine ⟨.inl hmem, (ih h).mono (List.subset_cons_self _ _)⟩
    · obtain ⟨hc, hrest⟩ := List.forall_mem_cons.mp h
      exact ⟨.inr hc, ih hrest⟩

end Survey

namespace NamingMode
variable {naming : NamingMode} {older : Release} {known known' : List String}
  {s t : Dict (Dict Tree)}

/-- A record of some type as an older release has it, next to what it is at a newer one. -/
def IsWithdrawn (naming : NamingMode) (older : Release) (old new : Dict Tree) : Prop :=
  ∃ type ∈ Builtin.types, naming.Withdrawn older type old new

/-- The same records were built at either release, those of some ids among them. -/
structure Abreast (naming : NamingMode) (older : Release) (known : List String)
    (s t : Dict (Dict Tree)) : Prop where
  records : Forall₂ (fun p q => p.1 = q.1 ∧ naming.IsWithdrawn older p.2 q.2) s t
  known : ∀ id ∈ known, ∃ record, t.get? id = some record

theorem Abreast.mono (h : naming.Abreast older known s t) (hsub : known' ⊆ known) :
    naming.Abreast older known' s t := ⟨h.records, fun id hid => h.known id (hsub hid)⟩

theorem abreast_empty : naming.Abreast older [] [] [] := ⟨.nil, by simp⟩

end NamingMode

namespace Writer
variable {w : Writer} {older : Release} {S : Component → Prop} {l m : Layout} {c d : Component}
  {known : List String} {type : String} {dump dump' : Value → RecordM Tree}
  {recordOf recordOf' : Component → RecordM (Dict Tree)}

/-- What stands for a component at either release. -/
abbrev RecordStep (w : Writer) (older : Release) (known : List String)
    (m n : RecordM (Dict Tree)) (after : List String) : Prop :=
  InStep (w.target.naming.Abreast older known) m n fun r r' s t =>
    w.target.naming.IsWithdrawn older r r' ∧ w.target.naming.Abreast older after s t

/-- Two runs on the record of a component of a type, which they go on with. -/
abbrev DraftStep (w : Writer) (older : Release) (type : String) (known : List String)
    (m n : RecordM (Dict Tree)) : Prop :=
  InStep (w.target.naming.Abreast older known) m n fun r r' s t =>
    w.target.naming.Withdrawn older type r r' ∧ w.target.naming.Abreast older known s t

theorem remembered_inStep {id : String} {build build' : RecordM (Dict Tree)} {p : Prop}
    (h : id ∈ known ∨ p) (hbuild : p → w.RecordStep older known build build' known) :
    w.RecordStep older known (remembered id build) (remembered id build') (id :: known) := by
  refine InStep.get fun s t hst => ?_
  rcases Dict.forall₂_get? hst.records id with ⟨hs, ht⟩ | ⟨r, r', hs, ht, hr⟩
  · have hp : p := h.resolve_left fun hid => by
      obtain ⟨record, hrecord⟩ := hst.known id hid
      simp [ht] at hrecord
    simp only [hs, ht]
    have hrun := (hbuild hp).strengthen (J := fun s' t' => s' = s ∧ t' = t)
      (by rintro _ _ ⟨rfl, rfl⟩; exact hst)
    refine hrun.bind fun r r' => .assume fun hr => ?_
    refine InStep.modify (J := w.target.naming.Abreast older (id :: known)) (fun s t hst => ?_)
      (.pure fun s t hst => ⟨hr, hst⟩)
    refine ⟨Dict.forall₂_put hst.records id hr, List.forall_mem_cons.mpr
      ⟨⟨r', Dict.get?_put_self _ _ _⟩, fun x hx => ?_⟩⟩
    obtain ⟨record, hrecord⟩ := hst.known x hx
    rw [Dict.get?_put]
    split
    · exact ⟨r', rfl⟩
    · exact ⟨record, hrecord⟩
  · simp only [hs, ht]
    refine .pure ?_
    rintro _ _ ⟨rfl, rfl⟩
    exact ⟨hr, hst.records, List.forall_mem_cons.mpr ⟨⟨r', ht⟩, hst.known⟩⟩

/-- Two layouts of one graph, made at an older release and at that of the writer. -/
structure LaidOut (w : Writer) (older : Release) (S : Component → Prop) (l m : Layout) : Prop where
  survey : w.Trimmed older S l.survey m.survey
  entered : w.Entered S [] m.survey
  table : l.table = m.table
  aliases : l.aliases = m.aliases

/-- Two ways to make records, at either release, keep step. -/
def RecordsInStep (w : Writer) (older : Release) (S : Component → Prop) (m : Layout)
    (recordOf recordOf' : Component → RecordM (Dict Tree)) : Prop :=
  ∀ known c, c.id ∈ known ∨ m.survey.Vouches S c →
    w.RecordStep older known (recordOf c) (recordOf' c) (c.id :: known)

/-- Two ways to write values made up of components, at either release, keep step. -/
def DumpsInStep (w : Writer) (older : Release) (S : Component → Prop) (m : Layout)
    (dump dump' : Value → RecordM Tree) : Prop :=
  ∀ known v, v.Composed → m.survey.Ready S known v.components →
    InStep (w.target.naming.Abreast older known) (dump v) (dump' v) fun t u s s' =>
      t = w.target.naming.withhold older u ∧
        w.target.naming.Abreast older (v.components.map (·.id) ++ known) s s'

namespace LaidOut
variable (h : w.LaidOut older S l m)
include h

theorem hosted (anchor : String) : l.hosted anchor = m.hosted anchor := by
  rw [Layout.hosted, Layout.hosted, h.table, h.aliases]

/-- What stands where a component is used is, at the older release, what it has of it. -/
theorem useOf {r r' : Dict Tree} (hr : w.target.naming.IsWithdrawn older r r') (id : String) :
    (w.atRelease older).useOf l id r = w.target.naming.withhold older (w.useOf m id r') := by
  have href : l.reference? id = m.reference? id := by
    rw [Layout.reference?, Layout.reference?, Layout.isReferenced, Layout.isReferenced, h.table,
      h.aliases]
  rw [Writer.useOf, Writer.useOf, href]
  cases m.reference? id with
  | some target => exact (NamingMode.withhold_reference _).symm
  | none =>
    obtain ⟨type, -, hr⟩ := hr
    exact hr.withhold_eq

/-- What is carried is found under its id. -/
theorem found (id : String) :
    (l.survey.component? id = none ∧ m.survey.component? id = none) ∨
      ∃ d, m.survey.Vouches S d ∧ l.survey.component? id = some d ∧
        m.survey.component? id = some d := by
  rw [h.survey.component? id, Survey.component?]
  rcases h.survey.get? id with ⟨-, hm⟩ | ⟨d, hd, -, hm⟩
  · rw [hm]
    exact .inl ⟨rfl, rfl⟩
  · rw [hm]
    refine .inr ⟨d, ⟨hd, d, w.shown d, ?_, rfl⟩, rfl, rfl⟩
    rw [(h.entered.found _ _ _ hm).1]
    exact hm

end LaidOut

/-- Records that are written one after the other, with those that stand before them. -/
theorem dumpEntries_inStep (hl : w.LaidOut older S l m)
    (hrecord : w.RecordsInStep older S m recordOf recordOf') (ids : List String)
    {entries entries' : Dict Tree}
    (h : entries = w.target.naming.withholdRecords older entries') :
    InStep (w.target.naming.Abreast older known) (dumpEntries l recordOf ids entries)
      (dumpEntries m recordOf' ids entries') fun es es' s t =>
        es = w.target.naming.withholdRecords older es' ∧ w.target.naming.Abreast older known s t := by
  induction ids generalizing known entries entries' with
  | nil => exact .pure fun s t hst => ⟨h, hst⟩
  | cons id rest ih =>
    unfold dumpEntries
    rcases hl.found id with ⟨hl', hm⟩ | ⟨d, hd, hl', hm⟩
    · simp only [hl', hm]
      exact ih h
    · simp only [hl', hm]
      refine (hrecord known d (.inr hd)).bind fun r r' => .assume fun ⟨type, _, hr⟩ => ?_
      refine ((ih ?_).mono fun es es' s t hes => ⟨hes.1, hes.2.mono (List.subset_cons_self _ _)⟩)
      rw [NamingMode.withholdRecords_eq, Dict.amend_put rfl, ← NamingMode.withholdRecords_eq, ← h,
        hr.withhold_eq]

theorem dumpHosted_inStep (hl : w.LaidOut older S l m)
    (hrecord : w.RecordsInStep older S m recordOf recordOf') (hmem : type ∈ Builtin.types)
    (anchor : String) {r r' : Dict Tree} (h : w.target.naming.Withdrawn older type r r') :
    w.DraftStep older type known ((w.atRelease older).dumpHosted l recordOf anchor r)
      (w.dumpHosted m recordOf' anchor r') := by
  unfold dumpHosted
  rw [hl.hosted]
  cases m.hosted anchor with
  | nil => exact .pure fun s t hst => ⟨h, hst⟩
  | cons id rest =>
    have hempty : [] = w.target.naming.withholdRecords older [] := by
      rw [NamingMode.withholdRecords]
    refine (dumpEntries_inStep hl hrecord (id :: rest) hempty).bind fun es es' => .assume fun hes => ?_
    refine .pure fun s t hst => ⟨?_, hst⟩
    rw [hes]
    exact h.put_carried hmem

theorem header_withdrawn (hS : w.Spans older S) (hc : S c) :
    w.target.naming.Withdrawn older c.componentType ((w.atRelease older).header c.componentType)
      (w.header c.componentType) := by
  have hmem : c.componentType ∈ Builtin.types := Kind.type_mem (hS.builtin c hc)
  have hheader : w.header c.componentType =
      [(w.target.naming.protocol.componentType, .string c.componentType)] := by
    rw [header, hS.owned _ hmem]
  have hplain : w.target.naming.Plain older c.componentType w.target.naming.protocol.componentType :=
    NamingMode.plain_base hmem (by simp)
  have hversion : w.target.naming.protocol.componentType ≠ w.target.naming.protocol.version := by
    cases w.target.naming <;> decide
  refine ⟨?_, ?_, ?_⟩
  · change w.header c.componentType = _
    rw [hheader, NamingMode.withholdEntries_eq, Dict.amend_cons, hplain.kept, hplain.withholdAt]
    rfl
  · simp [hheader, Dict.get?]
  · simp [hheader, Dict.get?, hversion]

theorem baseEntries_matched (hmem : type ∈ Builtin.types) (c : Component) (room : Nat)
    {r r' : Dict Tree} (h : w.target.naming.Withdrawn older type r r') :
    Matched (w.target.naming.Withdrawn older type) ((w.atRelease older).baseEntries c room r)
      (w.baseEntries c room r') := by
  have hid : "id" ∈ Record.baseFields := by decide
  have hname : "name" ∈ Record.baseFields := by decide
  have hdescription : "description" ∈ Record.baseFields := by decide
  have hmetadata : "metadata" ∈ Record.baseFields := by decide
  have hlast : ∀ r r', w.target.naming.Withdrawn older type r r' →
      Matched (w.target.naming.Withdrawn older type)
        (if c.metadata.isEmpty then return r
          else return Dict.put r "metadata" (← w.dumpData (room - 1) (.map c.metadata)))
        (if c.metadata.isEmpty then return r'
          else return Dict.put r' "metadata" (← w.dumpData (room - 1) (.map c.metadata))) := by
    intro r r' hr
    split
    · exact .ok hr
    · cases w.dumpData (room - 1) (.map c.metadata) with
      | error e => exact .error e
      | ok t => exact .ok (hr.put_base hmem hmetadata t)
  have hnamed := (h.put_base hmem hid (.string c.id)).put_base hmem hname (.string c.name)
  unfold baseEntries
  cases c.description with
  | none => exact hlast _ _ hnamed
  | some text => exact hlast _ _ (hnamed.put_base hmem hdescription (.string text))

theorem dumpItems_lifted {ι : Type} {dumps : ι → Value → RecordM Tree} {items : List Value}
    (h : ∀ v ∈ items, ∃ x : Except SaveError Tree, ∀ i, dumps i v = liftM x) :
    ∃ x : Except SaveError (List Tree), ∀ i, dumpItems (dumps i) items = liftM x := by
  induction items with
  | nil => exact ⟨.ok [], fun _ => rfl⟩
  | cons v rest ih =>
    obtain ⟨⟨x, hx⟩, hrest⟩ := List.forall_mem_cons.mp h
    obtain ⟨y, hy⟩ := ih hrest
    refine ⟨do return (← x) :: (← y), fun i => ?_⟩
    rw [dumpItems, hx, hy]
    cases x <;> cases y <;> rfl

/-- A value without components is written alike at every release and with every layout, whatever records
there are. -/
theorem dumpValue_lifted (w : Writer) (room : Nat) {v : Value} (hfree : v.MapFree)
    (hnone : v.components = []) : ∃ x : Except SaveError Tree,
      ∀ i : Release × Layout, (w.atRelease i.1).dumpValue i.2 room v = liftM x := by
  induction room generalizing v with
  | zero => exact ⟨.error (.depthExceeded w.maxDepth), fun i => by rw [dumpValue]; rfl⟩
  | succ room ih =>
    cases v with
    | data t => exact ⟨w.dumpData room t, fun i => by rw [dumpValue]; rfl⟩
    | component c => simp at hnone
    | property p => exact ⟨.ok p.toTree, fun i => by rw [dumpValue]; rfl⟩
    | list items =>
      rw [Value.components, Value.componentsOfList_eq, List.flatMap_eq_nil_iff] at hnone
      obtain ⟨x, hx⟩ := dumpItems_lifted fun v hv =>
        ih (mapFreeItems_iff.mp hfree v hv) (hnone v hv)
      refine ⟨do return .list (← x), fun i => ?_⟩
      rw [dumpValue, hx]
      cases x <;> rfl
    | map entries => exact hfree.elim

theorem dumpValue_free_inStep {n : Nat} {v : Value} (hfree : v.MapFree) (hnone : v.components = []) :
    InStep (w.target.naming.Abreast older known) ((w.atRelease older).dumpValue l n v)
      (w.dumpValue m n v) fun t u s s' => t = u ∧ w.target.naming.Abreast older known s s' := by
  obtain ⟨x, hx⟩ := dumpValue_lifted w n hfree hnone
  rw [hx (older, l)]
  change InStep _ _ ((w.atRelease w.target.release).dumpValue m n v) _
  rw [hx (w.target.release, m)]
  cases x with
  | error e => exact .throw e
  | ok t => exact .pure fun s s' hs => ⟨rfl, hs⟩

theorem dumpData_scalar {t : Tree} (h : t.isContainer = false) (budget : Nat) :
    w.dumpData budget t = .ok t.strip := by
  have hdepth : t.depthUpTo budget = 0 := by
    rw [Tree.depthUpTo, Tree.deepest, h, if_neg Bool.false_ne_true, Tree.deepest]
  rw [dumpData, hdepth, if_neg (by omega)]

/-- The fields of a record, of which the older release writes those that it has. -/
theorem dumpFields_inStep (hmem : type ∈ Builtin.types) {fields : Dict Value}
    (hnames : ∀ f ∈ fields, f.1 ∈ Builtin.fieldNames type)
    (hkept : ∀ f ∈ fields, Policy.builtin.fieldAllowed type f.1 older = true →
      ∀ known, m.survey.Ready S known f.2.components →
        InStep (w.target.naming.Abreast older known) (dump f.2) (dump' f.2) fun t u s s' =>
          t = w.target.naming.withholdAt older type (w.target.naming.toDocument f.1) u ∧
            w.target.naming.Abreast older (f.2.components.map (·.id) ++ known) s s')
    (hgated : ∀ f ∈ fields, Policy.builtin.fieldAllowed type f.1 older = false →
      f.2.components = [] ∧ ∃ t, dump' f.2 = pure t)
    (hready : m.survey.Ready S known (heldComponents fields)) {r r' : Dict Tree}
    (h : w.target.naming.Withdrawn older type r r') :
    w.DraftStep older type known
      ((w.atRelease older).dumpFields dump
        (fields.filter fun f => Policy.builtin.fieldAllowed type f.1 older) r)
      (w.dumpFields dump' fields r') := by
  induction fields generalizing known r r' with
  | nil => exact .pure fun s t hst => ⟨h, hst⟩
  | cons f rest ih =>
    obtain ⟨hname, hnames'⟩ := List.forall_mem_cons.mp hnames
    obtain ⟨hkeptf, hkept'⟩ := List.forall_mem_cons.mp hkept
    obtain ⟨hgatedf, hgated'⟩ := List.forall_mem_cons.mp hgated
    obtain ⟨name, v⟩ := f
    obtain ⟨hv, hrest⟩ := Survey.ready_append hready
    cases hallowed : Policy.builtin.fieldAllowed type name older with
    | true =>
      rw [List.filter_cons_of_pos (by exact hallowed)]
      refine (hkeptf hallowed known hv).bind fun t u => .assume fun ht => ?_
      refine (ih hnames' hkept' hgated' hrest (h.put_field hmem hname hallowed ht)).mono ?_
      exact fun _ _ s s' hs => ⟨hs.1, hs.2.mono (List.subset_append_right _ _)⟩
    | false =>
      rw [List.filter_cons_of_neg (by simp [hallowed])]
      obtain ⟨hnone, t, ht⟩ := hgatedf hallowed
      have hput := h.put_gated_field (u := t) hmem hname hallowed
      rw [show v.components = [] from hnone] at hrest
      simp only [dumpFields, ht, pure_bind]
      exact ih hnames' hkept' hgated' hrest hput

theorem dumpFields_of_no_room {fields : Dict Value} (h : fields ≠ []) (record : Dict Tree) :
    w.dumpFields (w.dumpValue l 0) fields record = throw (.depthExceeded w.maxDepth) := by
  cases fields with
  | nil => exact absurd rfl h
  | cons f rest =>
    simp only [dumpFields, dumpValue]
    rfl

theorem Spans.shown_ne_nil (hS : w.Spans older S) (hd : S d) :
    (w.atRelease older).shown d ≠ [] ∧ w.shown d ≠ [] := by
  have hshown {release : Release} : d.kind.fields.filter (fun f =>
      Policy.builtin.shows release d.componentType f.1) ≠ [] := by
    obtain ⟨f, hf, hshows⟩ := Kind.exists_shown (hS.builtin d hd) release
    exact List.ne_nil_of_mem (List.mem_filter.mpr ⟨hf, hshows⟩)
  rw [(hS.inFull_at hd).shown_eq, (hS.inFull hd).shown_eq]
  simp only [shows, Writer.atRelease, hS.policy]
  exact ⟨hshown, hshown⟩

/-- The fields of what was found under an id, within the levels that there is room for. Without room both
releases fail, for each has a field to write. -/
theorem dumpFields_shown (hS : w.Spans older S) {room : Nat}
    (hdump : w.DumpsInStep older S m ((w.atRelease older).dumpValue l room) (w.dumpValue m room))
    (hd : S d) (hready : m.survey.Ready S known (heldComponents (w.shown d))) {r r' : Dict Tree}
    (h : w.target.naming.Withdrawn older d.componentType r r') :
    w.DraftStep older d.componentType known
      ((w.atRelease older).dumpFields ((w.atRelease older).dumpValue l room)
        ((w.atRelease older).shown d) r)
      (w.dumpFields (w.dumpValue m room) (w.shown d) r') := by
  cases room with
  | zero =>
    rw [dumpFields_of_no_room (hS.shown_ne_nil hd).1, dumpFields_of_no_room (hS.shown_ne_nil hd).2]
    exact .throw _
  | succ room =>
    have hbuiltin := hS.builtin d hd
    have hmem : d.componentType ∈ Builtin.types := Kind.type_mem hbuiltin
    have hname : ∀ f ∈ w.shown d, f.1 ∈ Builtin.fieldNames d.componentType := fun f hf =>
      (Kind.keys_fields hbuiltin).subset (Dict.mem_keys_of_mem (mem_shown hf))
    rw [hS.shown_at hd]
    refine dumpFields_inStep hmem hname (fun f hf _ known hready => ?_) (fun f hf hgated => ?_)
      hready h
    · by_cases huse : f.1 ∈ Builtin.componentFields d.componentType
      · refine (hdump known f.2 (Kind.composed_fields hbuiltin f (mem_shown hf) huse) hready).mono ?_
        rintro t u s s' ⟨rfl, hs⟩
        exact ⟨(NamingMode.withholdAt_use hmem huse u).symm, hs⟩
      · have hnone := (Kind.components_elsewhere hbuiltin f (mem_shown hf)).resolve_left huse
        have hfree := Kind.mapFree_fields hbuiltin f (mem_shown hf)
        refine (dumpValue_free_inStep hfree hnone).mono ?_
        rintro t u s s' ⟨rfl, hs⟩
        rw [hnone]
        exact ⟨(NamingMode.withholdAt_data hmem (hname f hf) huse t).symm, hs⟩
    · obtain ⟨t, hdata, hscalar⟩ := Kind.scalar_of_gated hbuiltin (mem_shown hf) hgated
      refine ⟨by rw [hdata, Value.components], t.strip, ?_⟩
      rw [hdata, dumpValue]
      simp only [dumpData_scalar hscalar]
      rfl

/-- The record of a component of the type of what was found under its id. -/
theorem buildRecord_inStep (hS : w.Spans older S) (hl : w.LaidOut older S l m) {room : Nat}
    (hdump : w.DumpsInStep older S m ((w.atRelease older).dumpValue l room) (w.dumpValue m room))
    (hrecord : w.RecordsInStep older S m recordOf recordOf') (hvouched : m.survey.Vouches S c) :
    w.RecordStep older known
      ((w.atRelease older).buildRecord l room ((w.atRelease older).dumpValue l room) recordOf c)
      (w.buildRecord m room (w.dumpValue m room) recordOf' c) known := by
  obtain ⟨hc, d, fields, hfound, htype⟩ := hvouched
  obtain ⟨-, hd, rfl⟩ := hl.entered.found _ _ _ hfound
  have hfound' : l.survey.found.get? c.id = some (d, (w.atRelease older).shown d) := by
    rcases hl.survey.get? c.id with ⟨-, hm⟩ | ⟨e, -, hl', hm⟩
    · cases hm.symm.trans hfound
    · obtain rfl := (Prod.mk.inj (Option.some.inj (hm.symm.trans hfound))).1
      exact hl'
  have hready : m.survey.Ready S known (heldComponents (w.shown d)) := by
    have hkids := ((hl.entered.kids _ _ _ hfound).resolve_left (by simp))
    exact (Survey.ready_of_firstOfEachId hkids).mono (List.nil_subset _)
  have hmem : c.componentType ∈ Builtin.types := Kind.type_mem (hS.builtin c hc)
  have hold : (w.atRelease older).policy.kindAllowed c.componentType older = true := by
    rw [atRelease, hS.policy]
    exact hS.allowed c hc
  have hnew : w.policy.kindAllowed c.componentType w.target.release = true := by
    rw [hS.policy]
    exact Policy.kindAllowed_mono hS.le (hS.allowed c hc)
  have hlift := InStep.lift (I := w.target.naming.Abreast older known)
    (baseEntries_matched hmem c room (header_withdrawn hS hc))
  simp only [buildRecord, fieldsOf, Survey.fields?, hfound, hfound', Option.map_some, lift_ok_bind]
  rw [if_pos (by exact hold), if_pos hnew]
  refine hlift.bind fun r r' => .assume fun hr => ?_
  rw [← htype] at hr
  refine (dumpFields_shown hS hdump hd hready hr).bind fun r r' => .assume fun hr => ?_
  refine (dumpHosted_inStep hl hrecord (htype ▸ hmem) c.id hr).mono ?_
  exact fun _ _ _ _ h => ⟨⟨_, htype ▸ hmem, h.1⟩, h.2⟩

theorem dumpItems_inStep (hdump : w.DumpsInStep older S m dump dump') {items : List Value}
    (hc : composedItems items) (hready : m.survey.Ready S known (Value.componentsOfList items)) :
    InStep (w.target.naming.Abreast older known) (dumpItems dump items) (dumpItems dump' items)
      fun ts us s t => ts = w.target.naming.withholdItems older us ∧
        w.target.naming.Abreast older ((Value.componentsOfList items).map (·.id) ++ known) s t := by
  induction items generalizing known with
  | nil =>
    refine .pure fun s t hst => ⟨by rw [NamingMode.withholdItems], ?_⟩
    rwa [Value.componentsOfList]
  | cons v rest ih =>
    obtain ⟨hv, hrest⟩ := Survey.ready_append hready
    refine (hdump known v hc.1 hv).bind fun t u => .assume fun ht => ?_
    refine (ih hc.2 hrest).bind fun ts us => .assume fun hts => ?_
    refine .pure fun s s' hs => ⟨by rw [NamingMode.withholdItems, ht, hts], hs.mono ?_⟩
    intro x hx
    rw [Value.componentsOfList] at hx
    simp only [List.map_append, List.mem_append] at hx ⊢
    tauto

/-- Records and values made up of components are written in step, within the same levels. -/
theorem writes_inStep (hS : w.Spans older S) (hl : w.LaidOut older S l m) (room : Nat) :
    w.RecordsInStep older S m ((w.atRelease older).record l room) (w.record m room) ∧
      w.DumpsInStep older S m ((w.atRelease older).dumpValue l room) (w.dumpValue m room) := by
  induction room with
  | zero =>
    constructor
    · intro known c h
      rw [record, record]
      exact remembered_inStep h fun _ => .throw _
    · intro known v _ _
      rw [dumpValue, dumpValue]
      exact .throw _
  | succ room ih =>
    obtain ⟨hrecord, hdump⟩ := ih
    have hbuilt : w.RecordsInStep older S m ((w.atRelease older).record l (room + 1))
        (w.record m (room + 1)) := by
      intro known c h
      rw [record, record]
      exact remembered_inStep h fun hc => buildRecord_inStep hS hl hdump hrecord hc
    refine ⟨hbuilt, fun known v hv hready => ?_⟩
    cases v with
    | component c =>
      rw [dumpValue_component, dumpValue_component]
      rw [Value.components] at hready ⊢
      refine (hbuilt known c hready.1).bind fun r r' => .assume fun hr => ?_
      exact .pure fun s t hst => ⟨hl.useOf hr c.id, hst⟩
    | list items =>
      rw [dumpValue, dumpValue]
      rw [Value.components] at hready ⊢
      refine (dumpItems_inStep hdump hv hready).bind fun ts us => .assume fun hts => ?_
      exact .pure fun s t hst => ⟨by rw [NamingMode.withhold, hts], hst⟩
    | data t => exact hv.elim
    | property p => exact hv.elim
    | map entries => exact hv.elim

theorem sidecarEntries_inStep (hS : w.Spans older S) (hl : w.LaidOut older S l m)
    (listed : List (String × String)) {entries entries' : Dict Tree}
    (h : entries = w.target.naming.withholdRecords older entries') :
    InStep (w.target.naming.Abreast older known) ((w.atRelease older).sidecarEntries l listed entries)
      (w.sidecarEntries m listed entries') fun es es' s t =>
        es = w.target.naming.withholdRecords older es' ∧ w.target.naming.Abreast older known s t := by
  induction listed generalizing known entries entries' with
  | nil => exact .pure fun s t hst => ⟨h, hst⟩
  | cons entry rest ih =>
    obtain ⟨id, reference⟩ := entry
    unfold sidecarEntries
    rcases hl.found id with ⟨hl', hm⟩ | ⟨d, hd, hl', hm⟩
    · simp only [hl', hm]
      exact ih h
    · simp only [hl', hm]
      refine ((writes_inStep hS hl w.maxDepth).1 known d (.inr hd)).bind fun r r' =>
        .assume fun ⟨type, _, hr⟩ => ?_
      refine (ih ?_).mono fun es es' s t hes => ⟨hes.1, hes.2.mono (List.subset_cons_self _ _)⟩
      rw [NamingMode.withholdRecords_eq, Dict.amend_put rfl, ← NamingMode.withholdRecords_eq, ← h,
        hr.withhold_eq]

theorem sidecarDocument_inStep (hS : w.Spans older S) (hl : w.LaidOut older S l m) :
    InStep (w.target.naming.Abreast older known) ((w.atRelease older).sidecarDocument l)
      (w.sidecarDocument m) fun t u _ _ => t = w.target.naming.asOf older u := by
  have hempty : [] = w.target.naming.withholdRecords older [] := by
    rw [NamingMode.withholdRecords]
  unfold sidecarDocument
  rw [hl.aliases]
  refine (sidecarEntries_inStep hS hl m.aliases hempty).bind fun es es' => .assume fun hes => ?_
  refine .pure fun s t _ => ?_
  rw [hes]
  exact asOf_sidecar es'

/-- What is written at the older release is what was written at the newer one, as the older has it. -/
theorem documents_inStep (hS : w.Spans older S) (hl : w.LaidOut older S l m)
    (hc : m.survey.Vouches S c) (exportSidecar : Bool) :
    InStep (w.target.naming.Abreast older known)
      ((w.atRelease older).documents l c exportSidecar) (w.documents m c exportSidecar)
      fun saved saved' _ _ => saved = saved'.asOf w.target.naming older := by
  refine ((writes_inStep hS hl (w.maxDepth + 1)).1 known c (.inr hc)).bind fun r r' =>
    .assume fun ⟨type, hmem, hr⟩ => ?_
  have hdocument := asOf_stampRoot hr hmem
  simp only [hl.aliases, hdocument]
  split
  · refine (sidecarDocument_inStep hS hl).bind fun t u => .pure ?_
    rintro _ _ rfl
    rfl
  · exact .pure fun s t _ => rfl

end Writer
end AgentGraph
