import AgentGraph.Proofs.Apart.Reading
import AgentGraph.Proofs.Record.Keys
/-!
# Records refer as the layout says

Whatever the writer builds is a record of the component that was met first under an id, in which
every use is a reference just if the layout has a name for what is used, and by that name. This
holds of the records within it and of those that it carries too. It says nothing of the table of
records built so far, so every record in the table keeps it.
-/
namespace AgentGraph

namespace Writer
variable {w : Writer} {root c : Component} {h : w.Regular root} {l : Layout}
  {listed : List (String × Option String)} {first : String → Component} {x : String}
  {record start : Dict Tree} {dump : Value → RecordM Tree}
  {recordOf : Component → RecordM (Dict Tree)}

/-- A record of an id that refers to others by the names that a layout has for them, and so do the
records in it. -/
inductive Follows (w : Writer) (l : Layout) (first : String → Component) :
    String → Dict Tree → Prop
  | intro {x : String} {record : Dict Tree}
      (refers : ∀ y name, w.HasUse (first x) record (y, w.referenceTo name) →
        l.reference? y = some name)
      (holds : ∀ y nested, w.HasUse (first x) record (y, .map nested) →
        (∀ name, .map nested ≠ w.referenceTo name) → Follows w l first y nested)
      (carries : w.target.naming.lastSpelled (w.shown (first x))
          w.target.naming.protocol.referencedComponents = none →
        ∀ y nested, (y, .map nested) ∈ w.target.naming.definitions record →
          Follows w l first y nested) :
      Follows w l first x record

/-- What stands for an id is a reference by the name that a layout has for it, or a record that
follows the layout. -/
structure UseFollows (w : Writer) (l : Layout) (first : String → Component)
    (use : String × Tree) : Prop where
  refers : ∀ name, use.2 = w.referenceTo name → l.reference? use.1 = some name
  holds : ∀ nested, use.2 = .map nested → (∀ name, use.2 ≠ w.referenceTo name) →
    w.Follows l first use.1 nested

/-- A record of the component that was met first under an id, and it follows the layout. -/
def Told (w : Writer) (l : Layout) (first : String → Component) (x : String)
    (record : Dict Tree) : Prop := w.Describes (first x) record ∧ w.Follows l first x record

/-- A run that builds only such records. -/
abbrev Tells {α : Type} (w : Writer) (l : Layout) (first : String → Component) (m : RecordM α)
    (Q : α → Prop) : Prop := Preserves (EachRecord (w.Told l first)) (fun _ => True) m Q

/-- A way to write values of the graph so that what is used in them follows the layout. -/
def TellsValues (w : Writer) (root : Component) (l : Layout) (first : String → Component)
    (dump : Value → RecordM Tree) : Prop :=
  ∀ v, (∀ c ∈ v.components, Component.Reaches w.children root c) →
    w.Tells l first (dump v) fun t => ∀ use ∈ v.usesIn t, w.UseFollows l first use

/-- A way to make records of the graph that follow the layout. -/
def TellsRecords (w : Writer) (root : Component) (l : Layout) (first : String → Component)
    (recordOf : Component → RecordM (Dict Tree)) : Prop :=
  ∀ c, Component.Reaches w.children root c → w.Tells l first (recordOf c) (w.Told l first c.id)

theorem protocol_apart (naming : NamingMode) :
    naming.protocol.componentType ≠ naming.protocol.componentRef ∧
      naming.protocol.componentType ≠ naming.protocol.referencedComponents ∧
      naming.protocol.referencedComponents ≠ "id" ∧
      naming.protocol.referencedComponents ≠ naming.protocol.version := by
  cases naming <;> decide

theorem referenceTo_inj {m n : String} (heq : w.referenceTo m = w.referenceTo n) : m = n := by
  simpa [referenceTo] using heq

theorem Describes.type_mem (hd : w.Describes c record) :
    w.target.naming.protocol.componentType ∈ Dict.keys record := by
  cases hs : w.target.naming.lastSpelled (w.shown c) w.target.naming.protocol.componentType with
  | some v => exact hd.fields _ v hs
  | none => exact Dict.mem_keys_iff.mpr ⟨_, hd.type hs⟩

/-- A record is no reference. -/
theorem Describes.ne_referenceTo (hd : w.Describes c record) (name : String) :
    Tree.map record ≠ w.referenceTo name := by
  intro heq
  obtain rfl := Tree.map.inj heq
  have hmem := hd.type_mem
  rw [Dict.keys_cons, Dict.keys_nil, List.mem_singleton] at hmem
  exact (protocol_apart w.target.naming).1 hmem

theorem useFollows_useOf (ht : w.Told l first x record) :
    w.UseFollows l first (x, w.useOf l x record) := by
  unfold useOf
  cases href : l.reference? x with
  | some target =>
    refine ⟨fun name heq => ?_, fun nested _ hno => absurd rfl (hno target)⟩
    rw [href, referenceTo_inj heq]
  | none =>
    refine ⟨fun name heq => absurd heq (ht.1.ne_referenceTo name), fun nested heq _ => ?_⟩
    exact Tree.map.inj heq ▸ ht.2

theorem tells_dumpItems (hdump : w.TellsValues root l first dump) {items : List Value}
    (hitems : ∀ c ∈ Value.componentsOfList items, Component.Reaches w.children root c) :
    w.Tells l first (dumpItems dump items) fun ts =>
      ∀ use ∈ Value.usesInItems items ts, w.UseFollows l first use := by
  induction items with
  | nil => exact .pure (by simp [Value.usesInItems])
  | cons v rest ih =>
    obtain ⟨hv, hrest⟩ := List.forall_mem_append.mp hitems
    refine (hdump v hv).bind fun t ht => (ih hrest).bind fun ts hts => .pure ?_
    exact List.forall_mem_append.mpr ⟨ht, hts⟩

theorem tells_dumpMapping (hdump : w.TellsValues root l first dump)
    {entries : List (String × Value)}
    (hentries : ∀ c ∈ Value.componentsOfEntries entries, Component.Reaches w.children root c) :
    w.Tells l first (dumpMapping dump entries) fun d =>
      ∀ use ∈ Value.usesInEntries entries d, w.UseFollows l first use := by
  induction entries with
  | nil => exact .pure (by simp [Value.usesInEntries])
  | cons entry rest ih =>
    obtain ⟨key, v⟩ := entry
    obtain ⟨hv, hrest⟩ := List.forall_mem_append.mp hentries
    unfold dumpMapping
    split
    · rename_i hkey
      refine (ih hrest).mono fun d hd => ?_
      rwa [Value.usesInEntries_reserved hkey]
    · rename_i hkey
      refine (hdump v hv).bind fun t ht => (ih hrest).bind fun d hd => .pure ?_
      rw [Value.usesInEntries_kept hkey]
      exact List.forall_mem_append.mpr ⟨ht, hd⟩

/-- A record after fields were put into it. -/
structure FieldsTold (w : Writer) (l : Layout) (first : String → Component) (fields : Dict Value)
    (start record : Dict Tree) : Prop where
  nodup : (Dict.keys start).Nodup → (Dict.keys record).Nodup
  told : ∀ key v, w.target.naming.lastSpelled fields key = some v →
    ∃ t, Dict.get? record key = some t ∧ ∀ use ∈ v.usesIn t, w.UseFollows l first use
  kept : ∀ key, w.target.naming.lastSpelled fields key = none →
    Dict.get? record key = Dict.get? start key

theorem tells_dumpFields (hdump : w.TellsValues root l first dump) {fields : Dict Value}
    (hfields : ∀ c ∈ heldComponents fields, Component.Reaches w.children root c)
    (start : Dict Tree) :
    w.Tells l first (w.dumpFields dump fields start) (w.FieldsTold l first fields start) := by
  induction fields generalizing start with
  | nil => exact .pure ⟨id, fun _ _ hno => (nomatch hno), fun _ _ => rfl⟩
  | cons f rest ih =>
    obtain ⟨hv, hrest⟩ := List.forall_mem_append.mp hfields
    refine (hdump f.2 hv).bind fun t ht => (ih hrest _).mono fun record hr => ?_
    have hput := Dict.get?_put start (w.target.naming.toDocument f.1)
    refine ⟨fun hs => hr.nodup (Dict.nodup_put hs _ _), fun key v hkey => ?_, fun key hkey => ?_⟩
    · rw [NamingMode.lastSpelled, Option.or_eq_some_iff] at hkey
      rcases hkey with hlater | ⟨hno, hkey⟩
      · exact hr.told key v hlater
      · split at hkey
        · rename_i hspelled
          obtain rfl := Option.some.inj hkey
          exact ⟨t, by rw [hr.kept key hno, hput, if_pos hspelled], ht⟩
        · cases hkey
    · rw [NamingMode.lastSpelled, Option.or_eq_none_iff] at hkey
      have hspelled : w.target.naming.toDocument f.1 ≠ key := by
        intro heq
        simp [heq] at hkey
      rw [hr.kept key hkey.1, hput, if_neg hspelled]

/-- The records of other ids that stand under the keys of a mapping follow the layout. -/
def EntriesTold (w : Writer) (l : Layout) (first : String → Component) (entries : Dict Tree) :
    Prop := ∀ p ∈ entries, ∃ record, p.2 = .map record ∧ w.Told l first p.1 record

/-- An entry of the sidecar for an id has the name that goes with the id, and its record. -/
def TopTold (w : Writer) (l : Layout) (first : String → Component) (named : String × String)
    (entry : String × Tree) : Prop :=
  entry.1 = named.2 ∧ ∃ record, entry.2 = .map record ∧ w.Told l first named.1 record

section
variable (P : w.Planned h listed l)
include P

theorem Planned.component?_spec {id : String} (hc : l.survey.component? id = some c) :
    c.id = id ∧ Component.Reaches w.children root c := by
  obtain ⟨⟨d, fields⟩, hd, rfl⟩ := Option.map_eq_some_iff.mp hc
  obtain ⟨hid, hreach, -⟩ := P.surveyed.known.found _ _ _ hd
  exact ⟨hid, hreach⟩

theorem tells_dumpEntries (hrecord : w.TellsRecords root l first recordOf) {ids : List String}
    {entries : Dict Tree} (hentries : w.EntriesTold l first entries) :
    w.Tells l first (dumpEntries l recordOf ids entries) (w.EntriesTold l first) := by
  induction ids generalizing entries with
  | nil => exact .pure hentries
  | cons id rest ih =>
    unfold dumpEntries
    split
    · exact ih hentries
    · rename_i c hc
      obtain ⟨rfl, hreach⟩ := P.component?_spec hc
      exact (hrecord c hreach).bind fun r hr => ih (Dict.forall_mem_put hentries ⟨r, rfl, hr⟩)

/-- A record after the records that it carries were added. -/
structure HostedTold (w : Writer) (l : Layout) (first : String → Component)
    (start record : Dict Tree) : Prop where
  nodup : (Dict.keys start).Nodup → (Dict.keys record).Nodup
  keys : ∀ key ∈ Dict.keys start, key ∈ Dict.keys record
  kept : ∀ key, key ≠ w.target.naming.protocol.referencedComponents →
    Dict.get? record key = Dict.get? start key
  told : Dict.get? start w.target.naming.protocol.referencedComponents = none →
    w.EntriesTold l first (w.target.naming.definitions record)

theorem tells_dumpHosted (hrecord : w.TellsRecords root l first recordOf) (anchor : String)
    (start : Dict Tree) :
    w.Tells l first (w.dumpHosted l recordOf anchor start) (w.HostedTold l first start) := by
  have hempty : w.EntriesTold l first [] := fun _ hp => nomatch hp
  unfold dumpHosted
  split
  · refine .pure ⟨id, fun _ hkey => hkey, fun _ _ => rfl, fun hnone => ?_⟩
    rwa [NamingMode.definitions, hnone]
  · refine (tells_dumpEntries P hrecord hempty).bind fun entries hentries =>
      .pure ⟨fun hs => Dict.nodup_put hs _ _, fun key hkey => Dict.mem_keys_put.mpr (.inr hkey),
        fun key hkey => Dict.get?_put_of_ne _ _ (Ne.symm hkey), fun _ => ?_⟩
    rwa [NamingMode.definitions, Dict.get?_put_self]

end

/-- What a record starts with, before its fields. -/
structure StartTold (w : Writer) (c : Component) (start : Dict Tree) : Prop where
  nodup : (Dict.keys start).Nodup
  type : Dict.get? start w.target.naming.protocol.componentType = some (.string c.componentType)
  carries : Dict.get? start w.target.naming.protocol.referencedComponents = none

theorem get?_header_carried (type : String) :
    Dict.get? (w.header type) w.target.naming.protocol.referencedComponents = none := by
  have hno : ∀ naming : NamingMode, naming.protocol.referencedComponents ∉
      [naming.protocol.componentType, naming.protocol.version, naming.protocol.pluginName,
        naming.protocol.pluginVersion] := by
    intro naming
    cases naming <;> decide
  exact Dict.get?_eq_none_iff.mpr fun hmem => hno _ ((w.keys_header_sublist type).subset hmem)

theorem startTold_header (c : Component) : w.StartTold c (w.header c.componentType) where
  nodup := by
    refine (w.keys_header_sublist c.componentType).nodup ?_
    cases w.target.naming <;> decide
  type := by simp [header_eq, Dict.get?]
  carries := get?_header_carried _

/-- The base entries leave the header as it is. -/
theorem startTold_base {room : Nat} {base : Dict Tree}
    (hbase : w.baseEntries c room (w.header c.componentType) = .ok base) :
    w.StartTold c base ∧ Dict.get? base "id" = some (.string c.id) := by
  have hapart : ∀ key ∈ Record.baseFields, key ∉ Dict.keys (w.header c.componentType) := by
    intro key hkey hmem
    have hall : ∀ naming : NamingMode, ∀ key ∈ Record.baseFields, key ∉
        [naming.protocol.componentType, naming.protocol.version, naming.protocol.pluginName,
          naming.protocol.pluginVersion] := by
      intro naming
      cases naming <;> decide
    exact hall _ key hkey ((w.keys_header_sublist c.componentType).subset hmem)
  have hcarried : w.target.naming.protocol.referencedComponents ∉ Dict.keys (baseOf c) := by
    intro hmem
    refine w.target.naming.protocol_not_base ?_ ((keys_baseOf c).subset hmem)
    simp [Protocol.names]
  have hstart := startTold_header (w := w) c
  obtain rfl := baseEntries_ok hapart hbase
  refine ⟨⟨?_, ?_, ?_⟩, ?_⟩
  · rw [Dict.keys_append]
    refine List.nodup_append.mpr ⟨hstart.nodup, (keys_baseOf c).nodup (by decide), ?_⟩
    rintro key hkey _ hbase rfl
    exact hapart key ((keys_baseOf c).subset hbase) hkey
  · rw [Dict.get?_append, hstart.type, Option.some_or]
  · rw [Dict.get?_append, hstart.carries, Option.none_or, Dict.get?_eq_none_iff.mpr hcarried]
  · rw [Dict.get?_append, Dict.get?_eq_none_iff.mpr (hapart "id" (by decide)), Option.none_or,
      (get?_baseOf c).1]

/-- Uses in the fields and the entries that are carried make up a record that follows. -/
theorem Follows.of_uses (huses : ∀ use, w.HasUse (first x) record use → w.UseFollows l first use)
    (hcarries : w.target.naming.lastSpelled (w.shown (first x))
        w.target.naming.protocol.referencedComponents = none →
      w.EntriesTold l first (w.target.naming.definitions record)) : w.Follows l first x record := by
  refine .intro (fun y name hu => (huses _ hu).refers name rfl)
    (fun y nested hu hno => (huses _ hu).holds nested rfl hno) fun hno y nested hmem => ?_
  obtain ⟨known, heq, htold⟩ := hcarries hno _ hmem
  exact Tree.map.inj heq ▸ htold.2

/-- A kind that is gated as a whole has a header only. -/
theorem told_header (htype : (first x).componentType = c.componentType)
    (hgated : ¬ w.policy.kindAllowed c.componentType w.target.release = true) :
    w.Told l first x (w.header c.componentType) := by
  have hstart := startTold_header (w := w) c
  have hnone : ∀ key, w.target.naming.lastSpelled (w.shown (first x)) key = none := by
    intro key
    rw [shown, htype, if_neg hgated]
    rfl
  refine ⟨⟨hstart.nodup, fun _ => ?_, fun hallowed => ?_, fun key v hkey => ?_⟩,
    .of_uses ?_ fun _ => ?_⟩
  · rw [hstart.type, htype]
  · exact absurd (htype ▸ hallowed) hgated
  · rw [hnone] at hkey
    cases hkey
  · rintro use ⟨key, v, t, hkey, -⟩
    rw [hnone] at hkey
    cases hkey
  · rw [NamingMode.definitions, hstart.carries]
    exact fun _ hp => absurd hp List.not_mem_nil

/-- A record is put together from its base entries, its fields and what it carries. -/
theorem told_of_parts {base fields : Dict Tree} (hid : (first x).id = c.id)
    (htype : (first x).componentType = c.componentType) (hbase : w.StartTold c base)
    (hbaseId : Dict.get? base "id" = some (.string c.id))
    (hfields : w.FieldsTold l first (w.shown (first x)) base fields)
    (hhosted : w.HostedTold l first fields record) : w.Told l first x record := by
  obtain ⟨-, htypeKey, hidKey, -⟩ := protocol_apart w.target.naming
  refine ⟨⟨hhosted.nodup (hfields.nodup hbase.nodup), fun hno => ?_, fun _ hno => ?_,
    fun key v hkey => ?_⟩, .of_uses ?_ fun hno => ?_⟩
  · rw [hhosted.kept _ htypeKey, hfields.kept _ hno, hbase.type, htype]
  · rw [hhosted.kept _ (Ne.symm hidKey), hfields.kept _ hno, hbaseId, hid]
  · obtain ⟨t, ht, -⟩ := hfields.told key v hkey
    exact hhosted.keys key (Dict.mem_keys_iff.mpr ⟨t, ht⟩)
  · rintro use ⟨key, v, t, hkey, hne, hget, huse⟩
    obtain ⟨u, hu, huses⟩ := hfields.told key v hkey
    rw [hhosted.kept key hne, hu] at hget
    exact huses use (Option.some.inj hget ▸ huse)
  · exact hhosted.told (by rw [hfields.kept _ hno, hbase.carries])

/-- The stamp of the release changes no use and nothing that is carried. -/
theorem Told.stamp (ht : w.Told l first x record) : w.Follows l first x (w.stampRoot record) := by
  obtain ⟨hd, refers, holds, carries⟩ := ht
  have hget : ∀ key, key ∈ Dict.keys record ∨ key ≠ w.target.naming.protocol.version →
      Dict.get? (w.stampRoot record) key = Dict.get? record key := by
    intro key hkey
    by_cases htype : key = w.target.naming.protocol.componentType
    · rw [htype, get?_stampRoot]
    · rw [get?_stampRoot_of_ne hd.nodup htype]
      rcases hkey with hmem | hne
      · obtain ⟨t, ht⟩ := Dict.mem_keys_iff.mp hmem
        rw [ht, Option.some_or]
      · rw [if_neg (Ne.symm hne), Option.or_none]
  have huses : ∀ use, w.HasUse (first x) (w.stampRoot record) use →
      w.HasUse (first x) record use := by
    rintro use ⟨key, v, t, hkey, hne, ht, huse⟩
    rw [hget key (.inl (hd.fields key v hkey))] at ht
    exact ⟨key, v, t, hkey, hne, ht, huse⟩
  refine .intro (fun y name hu => refers y name (huses _ hu))
    (fun y nested hu => holds y nested (huses _ hu))
    fun hno y nested hmem => carries hno y nested ?_
  have hsame := hget _ (.inr (protocol_apart w.target.naming).2.2.2)
  rwa [NamingMode.definitions, hsame] at hmem

section
variable (P : w.Planned h listed l) (hfirst : ∀ x, h.dag.Reaches root.id x →
  l.survey.found.get? x = some (first x, w.shown (first x)))
include P hfirst

theorem tells_buildRecord {room : Nat} (hdump : w.TellsValues root l first dump)
    (hrecord : w.TellsRecords root l first recordOf) (hc : Component.Reaches w.children root c) :
    w.Tells l first (w.buildRecord l room dump recordOf c) (w.Told l first c.id) := by
  have hfound := hfirst _ (h.reaches_root hc)
  obtain ⟨hid, hreach, -⟩ := P.surveyed.known.found _ _ _ hfound
  have htype := Component.same_type (h.coherent _ _ hreach hc hid)
  unfold buildRecord
  rw [fieldsOf_found hfound]
  refine Ends.lift (fun _ _ => trivial) fun fields hfields => ?_
  obtain rfl := Except.ok.inj hfields
  simp only
  split
  · refine Ends.lift (fun _ _ => trivial) fun base hbase => ?_
    obtain ⟨hstart, hstartId⟩ := startTold_base hbase
    refine (tells_dumpFields hdump (fun e he => hreach.kid he) base).bind fun fields hfields => ?_
    refine (tells_dumpHosted P hrecord c.id fields).mono fun record hhosted => ?_
    exact told_of_parts hid htype hstart hstartId hfields hhosted
  · exact Preserves.pure (told_header htype ‹_›)

/-- Records and values of all levels. -/
theorem writes_told (room : Nat) :
    w.TellsRecords root l first (w.record l room) ∧
      w.TellsValues root l first (w.dumpValue l room) := by
  induction room with
  | zero =>
    constructor
    · exact fun c _ => preserves_remembered_each (Ends.throw trivial)
    · exact fun v _ => Ends.throw trivial
  | succ room ih =>
    have hrecord : w.TellsRecords root l first (w.record l (room + 1)) := fun c hc =>
      preserves_remembered_each (tells_buildRecord P hfirst ih.2 ih.1 hc)
    refine ⟨hrecord, fun v hv => ?_⟩
    cases v with
    | data t =>
      have hdata : w.Tells l first (liftM (w.dumpData room t) >>= Pure.pure)
          fun t' => ∀ use ∈ (Value.data t).usesIn t', w.UseFollows l first use :=
        Ends.lift (fun _ _ => trivial) fun u _ => Preserves.pure (by simp [Value.usesIn])
      rwa [bind_pure] at hdata
    | component c =>
      rw [dumpValue_component]
      refine (hrecord c (hv c (by simp [Value.components]))).bind fun record hr => .pure ?_
      exact List.forall_mem_singleton.mpr (useFollows_useOf hr)
    | property p => exact .pure (by simp [Value.usesIn])
    | list items => exact (tells_dumpItems ih.2 hv).bind fun ts hts => .pure hts
    | map entries => exact (tells_dumpMapping ih.2 hv).bind fun d hd => .pure hd

/-- Every entry of the sidecar is made of the record of its id. -/
theorem tells_sidecarEntries {pairs : List (String × String)} {start : Dict Tree}
    (hpairs : ∀ p ∈ pairs, h.dag.Reaches root.id p.1)
    (hnodup : (Dict.keys start ++ pairs.map (·.2)).Nodup) :
    w.Tells l first (w.sidecarEntries l pairs start) fun entries => ∃ added,
      entries = start ++ added ∧ List.Forall₂ (w.TopTold l first) pairs added := by
  induction pairs generalizing start with
  | nil => exact .pure ⟨[], (List.append_nil _).symm, .nil⟩
  | cons p rest ih =>
    obtain ⟨id, name⟩ := p
    obtain ⟨hp, hrest⟩ := List.forall_mem_cons.mp hpairs
    obtain ⟨d, hd, rfl, hreach⟩ := P.surveyed.exists_found hp
    rw [List.map_cons] at hnodup
    rw [sidecarEntries]
    simp only [component?_found hd]
    refine ((writes_told P hfirst w.maxDepth).1 d hreach).bind fun record hr =>
      (ih hrest (Dict.nodup_put_next hnodup _)).mono ?_
    rintro entries ⟨added, rfl, hadded⟩
    refine ⟨(name, .map record) :: added, Dict.put_append (Dict.next_not_mem hnodup) _, ?_⟩
    exact .cons ⟨rfl, record, rfl, hr⟩ hadded

end
end Writer
end AgentGraph
