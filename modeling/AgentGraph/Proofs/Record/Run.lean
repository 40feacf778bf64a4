import AgentGraph.Proofs.Record.Render
/-!
# Writing records

Whatever the writer has built so far are whole records, and what it builds further on are records of
ids further down. The induction is on the room for levels; both the records and the values of a
level are written with those of the level below.
-/
namespace AgentGraph

namespace Writer
variable {w : Writer} {root : Component} {G : w.FullGraph root} {l : Layout}
  {listed : List (String × Option String)} {r r' r'' : Records} {n m : Nat} {s₀ : Survey}
  {table : PlacementTable}

/-- The record of an id says what it should, and all records that it uses or carries are known. -/
def Recorded (w : Writer) (root : Component) (l : Layout) (r : Records) (x : String)
    (record : Dict Tree) : Prop :=
  ∃ c d, c.id = x ∧ Component.Reaches w.children root c ∧
    l.survey.found.get? x = some (d, w.shown d) ∧ record = w.fullRecord l r c d ∧
    (∀ e ∈ w.children d, e.id ∈ Dict.keys r) ∧ ∀ y ∈ l.hosted x, y ∈ Dict.keys r

/-- All records built so far are whole. -/
def Whole (w : Writer) (root : Component) (l : Layout) (r : Records) : Prop :=
  ∀ x record, Dict.get? r x = some record → w.Recorded root l r x record

/-- Records were added, for ids below a rank only. -/
def Later (G : w.FullGraph root) (n : Nat) (r r' : Records) : Prop :=
  ∀ x, Dict.get? r' x = Dict.get? r x ∨ Dict.get? r x = none ∧ G.regular.dag.rank x < n

theorem Later.refl (G : w.FullGraph root) (n : Nat) (r : Records) : Later G n r r :=
  fun _ => .inl rfl

theorem Later.mono (h : Later G n r r') (hnm : n ≤ m) : Later G m r r' :=
  fun x => (h x).imp_right fun hx => ⟨hx.1, Nat.lt_of_lt_of_le hx.2 hnm⟩

theorem Later.trans (h : Later G n r r') (k : Later G n r' r'') : Later G n r r'' := by
  intro x
  rcases h x with hx | hx
  · rw [← hx]
    exact k x
  · exact .inr hx

theorem Later.get (h : Later G n r r') {x : String} (hx : x ∈ Dict.keys r) :
    Dict.get? r' x = Dict.get? r x :=
  (h x).resolve_right fun hno => Dict.get?_ne_none_iff.mpr hx hno.1

theorem Later.mem (h : Later G n r r') {x : String} (hx : x ∈ Dict.keys r) : x ∈ Dict.keys r' := by
  rw [← Dict.get?_ne_none_iff, h.get hx]
  exact Dict.get?_ne_none_iff.mpr hx

theorem Later.at (h : Later G n r r') {x : String} (hx : x ∈ Dict.keys r) : r.at x = r'.at x := by
  rw [Records.at, Records.at, h.get hx]

theorem Recorded.later {x : String} {record : Dict Tree} (h : w.Recorded root l r x record)
    (k : Later G n r r') : w.Recorded root l r' x record := by
  obtain ⟨c, d, rfl, hc, hd, rfl, hkids, hhosted⟩ := h
  refine ⟨c, d, rfl, hc, hd, ?_, fun e he => k.mem (hkids e he), fun y hy => k.mem (hhosted y hy)⟩
  rw [fullRecord, fullRecord, fieldEntries_congr fun e he => k.at (hkids e he),
    carried_congr fun y hy => k.at (hhosted y hy)]

/-- The components of a value are reached from the root, below a rank. -/
def Under (G : w.FullGraph root) (n : Nat) (cs : List Component) : Prop :=
  ∀ c ∈ cs, Component.Reaches w.children root c ∧ G.regular.dag.rank c.id < n

/-- What a run on values of some kind leaves behind. -/
structure Leaves (G : w.FullGraph root) (l : Layout) (n : Nat) (cs : List Component)
    (r r' : Records) : Prop where
  whole : w.Whole root l r'
  later : Later G n r r'
  known : ∀ c ∈ cs, c.id ∈ Dict.keys r'

theorem Leaves.append {cs ds : List Component} (h : Leaves G l n cs r r')
    (k : Leaves G l n ds r' r'') : Leaves G l n (cs ++ ds) r r'' := by
  refine ⟨k.whole, h.later.trans k.later, fun c hc => ?_⟩
  rcases List.mem_append.mp hc with hc | hc
  · exact k.later.mem (h.known c hc)
  · exact k.known c hc

/-- A way to write values is right. -/
def WritesValues (G : w.FullGraph root) (l : Layout) (dump : Value → RecordM Tree) : Prop :=
  ∀ n v r t r', v.KeysKept → Under G n v.components → w.Whole root l r → dump v r = .ok (t, r') →
    Leaves G l n v.components r r' ∧ t = w.render l r' v

/-- A way to make records is right. -/
def MakesRecords (G : w.FullGraph root) (l : Layout)
    (recordOf : Component → RecordM (Dict Tree)) : Prop :=
  ∀ c r record r', Component.Reaches w.children root c → w.Whole root l r →
    recordOf c r = .ok (record, r') →
    Leaves G l (G.regular.dag.rank c.id + 1) [c] r r' ∧ Dict.get? r' c.id = some record

theorem dumpItems_ok {dump : Value → RecordM Tree} (hdump : WritesValues G l dump)
    {items : List Value} {ts : List Tree} (hkept : keysKeptItems items)
    (hu : Under G n (Value.componentsOfList items)) (hr : w.Whole root l r)
    (hrun : dumpItems dump items r = .ok (ts, r')) :
    Leaves G l n (Value.componentsOfList items) r r' ∧ ts = w.renderItems l r' items := by
  induction items generalizing r ts with
  | nil =>
    obtain ⟨rfl, rfl⟩ := run_pure_ok hrun
    exact ⟨⟨hr, .refl G n _, by simp [Value.componentsOfList]⟩, rfl⟩
  | cons v rest ih =>
    simp only [Value.componentsOfList] at hu ⊢
    rw [dumpItems] at hrun
    obtain ⟨t, r₁, hv, h₁⟩ := run_bind_ok hrun
    obtain ⟨ts', r₂, hrest, h₂⟩ := run_bind_ok h₁
    obtain ⟨rfl, rfl⟩ := run_pure_ok h₂
    obtain ⟨hfirst, rfl⟩ := hdump n v r t r₁ hkept.1
      (fun c hc => hu c (List.mem_append_left _ hc)) hr hv
    obtain ⟨hlater, rfl⟩ := ih hkept.2 (fun c hc => hu c (List.mem_append_right _ hc))
      hfirst.whole hrest
    refine ⟨hfirst.append hlater, ?_⟩
    rw [renderItems, render_congr fun c hc => hlater.later.at (hfirst.known c hc)]

theorem dumpMapping_ok {dump : Value → RecordM Tree} (hdump : WritesValues G l dump)
    {entries : List (String × Value)} {ts : Dict Tree} (hkept : keysKeptEntries entries)
    (hu : Under G n (Value.componentsOfEntries entries)) (hr : w.Whole root l r)
    (hrun : dumpMapping dump entries r = .ok (ts, r')) :
    Leaves G l n (Value.componentsOfEntries entries) r r' ∧ ts = w.renderEntries l r' entries := by
  induction entries generalizing r ts with
  | nil =>
    obtain ⟨rfl, rfl⟩ := run_pure_ok hrun
    exact ⟨⟨hr, .refl G n _, by simp [Value.componentsOfEntries]⟩, rfl⟩
  | cons p rest ih =>
    obtain ⟨key, v⟩ := p
    obtain ⟨hkey, hv, hrest⟩ := hkept
    simp only [Value.componentsOfEntries] at hu ⊢
    simp only [dumpMapping, hkey, Bool.false_eq_true, if_false] at hrun
    obtain ⟨t, r₁, ht, h₁⟩ := run_bind_ok hrun
    obtain ⟨ts', r₂, hentries, h₂⟩ := run_bind_ok h₁
    obtain ⟨rfl, rfl⟩ := run_pure_ok h₂
    obtain ⟨hfirst, rfl⟩ := hdump n v r t r₁ hv (fun c hc => hu c (List.mem_append_left _ hc)) hr ht
    obtain ⟨hlater, rfl⟩ := ih hrest (fun c hc => hu c (List.mem_append_right _ hc))
      hfirst.whole hentries
    refine ⟨hfirst.append hlater, ?_⟩
    simp only [renderEntries, hkey, Bool.false_eq_true, if_false,
      render_congr fun c hc => hlater.later.at (hfirst.known c hc)]

/-- Fields go behind what a record has, if their keys are new. -/
theorem dumpFields_ok {dump : Value → RecordM Tree} (hdump : WritesValues G l dump)
    {fields : Dict Value} {start record : Dict Tree} (hkept : ∀ f ∈ fields, f.2.KeysKept)
    (hu : Under G n (heldComponents fields)) (hr : w.Whole root l r)
    (hkeys : (start.keys ++ (Dict.keys fields).map w.target.naming.toDocument).Nodup)
    (hrun : w.dumpFields dump fields start r = .ok (record, r')) :
    Leaves G l n (heldComponents fields) r r' ∧ record = start ++ w.fieldEntries l r' fields := by
  induction fields generalizing r start with
  | nil =>
    obtain ⟨rfl, rfl⟩ := run_pure_ok hrun
    refine ⟨⟨hr, .refl G n _, by simp [heldComponents, Value.componentsOfEntries]⟩, ?_⟩
    exact (List.append_nil _).symm
  | cons f rest ih =>
    obtain ⟨name, v⟩ := f
    obtain ⟨hv, hkept⟩ := List.forall_mem_cons.mp hkept
    simp only [heldComponents, Value.componentsOfEntries] at hu ⊢
    rw [dumpFields] at hrun
    obtain ⟨t, r₁, ht, h₁⟩ := run_bind_ok hrun
    obtain ⟨hfirst, rfl⟩ := hdump n v r t r₁ hv (fun c hc => hu c (List.mem_append_left _ hc)) hr ht
    rw [Dict.keys_cons, List.map_cons] at hkeys
    obtain ⟨hlater, rfl⟩ := ih hkept (fun c hc => hu c (List.mem_append_right _ hc)) hfirst.whole
      (Dict.nodup_put_next hkeys _) h₁
    refine ⟨hfirst.append hlater, ?_⟩
    rw [Dict.put_append (Dict.next_not_mem hkeys), fieldEntries, fieldEntries, List.map_cons,
      render_congr fun c hc => hlater.later.at (hfirst.known c hc)]

/-- The records that are carried for others, each by its id. -/
theorem dumpEntries_ok (hs : w.Surveyed G.regular root.id s₀ table l.survey)
    {recordOf : Component → RecordM (Dict Tree)}
    (hrecord : MakesRecords G l recordOf) {ids : List String} {start entries : Dict Tree}
    (hids : ∀ y ∈ ids, G.regular.dag.Reaches root.id y ∧ G.regular.dag.rank y < n)
    (hr : w.Whole root l r) (hkeys : (start.keys ++ ids).Nodup)
    (hrun : dumpEntries l recordOf ids start r = .ok (entries, r')) :
    w.Whole root l r' ∧ Later G n r r' ∧ (∀ y ∈ ids, y ∈ Dict.keys r') ∧
      entries = start ++ carriedEntries r' ids := by
  induction ids generalizing r start with
  | nil =>
    obtain ⟨rfl, rfl⟩ := run_pure_ok hrun
    exact ⟨hr, .refl G n _, by simp, (List.append_nil _).symm⟩
  | cons y rest ih =>
    obtain ⟨⟨hy, hrank⟩, hrest⟩ := List.forall_mem_cons.mp hids
    obtain ⟨d, hd, rfl, hreach⟩ := hs.exists_found hy
    rw [dumpEntries] at hrun
    simp only [component?_found hd] at hrun
    obtain ⟨record, r₁, hrec, h₁⟩ := run_bind_ok hrun
    obtain ⟨hfirst, hget⟩ := hrecord d r record r₁ hreach hr hrec
    obtain ⟨hwhole, hlater, hknown, rfl⟩ := ih hrest hfirst.whole (Dict.nodup_put_next hkeys _) h₁
    have hmem : d.id ∈ Dict.keys r₁ := Dict.mem_keys_iff.mpr ⟨record, hget⟩
    refine ⟨hwhole, (hfirst.later.mono hrank).trans hlater,
      List.forall_mem_cons.mpr ⟨hlater.mem hmem, hknown⟩, ?_⟩
    rw [Dict.put_append (Dict.next_not_mem hkeys), carriedEntries, carriedEntries, List.map_cons, Records.at,
      hlater.get hmem, hget, Option.getD_some]

theorem dumpData_ok {budget : Nat} {t u : Tree} (h : w.dumpData budget t = .ok u) :
    u = t.strip := by
  unfold dumpData at h
  split at h
  · cases h
  · exact (Except.ok.inj h).symm

/-- The base entries go behind a header that has none of them. -/
theorem baseEntries_ok {c : Component} {room : Nat} {head record : Dict Tree}
    (hhead : ∀ key ∈ Record.baseFields, key ∉ head.keys)
    (h : w.baseEntries c room head = .ok record) : record = head ++ baseOf c := by
  simp only [Record.baseFields, List.forall_mem_cons, List.not_mem_nil, false_imp_iff,
    implies_true, and_true] at hhead
  obtain ⟨hid, hname, hdescription, hmetadata⟩ := hhead
  have hput : ∀ {d : Dict Tree} {key : String} {t : Tree}, key ∉ head.keys → key ∉ d.keys →
      Dict.put (head ++ d) key t = head ++ (d ++ [(key, t)]) := by
    intro d key t hk hd
    rw [Dict.put_of_not_mem (by simp [Dict.keys_append, hk, hd]), List.append_assoc]
  have hstart : Dict.put (Dict.put head "id" (.string c.id)) "name" (.string c.name) =
      head ++ [("id", .string c.id), ("name", .string c.name)] := by
    rw [Dict.put_of_not_mem hid, hput hname (by simp)]
    rfl
  unfold baseEntries at h
  unfold baseOf descriptionEntry metadataEntry
  simp only [hstart] at h
  cases hd : c.description <;> simp only [hd] at h <;> split at h <;> rename_i hm
  · obtain rfl := Except.ok.inj h
    simp [hm]
  · obtain ⟨m, hdump, h⟩ := bind_ok h
    obtain rfl := Except.ok.inj h
    rw [hput hmetadata (by simp), dumpData_ok hdump]
    simp [hm]
  · obtain rfl := Except.ok.inj h
    rw [hput hdescription (by simp)]
    simp [hm]
  · obtain ⟨m, hdump, h⟩ := bind_ok h
    obtain rfl := Except.ok.inj h
    rw [hput hdescription (by simp), hput hmetadata (by simp), dumpData_ok hdump]
    simp [hm]

theorem dumpHosted_ok (P : w.Planned G.regular listed l)
    {recordOf : Component → RecordM (Dict Tree)} (hrecord : MakesRecords G l recordOf)
    {x : String} {start record : Dict Tree} (hx : G.regular.dag.Reaches root.id x)
    (hr : w.Whole root l r) (hkey : w.target.naming.protocol.referencedComponents ∉ start.keys)
    (hrun : w.dumpHosted l recordOf x start r = .ok (record, r')) :
    w.Whole root l r' ∧ Later G (G.regular.dag.rank x) r r' ∧
      (∀ y ∈ l.hosted x, y ∈ Dict.keys r') ∧ record = start ++ w.carried l r' x := by
  unfold dumpHosted at hrun
  cases hids : l.hosted x with
  | nil =>
    simp only [hids] at hrun
    obtain ⟨rfl, rfl⟩ := run_pure_ok hrun
    exact ⟨hr, .refl G _ _, by simp, by simp [carried, hids]⟩
  | cons y rest =>
    simp only [hids] at hrun
    obtain ⟨entries, r₁, he, h₁⟩ := run_bind_ok hrun
    obtain ⟨rfl, rfl⟩ := run_pure_ok h₁
    have hsub : ∀ z ∈ y :: rest, z ∈ l.sub x := fun z hz =>
      List.mem_append_right _ (hids ▸ hz)
    have hnodup : (y :: rest).Nodup := hids ▸ (List.nodup_append.mp (P.nodup_sub hx)).2.1
    obtain ⟨hwhole, hlater, hknown, rfl⟩ := dumpEntries_ok P.surveyed hrecord
      (fun z hz => ⟨hx.trans (P.below_of_sub hx (hsub z hz)).reaches,
        (P.below_of_sub hx (hsub z hz)).rank_lt⟩) hr (by simpa using hnodup) he
    refine ⟨hwhole, hlater, hknown, ?_⟩
    rw [Dict.put_of_not_mem hkey, carried, hids]
    rfl

theorem fieldsOf_found {c d : Component} (hd : l.survey.found.get? c.id = some (d, w.shown d)) :
    w.fieldsOf l c = .ok (w.shown d) := by
  simp [fieldsOf, Survey.fields?, hd]

/-- A record is built whole from the right records and values of the level below. -/
theorem buildRecord_ok (P : w.Planned G.regular listed l) {room : Nat}
    {dump : Value → RecordM Tree} {recordOf : Component → RecordM (Dict Tree)}
    (hdump : WritesValues G l dump) (hrecord : MakesRecords G l recordOf) {c : Component}
    {record : Dict Tree} (hc : Component.Reaches w.children root c) (hr : w.Whole root l r)
    (hrun : w.buildRecord l room dump recordOf c r = .ok (record, r')) :
    w.Whole root l r' ∧ Later G (G.regular.dag.rank c.id) r r' ∧
      w.Recorded root l r' c.id record := by
  have hcx := G.regular.reaches_root hc
  obtain ⟨d, hd, hid, hdreach⟩ := P.surveyed.exists_found hcx
  have hfull := G.inFull hdreach
  have hallowed := (G.inFull hc).allowed
  unfold buildRecord at hrun
  obtain ⟨fields, hf, h₁⟩ := run_lift_bind_ok hrun
  obtain rfl : w.shown d = fields := Except.ok.inj ((fieldsOf_found hd).symm.trans hf)
  simp only [hallowed, if_true] at h₁
  obtain ⟨base, hbase, h₂⟩ := run_lift_bind_ok h₁
  have hparts := nodup_recordParts w.target.naming hfull.apart
    (w.keys_header_sublist c.componentType) (List.Sublist.refl Record.baseFields) (w.keys_shown d)
    (List.Sublist.refl [w.target.naming.protocol.referencedComponents])
  obtain rfl := baseEntries_ok (fun key hkey hmem => by
    rw [List.append_assoc, List.append_assoc] at hparts
    exact (List.nodup_append.mp hparts).2.2 key hmem key (List.mem_append_left _ hkey) rfl) hbase
  have hkeys : (Dict.keys (w.header c.componentType ++ baseOf c) ++
      (Dict.keys (w.shown d)).map w.target.naming.toDocument ++
      [w.target.naming.protocol.referencedComponents]).Nodup := by
    rw [Dict.keys_append]
    exact ((((List.Sublist.refl _).append (keys_baseOf c)).append (.refl _)).append (.refl _)).nodup
      hparts
  obtain ⟨record₁, r₁, hfield, h₃⟩ := run_bind_ok h₂
  have hunder : Under G (G.regular.dag.rank c.id) (heldComponents (w.shown d)) := by
    intro e he
    refine ⟨hdreach.kid he, G.regular.dag.rank_lt ?_⟩
    rw [← hid]
    exact (G.regular.mem_kidsOf hdreach).mpr ⟨e, he, rfl⟩
  obtain ⟨hfirst, rfl⟩ := dumpFields_ok hdump
    (fun f hf => hfull.kept f (mem_shown hf)) hunder hr (List.nodup_append.mp hkeys).1 hfield
  obtain ⟨hwhole, hlater, hknown, rfl⟩ := dumpHosted_ok P hrecord hcx hfirst.whole
    (fun hmem => by
      refine (List.nodup_append.mp hkeys).2.2 _ ?_ _ (List.mem_singleton_self _) rfl
      rwa [Dict.keys_append, keys_fieldEntries] at hmem) h₃
  refine ⟨hwhole, hfirst.later.trans hlater, c, d, rfl, hc, hd, ?_,
    fun e he => hlater.mem (hfirst.known e he), hknown⟩
  rw [fullRecord, fieldEntries_congr fun e he => hlater.at (hfirst.known e he)]

theorem remembered_cases {id : String} {build : RecordM (Dict Tree)} {record : Dict Tree}
    (hrun : remembered id build r = .ok (record, r')) :
    (Dict.get? r id = some record ∧ r' = r) ∨
      (Dict.get? r id = none ∧ ∃ r₁, build r = .ok (record, r₁) ∧ r' = Dict.put r₁ id record) := by
  unfold remembered at hrun
  have h₁ := run_get_bind_ok hrun
  cases hseen : Dict.get? r id with
  | some known =>
    simp only [hseen] at h₁
    obtain ⟨rfl, rfl⟩ := run_pure_ok h₁
    exact .inl ⟨rfl, rfl⟩
  | none =>
    simp only [hseen] at h₁
    obtain ⟨built, r₁, hb, h₂⟩ := run_bind_ok h₁
    have h₃ := run_modify_bind_ok h₂
    obtain ⟨rfl, rfl⟩ := run_pure_ok h₃
    exact .inr ⟨rfl, r₁, hb, rfl⟩

/-- A record that was built before is at hand, and one that is built now is kept. -/
theorem remembered_ok {c : Component} {build : RecordM (Dict Tree)} {record : Dict Tree}
    (hbuild : ∀ record r', build r = .ok (record, r') → w.Whole root l r' ∧
      Later G (G.regular.dag.rank c.id) r r' ∧ w.Recorded root l r' c.id record)
    (hr : w.Whole root l r) (hrun : remembered c.id build r = .ok (record, r')) :
    Leaves G l (G.regular.dag.rank c.id + 1) [c] r r' ∧ Dict.get? r' c.id = some record := by
  obtain ⟨hseen, rfl⟩ | ⟨hseen, r₁, hb, rfl⟩ := remembered_cases hrun
  · refine ⟨⟨hr, .refl G _ _, fun e he => ?_⟩, hseen⟩
    obtain rfl := List.mem_singleton.mp he
    exact Dict.mem_keys_iff.mpr ⟨_, hseen⟩
  · obtain ⟨hwhole, hlater, hrecorded⟩ := hbuild record r₁ hb
    have hstill : Dict.get? r₁ c.id = none := by
      rcases hlater c.id with h | ⟨-, h⟩
      · exact h.trans hseen
      · exact absurd h (Nat.lt_irrefl _)
    have hput : Later G (G.regular.dag.rank c.id + 1) r₁ (Dict.put r₁ c.id record) := by
      intro x
      rw [Dict.get?_put]
      split
      · subst x
        exact .inr ⟨hstill, Nat.lt_succ_self _⟩
      · exact .inl rfl
    refine ⟨⟨fun x known hx => ?_, (hlater.mono (Nat.le_succ _)).trans hput, fun e he => ?_⟩,
      Dict.get?_put_self _ _ _⟩
    · rw [Dict.get?_put] at hx
      split at hx
      · subst x
        obtain rfl := Option.some.inj hx
        exact hrecorded.later hput
      · exact (hwhole x known hx).later hput
    · obtain rfl := List.mem_singleton.mp he
      exact Dict.mem_keys_put.mpr (.inl rfl)

/-- On every level the writer makes whole records and writes values as they should be. -/
theorem writes (P : w.Planned G.regular listed l) (room : Nat) :
    MakesRecords G l (w.record l room) ∧ WritesValues G l (w.dumpValue l room) := by
  induction room with
  | zero =>
    refine ⟨fun c r record r' hc hr hrun => ?_, fun n v r t r' _ _ _ hrun => ?_⟩
    · rw [Writer.record] at hrun
      exact remembered_ok (fun _ _ hb => (run_throw_ok hb).elim) hr hrun
    · rw [dumpValue] at hrun
      exact (run_throw_ok hrun).elim
  | succ room ih =>
    obtain ⟨hrecord, hvalue⟩ := ih
    have hmake : MakesRecords G l (w.record l (room + 1)) := by
      intro c r record r' hc hr hrun
      rw [Writer.record] at hrun
      exact remembered_ok (fun _ _ hb => buildRecord_ok P hvalue hrecord hc hr hb) hr hrun
    refine ⟨hmake, fun n v r t r' hkept hu hr hrun => ?_⟩
    cases v with
    | data d =>
      rw [dumpValue] at hrun
      obtain ⟨hdata, rfl⟩ := run_lift_ok hrun
      refine ⟨⟨hr, .refl G n _, by simp [Value.components]⟩, ?_⟩
      rw [render, dumpData_ok hdata]
    | component c =>
      rw [dumpValue_component] at hrun
      obtain ⟨record, r₁, hrec, h₁⟩ := run_bind_ok hrun
      obtain ⟨rfl, rfl⟩ := run_pure_ok h₁
      obtain ⟨hc, hrank⟩ := hu c (by simp)
      obtain ⟨hleaves, hget⟩ := hmake c r record r' hc hr hrec
      refine ⟨⟨hleaves.whole, hleaves.later.mono hrank, by simpa using hleaves.known⟩, ?_⟩
      rw [render, Records.at, hget, Option.getD_some]
    | property p =>
      rw [dumpValue] at hrun
      obtain ⟨rfl, rfl⟩ := run_pure_ok hrun
      exact ⟨⟨hr, .refl G n _, by simp [Value.components]⟩, by rw [render]⟩
    | list items =>
      rw [dumpValue] at hrun
      obtain ⟨ts, r₁, hitems, h₁⟩ := run_bind_ok hrun
      obtain ⟨rfl, rfl⟩ := run_pure_ok h₁
      simp only [Value.components] at hu ⊢
      obtain ⟨hleaves, rfl⟩ := dumpItems_ok hvalue hkept hu hr hitems
      exact ⟨hleaves, by rw [render]⟩
    | map entries =>
      rw [dumpValue] at hrun
      obtain ⟨ts, r₁, hentries, h₁⟩ := run_bind_ok hrun
      obtain ⟨rfl, rfl⟩ := run_pure_ok h₁
      simp only [Value.components] at hu ⊢
      obtain ⟨hleaves, rfl⟩ := dumpMapping_ok hvalue hkept hu hr hentries
      exact ⟨hleaves, by rw [render]⟩

end Writer
end AgentGraph
