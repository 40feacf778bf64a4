import AgentGraph.Proofs.Load.Returned
import AgentGraph.Proofs.Load.Runs
import AgentGraph.Proofs.Load.Written
/-!
# Reading extensions back

The record of an extension is read back field by field, each value by its shape. What was written for a
component looks like one, and nothing else does, so a list or a mapping is read through exactly if it
holds a component.
-/
namespace AgentGraph
open List (Forall₂)

section Shape
variable {naming : NamingMode}

theorem looksLikeComponent_eq_false {entries : Dict Tree}
    (h : ∀ key ∈ Dict.keys entries, naming.IsPlain key ∧ key ≠ naming.protocol.componentType) :
    Reader.looksLikeComponent naming entries = false := by
  have hno : ∀ key, (∀ k ∈ Dict.keys entries, k ≠ key) → Dict.has entries key = false := by
    intro key hne
    rw [← Bool.not_eq_true, Dict.has_iff]
    exact fun hmem => hne key hmem rfl
  rw [Reader.looksLikeComponent, hno _ fun k hk => (h k hk).2,
    hno _ fun k hk => (h k hk).1.not_reference]
  rfl

mutual
/-- Plain data without a discriminator holds nothing that looks like a component. -/
theorem Tree.Plain.holds_no_component {t : Tree} (h : t.Plain naming)
    (hl : t.Unlabelled naming) : Reader.holdsComponent naming t = false := by
  match t with
  | .null | .bool _ | .number _ | .string _ => rfl
  | .list items => exact plainItems_hold_no_component h hl
  | .map entries =>
    rw [Reader.holdsComponent, plainEntries_hold_no_component h hl, Bool.or_false]
    refine looksLikeComponent_eq_false fun key hkey => ?_
    obtain ⟨t, ht⟩ := Dict.mem_keys_iff.mp hkey
    have hmem := Dict.mem_of_get? ht
    exact ⟨(Tree.keysAll_map.mp h _ hmem).1, (Tree.keysAll_map.mp hl _ hmem).1⟩
theorem plainItems_hold_no_component {ts : List Tree} (h : Tree.keysAllItems naming.IsPlain ts)
    (hl : Tree.keysAllItems (· ≠ naming.protocol.componentType) ts) :
    Reader.itemsHoldComponent naming ts = false := by
  match ts with
  | [] => rfl
  | t :: rest =>
    rw [Reader.itemsHoldComponent, Tree.Plain.holds_no_component h.1 hl.1,
      plainItems_hold_no_component h.2 hl.2]
    rfl
theorem plainEntries_hold_no_component {d : List (String × Tree)}
    (h : Tree.keysAllEntries naming.IsPlain d)
    (hl : Tree.keysAllEntries (· ≠ naming.protocol.componentType) d) :
    Reader.entriesHoldComponent naming d = false := by
  match d with
  | [] => rfl
  | (key, t) :: rest =>
    rw [Reader.entriesHoldComponent, Tree.Plain.holds_no_component h.2.1 hl.2.1,
      plainEntries_hold_no_component h.2.2 hl.2.2]
    rfl
end

/-- Data that holds no component is read back as it is. -/
theorem Reader.valueOf_data {reader : Reader} {record : Record} {field : String} {t : Tree}
    (h : holdsComponent reader.naming t = false) :
    reader.valueOf record field t = pure (.data t) := by
  cases t with
  | list items =>
    rw [holdsComponent] at h
    simp [valueOf, h]
  | map entries =>
    rw [holdsComponent, Bool.or_eq_false_iff] at h
    simp [valueOf, h.1, h.2]
  | _ => rfl

end Shape

namespace Writer
variable {w : Writer} {l : Layout} {r : Records} {W : Watch} {reader : Reader} {record : Record}
  {R : LoadState → Component → Component → Prop} {field : String}

/-- What was written for a component looks like a component in the document. -/
def Shaped (w : Writer) (l : Layout) (r : Records) (c : Component) : Prop :=
  ∃ entries, w.written l r c.id = .map entries ∧
    Reader.looksLikeComponent w.target.naming entries = true

/-- No mapping of plain values without a discriminator looks like a component. -/
theorem looksLikeComponent_renderEntries {entries : List (String × Value)}
    (hplain : plainEntries w.target.naming entries)
    (hl : unlabelledEntries w.target.naming entries) :
    Reader.looksLikeComponent w.target.naming (w.renderEntries l r entries) = false := by
  have hlabels : ∀ key ∈ Dict.keys (w.renderEntries l r entries),
      key ≠ w.target.naming.protocol.componentType := by
    induction entries with
    | nil => simp [renderEntries]
    | cons p rest ih =>
      obtain ⟨key, v⟩ := p
      simp only [renderEntries, hplain.1.unreserved, Bool.false_eq_true, if_false, Dict.keys_cons,
        List.forall_mem_cons]
      exact ⟨hl.1, ih hplain.2.2 hl.2.2⟩
  exact looksLikeComponent_eq_false fun key hkey =>
    ⟨keys_renderEntries hplain key hkey, hlabels key hkey⟩

mutual
/-- A value that was written holds something that looks like a component if it holds a component. -/
theorem holdsComponent_render {v : Value} (hplain : v.Plain w.target.naming)
    (hl : v.Unlabelled w.target.naming) (hshaped : ∀ c ∈ v.components, w.Shaped l r c) :
    Reader.holdsComponent w.target.naming (w.render l r v) = !v.components.isEmpty := by
  match v with
  | .data t =>
    have hplain' : t.Plain w.target.naming := hplain
    rw [render, hplain'.unreserved.strip_eq]
    exact hplain'.holds_no_component hl
  | .property p =>
    have hplain' : p.toTree.Plain w.target.naming := hplain
    rw [render]
    exact hplain'.holds_no_component hl
  | .component c =>
    obtain ⟨entries, hwritten, hlooks⟩ := hshaped c (by simp)
    rw [written] at hwritten
    rw [render, hwritten, Reader.holdsComponent, hlooks]
    rfl
  | .list items =>
    rw [Value.components] at hshaped ⊢
    rw [render, Reader.holdsComponent]
    exact itemsHoldComponent_render hplain hl hshaped
  | .map entries =>
    rw [Value.components] at hshaped ⊢
    rw [render, Reader.holdsComponent, looksLikeComponent_renderEntries hplain hl, Bool.false_or]
    exact entriesHoldComponent_render hplain hl hshaped
theorem itemsHoldComponent_render {items : List Value} (hplain : plainItems w.target.naming items)
    (hl : unlabelledItems w.target.naming items)
    (hshaped : ∀ c ∈ Value.componentsOfList items, w.Shaped l r c) :
    Reader.itemsHoldComponent w.target.naming (w.renderItems l r items) =
      !(Value.componentsOfList items).isEmpty := by
  match items with
  | [] => rfl
  | v :: rest =>
    rw [Value.componentsOfList] at hshaped ⊢
    obtain ⟨hv, hrest⟩ := List.forall_mem_append.mp hshaped
    rw [renderItems, Reader.itemsHoldComponent, holdsComponent_render hplain.1 hl.1 hv,
      itemsHoldComponent_render hplain.2 hl.2 hrest]
    cases v.components <;> rfl
theorem entriesHoldComponent_render {entries : List (String × Value)}
    (hplain : plainEntries w.target.naming entries)
    (hl : unlabelledEntries w.target.naming entries)
    (hshaped : ∀ c ∈ Value.componentsOfEntries entries, w.Shaped l r c) :
    Reader.entriesHoldComponent w.target.naming (w.renderEntries l r entries) =
      !(Value.componentsOfEntries entries).isEmpty := by
  match entries with
  | [] => rfl
  | (key, v) :: rest =>
    rw [Value.componentsOfEntries] at hshaped ⊢
    obtain ⟨hv, hrest⟩ := List.forall_mem_append.mp hshaped
    simp only [renderEntries, hplain.1.unreserved, Bool.false_eq_true, if_false,
      Reader.entriesHoldComponent, holdsComponent_render hplain.2.1 hl.2.1 hv,
      entriesHoldComponent_render hplain.2.2 hl.2.2 hrest]
    cases v.components <;> rfl
end

/-- A reader that gives for every component in some values one that stands for it. -/
structure Giving (w : Writer) (l : Layout) (r : Records) (W : Watch) (reader : Reader)
    (record : Record) (R : LoadState → Component → Component → Prop)
    (cs : List Component) : Prop where
  naming : reader.naming = w.target.naming
  shaped : ∀ c ∈ cs, w.Shaped l r c
  component : ∀ u field, ∀ c ∈ cs,
    W.Runs u (reader.componentOf record field (w.written l r c.id)) fun t c' => R t c c'
  stays : ∀ {u t c c'}, W.step u t → R u c c' → R t c c'

theorem Giving.mono {cs ds : List Component} (H : w.Giving l r W reader record R cs)
    (h : ∀ d ∈ ds, d ∈ cs) : w.Giving l r W reader record R ds :=
  ⟨H.naming, fun d hd => H.shaped d (h d hd), fun u field d hd => H.component u field d (h d hd),
    H.stays⟩

mutual
/-- What was written for a value is read back as the value. -/
theorem runs_valueOf {v : Value} (hplain : v.Plain w.target.naming)
    (hl : v.Unlabelled w.target.naming) (H : w.Giving l r W reader record R v.components)
    (u : LoadState) : W.Runs u (reader.valueOf record field (w.render l r v)) fun t v' =>
      ReturnedValue (R t) v v' := by
  have hholds := holdsComponent_render hplain hl H.shaped
  match v with
  | .data t =>
    have hplain' : t.Plain w.target.naming := hplain
    rw [render, hplain'.unreserved.strip_eq]
    rw [Reader.valueOf_data (by rw [H.naming]; exact hplain'.holds_no_component hl)]
    exact .pure (.data t)
  | .property p =>
    rw [Reader.valueOf_data (by rw [H.naming, hholds]; rfl)]
    exact .pure (.property p)
  | .component c =>
    have hc : c ∈ (Value.component c).components := by simp
    obtain ⟨entries, hwritten, hlooks⟩ := H.shaped c hc
    have hruns := H.component u field c hc
    rw [hwritten] at hruns
    rw [written] at hwritten
    rw [render, hwritten]
    simp only [Reader.valueOf, H.naming, hlooks, if_true]
    exact hruns.bind fun t c' _ hcc => .pure (.component hcc)
  | .list items =>
    rw [render, Reader.holdsComponent] at hholds
    rw [render, Reader.valueOf, H.naming, hholds]
    cases hitems : Value.componentsOfList items with
    | nil =>
      rw [Value.components, hitems]
      exact .pure (.bareList _ hitems)
    | cons c rest =>
      rw [Value.components, hitems]
      exact (runs_itemsOf hplain hl H u).bind fun t items' _ h => .pure (.list h)
  | .map entries =>
    have hlooks := looksLikeComponent_renderEntries (l := l) (r := r) hplain hl
    rw [render, Reader.holdsComponent, hlooks, Bool.false_or] at hholds
    rw [render, Reader.valueOf, H.naming, hlooks, hholds]
    cases hentries : Value.componentsOfEntries entries with
    | nil =>
      rw [Value.components, hentries]
      exact .pure (.bareMap _ hentries)
    | cons c rest =>
      rw [Value.components, hentries]
      exact (runs_entriesOf hplain hl H u).bind fun t entries' _ h => .pure (.map h)
theorem runs_itemsOf {items : List Value} (hplain : plainItems w.target.naming items)
    (hl : unlabelledItems w.target.naming items)
    (H : w.Giving l r W reader record R (Value.componentsOfList items)) (u : LoadState) :
    W.Runs u (reader.itemsOf record field (w.renderItems l r items)) fun t items' =>
      ReturnedItems (R t) items items' := by
  match items with
  | [] => exact .pure .nil
  | v :: rest =>
    rw [Value.componentsOfList] at H
    rw [renderItems, Reader.itemsOf]
    refine (runs_valueOf hplain.1 hl.1 (H.mono fun _ => List.mem_append_left _) u).bind
      fun t v' _ hv => ?_
    refine (runs_itemsOf hplain.2 hl.2 (H.mono fun _ => List.mem_append_right _) t).bind
      fun t' rest' hstep hrest => ?_
    exact .pure (.cons (hv.mono fun _ _ => H.stays hstep) hrest)
theorem runs_entriesOf {entries : List (String × Value)}
    (hplain : plainEntries w.target.naming entries)
    (hl : unlabelledEntries w.target.naming entries)
    (H : w.Giving l r W reader record R (Value.componentsOfEntries entries)) (u : LoadState) :
    W.Runs u (reader.entriesOf record field (w.renderEntries l r entries)) fun t entries' =>
      ReturnedEntries (R t) entries entries' := by
  match entries with
  | [] => exact .pure .nil
  | (key, v) :: rest =>
    rw [Value.componentsOfEntries] at H
    simp only [renderEntries, hplain.1.unreserved, Bool.false_eq_true, if_false]
    rw [Reader.entriesOf]
    refine (runs_valueOf hplain.2.1 hl.2.1 (H.mono fun _ => List.mem_append_left _) u).bind
      fun t v' _ hv => ?_
    refine (runs_entriesOf hplain.2.2 hl.2.2 (H.mono fun _ => List.mem_append_right _) t).bind
      fun t' rest' hstep hrest => ?_
    exact .pure (.cons (hv.mono fun _ _ => H.stays hstep) hrest)
end

/-- Fields that are told apart once they are read are put into a bag one after the other. -/
theorem runs_bagOf {declared : List String} {fields bag : Dict Value}
    (hnodup : (Dict.keys bag ++
      (Dict.keys fields).map (w.target.naming.readAs declared)).Nodup)
    (hplain : ∀ f ∈ fields, f.2.Plain w.target.naming)
    (hl : ∀ f ∈ fields, f.2.Unlabelled w.target.naming)
    (H : w.Giving l r W reader record R (heldComponents fields)) (u : LoadState) :
    W.Runs u (reader.bagOf record
        (fields.map fun f => (w.target.naming.readAs declared f.1, w.render l r f.2)) bag)
      fun t back => ∃ fields', back = bag ++ fields' ∧
        Forall₂ (w.ReturnedField (R t) declared) fields fields' := by
  induction fields generalizing bag u with
  | nil => exact .pure ⟨[], (List.append_nil bag).symm, .nil⟩
  | cons f rest ih =>
    obtain ⟨name, v⟩ := f
    have hheld : heldComponents ((name, v) :: rest) = v.components ++ heldComponents rest := by
      rw [heldComponents, Value.componentsOfEntries]
      rfl
    rw [hheld] at H
    obtain ⟨hv, hrest⟩ := List.forall_mem_cons.mp hplain
    obtain ⟨hlv, hlrest⟩ := List.forall_mem_cons.mp hl
    rw [Dict.keys_cons, List.map_cons] at hnodup
    rw [List.map_cons, Reader.bagOf]
    refine (runs_valueOf hv hlv (H.mono fun _ => List.mem_append_left _) u).bind
      fun t v' _ hback => ?_
    refine (ih (Dict.nodup_put_next hnodup v') hrest hlrest
      (H.mono fun _ => List.mem_append_right _) t).mono ?_
    rintro t' back hstep ⟨fields', rfl, hfields⟩
    refine ⟨(w.target.naming.readAs declared name, v') :: fields',
      Dict.put_append (Dict.next_not_mem hnodup) v', .cons ⟨rfl, ?_⟩ hfields⟩
    exact hback.mono fun _ _ => H.stays hstep

section Own
variable {c d : Component} {front : Dict Tree}

theorem isOwnKey_eq_false {record : Record} {key : String}
    (h : key ∈ record.naming.protocol.names ∨ key ∈ Record.baseFields) :
    record.isOwnKey key = false := by
  rw [Record.isOwnKey, NamingMode.isProtocol, ← Bool.not_or, Bool.not_eq_false', Bool.or_eq_true,
    List.contains_iff_mem, List.contains_iff_mem]
  exact h

/-- The own fields of a record are those of its kind, in order. -/
theorem ownFields_eq (hfront : w.IsFront c front) (hd : w.InFull d)
    (hfields : record.fields =
      front ++ w.fieldEntries l r (w.shown d) ++ w.carried l r c.id)
    (hnaming : record.naming = w.target.naming) (declared : List String) :
    record.ownFields declared =
      (w.shown d).map fun f => (w.target.naming.readAs declared f.1, w.render l r f.2) := by
  have hhead : ∀ p ∈ front, record.isOwnKey p.1 = false := by
    intro p hp
    refine isOwnKey_eq_false ?_
    rw [hnaming]
    by_cases hbase : p.1 ∈ Record.baseFields
    · exact .inr hbase
    · exact .inl (hfront.mem_names (Dict.mem_keys_of_mem hp) hbase).1
  have hcarried : ∀ p ∈ w.carried l r c.id, record.isOwnKey p.1 = false := by
    intro p hp
    have hkey := (keys_carried w l r c.id).subset (Dict.mem_keys_of_mem hp)
    refine isOwnKey_eq_false (.inl ?_)
    rw [List.mem_singleton.mp hkey, hnaming]
    simp [Protocol.names]
  have hkind : ∀ p ∈ w.fieldEntries l r (w.shown d), record.isOwnKey p.1 = true := by
    intro p hp
    obtain ⟨f, hf, rfl⟩ := List.mem_map.mp hp
    have hname := mem_keys_shown (Dict.mem_keys_of_mem hf)
    rw [Record.isOwnKey, Bool.and_eq_true, Bool.not_eq_true', Bool.not_eq_true',
      ← Bool.not_eq_true, ← Bool.not_eq_true, NamingMode.isProtocol, List.contains_iff_mem,
      List.contains_iff_mem, hnaming]
    exact ⟨hd.spelled_not_protocol hname, hd.spelled_not_base hname⟩
  rw [Record.ownFields, hfields, List.filter_append, List.filter_append,
    List.filter_eq_nil_iff.mpr (by simpa using hhead), List.filter_eq_self.mpr hkind,
    List.filter_eq_nil_iff.mpr (by simpa using hcarried), List.nil_append, List.append_nil,
    fieldEntries, List.map_map]
  refine List.map_congr_left fun f _ => ?_
  simp only [Function.comp_apply, Record.internalName, NamingMode.readAs, hnaming]

/-- A plugin that keeps bags reads the record of an extension back. -/
theorem runs_readBag {type : String} {fields : Dict Value}
    (h : w.registry.ReadsBag w.target.naming type fields) (hfront : w.IsFront c front)
    (hd : w.InFull d) (hshown : w.shown d = fields) (hrecord : record.fields =
      front ++ w.fieldEntries l r (w.shown d) ++ w.carried l r c.id)
    (hnaming : record.naming = w.target.naming) (htype : record.componentType = type)
    (hplain : ∀ f ∈ fields, f.2.Plain w.target.naming)
    (H : w.Giving l r W reader record R (heldComponents fields)) (u : LoadState) :
    ∃ owner, w.registry.owner? type = some owner ∧
      W.Runs u (owner.plugin.read reader record)
        fun t k => w.Returned (R t) (.extension type fields) k := by
  obtain ⟨declared, hkept, hnodup⟩ := h.kept
  obtain ⟨name, version, types, howner⟩ := hkept
  refine ⟨_, howner, ?_⟩
  have hown := ownFields_eq hfront hd hrecord hnaming declared
  rw [hshown] at hown
  have hnodup' : (Dict.keys ([] : Dict Value) ++
      (Dict.keys fields).map (w.target.naming.readAs declared)).Nodup := by
    rwa [Dict.keys_nil, List.nil_append]
  have hbag := runs_bagOf hnodup' hplain h.unlabelled H u
  simp only [Plugin.generic, Reader.bag, hown, htype]
  refine hbag.bind fun t back _ hback => ?_
  obtain ⟨fields', rfl, hfields⟩ := hback
  refine .pure (.extension ⟨name, version, types, howner⟩ ?_ hfields)
  rwa [keys_returned hfields]

end Own
end Writer
end AgentGraph
