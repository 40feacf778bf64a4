import AgentGraph.Proofs.Legible
import AgentGraph.Proofs.Load.Scan
import AgentGraph.Proofs.Record.Laid
/-!
# Scanning a saved document

In a graph with plain data the records of a saved document hold no key that is dropped, and the scan
finds in them the entries that they carry and the references at the uses of components.
-/
namespace AgentGraph

namespace Writer
variable {w : Writer} {root c d : Component} {l : Layout} {r : Records} {x y : String}
  {record : Dict Tree} {listed : List (String × Option String)} {exportSidecar : Bool}
  {saved : Saved} {G : w.FullGraph root}

theorem keys_renderEntries {entries : List (String × Value)}
    (hplain : plainEntries w.target.naming entries) :
    ∀ key ∈ Dict.keys (w.renderEntries l r entries), w.target.naming.IsPlain key := by
  induction entries with
  | nil => simp [renderEntries]
  | cons p rest ih =>
    obtain ⟨key, v⟩ := p
    simp only [renderEntries, hplain.1.unreserved, Bool.false_eq_true, if_false, Dict.keys_cons,
      List.forall_mem_cons]
    exact ⟨hplain.1, ih hplain.2.2⟩

section Render
variable {U : String → Prop} {F : String → Dict (Dict Tree)}

mutual
/-- In what a value looks like the scan finds what it finds where components are used. -/
theorem finds_render {v : Value} (hplain : v.Plain w.target.naming)
    (h : ∀ c ∈ v.components,
      Scan.Finds w.target.naming.protocol U [w.written l r c.id] (F c.id)) :
    Scan.Finds w.target.naming.protocol U [w.render l r v]
      (v.components.flatMap fun c => F c.id) := by
  match v with
  | .data t =>
    rw [render, Value.components, Tree.Plain.unreserved hplain |>.strip_eq]
    exact Scan.finds_plain hplain
  | .property p =>
    rw [render, Value.components]
    exact Scan.finds_plain hplain
  | .component c =>
    rw [render, Value.components, List.flatMap_singleton]
    exact h c (by simp)
  | .list items =>
    rw [render, Value.components]
    exact Scan.finds_list (finds_renderItems hplain (by simpa [Value.components] using h))
  | .map entries =>
    have hkeys : ∀ key ∈ Dict.keys (w.renderEntries l r entries), w.target.naming.IsPlain key :=
      keys_renderEntries hplain
    rw [render, Value.components]
    exact Scan.finds_map (fun hmem => (hkeys _ hmem).not_reference rfl)
      (fun hmem => (hkeys _ hmem).not_sidecar rfl)
      (finds_renderEntries hplain (by simpa [Value.components] using h))
theorem finds_renderItems {items : List Value} (hplain : plainItems w.target.naming items)
    (h : ∀ c ∈ Value.componentsOfList items,
      Scan.Finds w.target.naming.protocol U [w.written l r c.id] (F c.id)) :
    Scan.Finds w.target.naming.protocol U (w.renderItems l r items)
      ((Value.componentsOfList items).flatMap fun c => F c.id) := by
  match items with
  | [] =>
    rw [renderItems, Value.componentsOfList]
    exact Scan.finds_nil
  | v :: rest =>
    rw [Value.componentsOfList] at h ⊢
    obtain ⟨hv, hrest⟩ := List.forall_mem_append.mp h
    rw [renderItems, List.flatMap_append]
    exact (finds_render hplain.1 hv).cons (finds_renderItems hplain.2 hrest)
theorem finds_renderEntries {entries : List (String × Value)}
    (hplain : plainEntries w.target.naming entries)
    (h : ∀ c ∈ Value.componentsOfEntries entries,
      Scan.Finds w.target.naming.protocol U [w.written l r c.id] (F c.id)) :
    Scan.Finds w.target.naming.protocol U (Dict.values (w.renderEntries l r entries))
      ((Value.componentsOfEntries entries).flatMap fun c => F c.id) := by
  match entries with
  | [] =>
    rw [renderEntries, Value.componentsOfEntries]
    exact Scan.finds_nil
  | (key, v) :: rest =>
    obtain ⟨hkey, hv, hrest⟩ := hplain
    rw [Value.componentsOfEntries] at h ⊢
    obtain ⟨hfirst, hlater⟩ := List.forall_mem_append.mp h
    simp only [renderEntries, hkey.unreserved, Bool.false_eq_true, if_false, List.flatMap_append]
    exact (finds_render hv hfirst).cons (finds_renderEntries hrest hlater)
end

theorem finds_fieldEntries {fields : Dict Value}
    (hplain : ∀ f ∈ fields, f.2.Plain w.target.naming)
    (h : ∀ c ∈ heldComponents fields,
      Scan.Finds w.target.naming.protocol U [w.written l r c.id] (F c.id)) :
    Scan.Finds w.target.naming.protocol U (Dict.values (w.fieldEntries l r fields))
      ((heldComponents fields).flatMap fun c => F c.id) := by
  have hvalues : Dict.values (w.fieldEntries l r fields) =
      fields.map fun f => w.render l r f.2 := by
    simp [Dict.values, fieldEntries]
  rw [heldComponents, Value.componentsOfEntries_eq] at h ⊢
  rw [hvalues, List.flatMap_assoc]
  refine Scan.finds_flatMap fun f hf => finds_render (hplain f hf) fun c hc => ?_
  exact h c (List.mem_flatMap.mpr ⟨f, hf, hc⟩)

theorem finds_baseOf (hplain : (Tree.map c.metadata).Plain w.target.naming) :
    ∀ p ∈ baseOf c, Scan.Finds w.target.naming.protocol U [p.2] [] := by
  have hdescription : ∀ p ∈ descriptionEntry c,
      Scan.Finds w.target.naming.protocol U [p.2] [] := by
    unfold descriptionEntry
    cases c.description with
    | none => simp
    | some text => exact List.forall_mem_singleton.mpr (Scan.finds_string text)
  have hmetadata : ∀ p ∈ metadataEntry c, Scan.Finds w.target.naming.protocol U [p.2] [] := by
    unfold metadataEntry
    split
    · simp
    · refine List.forall_mem_singleton.mpr ?_
      rw [hplain.unreserved.strip_eq]
      exact Scan.finds_plain hplain
  have htexts : ∀ p ∈ [("id", Tree.string c.id), ("name", Tree.string c.name)],
      Scan.Finds w.target.naming.protocol U [p.2] [] :=
    List.forall_mem_cons.mpr ⟨Scan.finds_string _, List.forall_mem_singleton.mpr
      (Scan.finds_string _)⟩
  exact List.forall_mem_append.mpr ⟨List.forall_mem_append.mpr ⟨htexts, hdescription⟩, hmetadata⟩

/-- In front of the fields the scan finds nothing. -/
theorem IsFront.finds {front : Dict Tree} (h : w.IsFront c front)
    (hplain : (Tree.map c.metadata).Plain w.target.naming) :
    Scan.Finds w.target.naming.protocol U (Dict.values front) [] := by
  obtain ⟨extra, hextra, hperm⟩ := h
  have hplugin : ∀ p ∈ w.pluginEntries c.componentType, ∃ text, p.2 = .string text := by
    unfold pluginEntries
    split
    · exact List.forall_mem_cons.mpr ⟨⟨_, rfl⟩, List.forall_mem_singleton.mpr ⟨_, rfl⟩⟩
    · simp
  have hone : ∀ p ∈ front, Scan.Finds w.target.naming.protocol U [p.2] [] := by
    intro p hp
    have hmem := hperm.mem_iff.mp hp
    rw [List.mem_append, List.mem_append, header_eq, List.mem_cons] at hmem
    rcases hmem with ((rfl | hmem) | hmem) | hmem
    · exact Scan.finds_string _
    · obtain ⟨text, htext⟩ := hplugin p hmem
      rw [htext]
      exact Scan.finds_string text
    · rcases hextra with rfl | rfl
      · cases hmem
      · obtain rfl := List.mem_singleton.mp hmem
        exact Scan.finds_string _
    · exact finds_baseOf hplain p hmem
  have hall := Scan.finds_flatMap hone
  rwa [List.flatMap_eq_nil_iff.mpr fun _ _ => rfl] at hall

end Render

/-- The records that an id carries, by the ids under which references find them. -/
def entriesOf (l : Layout) (r : Records) (x : String) : Dict (Dict Tree) :=
  (l.hosted x).map fun y => (y, r.at y)

theorem values_append {α : Type} (d e : Dict α) :
    Dict.values (d ++ e) = Dict.values d ++ Dict.values e := List.map_append

/-- What is carried is scanned entry by entry; the ids are no keys that mean anything. -/
theorem finds_carried {U : String → Prop} {E : String → Dict (Dict Tree)}
    (hids : ∀ y ∈ l.hosted x, w.target.naming.IsPlain y)
    (h : ∀ y ∈ l.hosted x, Scan.Finds w.target.naming.protocol U [.map (r.at y)] (E y)) :
    Scan.Finds w.target.naming.protocol U (Dict.values (w.carried l r x))
      ((l.hosted x).flatMap E) := by
  unfold carried
  split
  · rename_i hempty
    rw [List.isEmpty_iff.mp hempty]
    exact Scan.finds_nil
  · have hkeys : Dict.keys (carriedEntries r (l.hosted x)) = l.hosted x := by
      simp [carriedEntries, Dict.keys, Function.comp_def]
    have hvalues : Dict.values (carriedEntries r (l.hosted x)) =
        (l.hosted x).map fun y => .map (r.at y) := by
      simp [carriedEntries, Dict.values]
    refine Scan.finds_map ?_ ?_ ?_
    · rw [hkeys]
      exact fun hmem => (hids _ hmem).not_reference rfl
    · rw [hkeys]
      exact fun hmem => (hids _ hmem).not_sidecar rfl
    · rw [hvalues]
      exact Scan.finds_flatMap h

/-- A name by which something is referred to in a part of the graph. -/
def UsedIn (G : w.FullGraph root) (l : Layout) (Local : String → Prop) (name : String) : Prop :=
  ∃ x y, G.regular.dag.Reaches root.id x ∧ Local x ∧ y ∈ G.regular.dag.kids x ∧
    l.reference? y = some name

/-- What stands at the use of an id is its record, or a reference in which nothing is found. -/
theorem finds_written {U : String → Prop} {D : Dict (Dict Tree)}
    (hinline : l.reference? y = none →
      Scan.Finds w.target.naming.protocol U [.map (r.at y)] D)
    (hused : ∀ name, l.reference? y = some name → U name) :
    Scan.Finds w.target.naming.protocol U [w.written l r y]
      (if (l.reference? y).isNone then D else []) := by
  unfold written useOf
  cases href : l.reference? y with
  | none => exact hinline href
  | some name =>
    refine Scan.finds_reference ?_ (hused name href)
    cases w.target.naming <;> decide

/-- An id whose record is carried is used more than once. -/
theorem Outcome.plain_hosted (O : Outcome G listed exportSidecar l r saved)
    (H : w.LegibleGraph root) (hy : y ∈ l.hosted x) : w.target.naming.IsPlain y := by
  obtain ⟨-, hplace⟩ := O.planned.mem_hosted.mp hy
  have hbelow := (O.planned.surveyed.fits.mem y).mp (Dict.mem_keys_iff.mpr ⟨_, hplace⟩)
  obtain ⟨p, hp, hplaced⟩ := O.planned.place hbelow
  rw [hplace] at hp
  obtain rfl := Option.some.inj hp
  obtain ⟨c, hc, rfl⟩ := G.regular.exists_component hbelow.reaches
  cases hplaced with
  | referenced _ hshared =>
    exact H.ids c (G.reaches_iff.mp hc) (G.regular.occurrences_of_shared hshared)

/-- In a record the scan finds what its id carries, and what it finds in the records within. -/
theorem Outcome.finds_laid (O : Outcome G listed exportSidecar l r saved)
    (H : w.LegibleGraph root) {Local : String → Prop}
    (hsub : ∀ x y, G.regular.dag.Reaches root.id x → Local x → y ∈ l.sub x → Local y)
    {E : String → Dict (Dict Tree)}
    (hE : ∀ x, G.regular.dag.Reaches root.id x →
      E x = entriesOf l r x ++ (l.sub x).flatMap E)
    (hx : G.regular.dag.Reaches root.id x) (hlocal : Local x) (h : w.Laid root l r x record) :
    Scan.Finds w.target.naming.protocol (UsedIn G l Local) [.map record] (E x) := by
  induction hn : G.regular.dag.rank x using Nat.strongRecOn generalizing x record with
  | _ n ih =>
    subst hn
    have hs := h.stands G O.planned
    have hwithin : ∀ y ∈ l.sub x,
        Scan.Finds w.target.naming.protocol (UsedIn G l Local) [.map (r.at y)] (E y) := by
      intro y hy
      have hbelow := O.planned.below_of_sub hx hy
      have hreach := hx.trans hbelow.reaches
      exact ih _ hbelow.rank_lt hreach (hsub x y hx hlocal hy) (O.laid hreach) rfl
    have hids : ∀ y ∈ l.hosted x, w.target.naming.IsPlain y := fun y hy => O.plain_hosted H hy
    let F := fun y => if (l.reference? y).isNone then E y else []
    have huse : ∀ y ∈ l.survey.kidsAt x,
        Scan.Finds w.target.naming.protocol (UsedIn G l Local) [w.written l r y] (F y) := by
      intro y hy
      have hkid := (O.planned.surveyed.kidsAt_perm hx).mem_iff.mp hy
      exact finds_written (fun href => hwithin y (Layout.mem_sub_of_inline hy href))
        fun name href => ⟨x, y, hx, hlocal, hkid, href⟩
    rw [hE x hx]
    refine Scan.finds_node (Scan.adds_map hs.reference_none ?_) ?_
    · obtain ⟨c, d, rfl, -, -, hrecord⟩ := hs
      rw [hrecord.carried, entriesOf, List.isEmpty_map, List.map_map]
      rfl
    · obtain ⟨c, d, front, rfl, hc, hd, hfront, rfl⟩ := h
      obtain ⟨-, hdreach, -⟩ := O.planned.surveyed.known.found _ _ _ hd
      have hhead := hfront.finds (U := UsedIn G l Local) (H.metadata c (G.reaches_iff.mp hc))
      have hfields := finds_fieldEntries (w := w) (l := l) (r := r) (F := F)
        (H.fields d (G.reaches_iff.mp hdreach))
        fun e he => huse e.id (by rw [kidsAt_found hd]; exact List.mem_map_of_mem he)
      have hcarried := finds_carried (w := w) hids fun y hy =>
        hwithin y (Layout.mem_sub_of_hosted hy)
      have hkids : (heldComponents (w.shown d)).flatMap (fun e => F e.id) =
          ((l.survey.kidsAt c.id).filter fun y => (l.reference? y).isNone).flatMap E := by
        rw [flatMap_filter, kidsAt_found hd, List.flatMap_map]
        rfl
      rw [Layout.sub, List.flatMap_append, ← hkids, Tree.children, values_append, values_append]
      exact (hhead.append hfields).append hcarried

mutual
theorem unreserved_render {v : Value} (hplain : v.Plain w.target.naming)
    (h : ∀ c ∈ v.components, (w.written l r c.id).Unreserved) :
    (w.render l r v).Unreserved := by
  match v with
  | .data t =>
    rw [render]
    exact Tree.unreserved_strip t
  | .property p =>
    rw [render]
    exact Tree.Plain.unreserved hplain
  | .component c =>
    rw [render]
    exact h c (by simp)
  | .list items =>
    rw [render]
    exact unreserved_renderItems hplain (by simpa [Value.components] using h)
  | .map entries =>
    rw [render]
    exact unreserved_renderEntries hplain (by simpa [Value.components] using h)
theorem unreserved_renderItems {items : List Value}
    (hplain : plainItems w.target.naming items)
    (h : ∀ c ∈ Value.componentsOfList items, (w.written l r c.id).Unreserved) :
    Tree.keysAllItems (fun key => isReservedKey key = false) (w.renderItems l r items) := by
  match items with
  | [] => trivial
  | v :: rest =>
    rw [Value.componentsOfList] at h
    obtain ⟨hv, hrest⟩ := List.forall_mem_append.mp h
    rw [renderItems]
    exact ⟨unreserved_render hplain.1 hv, unreserved_renderItems hplain.2 hrest⟩
theorem unreserved_renderEntries {entries : List (String × Value)}
    (hplain : plainEntries w.target.naming entries)
    (h : ∀ c ∈ Value.componentsOfEntries entries, (w.written l r c.id).Unreserved) :
    Tree.keysAllEntries (fun key => isReservedKey key = false) (w.renderEntries l r entries) := by
  match entries with
  | [] => trivial
  | (key, v) :: rest =>
    obtain ⟨hkey, hv, hrest⟩ := hplain
    rw [Value.componentsOfEntries] at h
    obtain ⟨hfirst, hlater⟩ := List.forall_mem_append.mp h
    simp only [renderEntries, hkey.unreserved, Bool.false_eq_true, if_false]
    exact ⟨hkey.unreserved, unreserved_render hv hfirst, unreserved_renderEntries hrest hlater⟩
end

/-- The keys of a record are spelled fields, base fields and keys of the protocol. -/
theorem Laid.keys_subset (h : w.Laid root l r x record) (G : w.FullGraph root)
    (P : w.Planned G.regular listed l) :
    ∃ d, Component.Reaches Component.children root d ∧ ∀ key ∈ Dict.keys record,
      key ∈ d.kind.names.map w.target.naming.toDocument ++ w.target.naming.protocol.names ++
        Record.baseFields := by
  obtain ⟨c, d, front, rfl, hc, hd, hfront, rfl⟩ := h
  obtain ⟨-, hdreach, -⟩ := P.surveyed.known.found _ _ _ hd
  refine ⟨d, G.reaches_iff.mp hdreach, fun key hkey => ?_⟩
  rw [List.mem_append, List.mem_append]
  simp only [Dict.keys_append, List.mem_append] at hkey
  rcases hkey with (hkey | hkey) | hkey
  · by_cases hbase : key ∈ Record.baseFields
    · exact .inr hbase
    · exact .inl (.inr (hfront.mem_names hkey hbase).1)
  · rw [keys_fieldEntries] at hkey
    exact .inl (.inl (((w.keys_shown d).map _).subset hkey))
  · obtain rfl := List.mem_singleton.mp ((keys_carried w l r c.id).subset hkey)
    exact .inl (.inr (by simp [Protocol.names]))

theorem unreserved_written (h : l.reference? y = none → (Tree.map (r.at y)).Unreserved) :
    (w.written l r y).Unreserved := by
  unfold written useOf
  cases href : l.reference? y with
  | none => exact h href
  | some name =>
    refine Tree.keysAll_map.mpr (List.forall_mem_singleton.mpr ⟨?_, trivial⟩)
    simp only
    cases w.target.naming <;> decide

theorem unreserved_baseOf (c : Component) : ∀ p ∈ baseOf c, p.2.Unreserved := by
  have hdescription : ∀ p ∈ descriptionEntry c, p.2.Unreserved := by
    unfold descriptionEntry
    cases c.description with
    | none => simp
    | some text => exact List.forall_mem_singleton.mpr trivial
  have hmetadata : ∀ p ∈ metadataEntry c, p.2.Unreserved := by
    unfold metadataEntry
    split
    · simp
    · exact List.forall_mem_singleton.mpr (Tree.unreserved_strip _)
  have htexts : ∀ p ∈ [("id", Tree.string c.id), ("name", Tree.string c.name)],
      p.2.Unreserved :=
    List.forall_mem_cons.mpr ⟨trivial, List.forall_mem_singleton.mpr trivial⟩
  exact List.forall_mem_append.mpr ⟨List.forall_mem_append.mpr ⟨htexts, hdescription⟩, hmetadata⟩

theorem unreserved_fieldEntries {fields : Dict Value}
    (hplain : ∀ f ∈ fields, f.2.Plain w.target.naming)
    (h : ∀ c ∈ heldComponents fields, (w.written l r c.id).Unreserved) :
    ∀ p ∈ w.fieldEntries l r fields, p.2.Unreserved := by
  intro p hp
  obtain ⟨f, hf, rfl⟩ := List.mem_map.mp hp
  exact unreserved_render (hplain f hf) fun c hc => h c (mem_heldComponents hf hc)

theorem unreserved_carried (hids : ∀ y ∈ l.hosted x, isReservedKey y = false)
    (h : ∀ y ∈ l.hosted x, (Tree.map (r.at y)).Unreserved) :
    ∀ p ∈ w.carried l r x, p.2.Unreserved := by
  unfold carried
  split
  · simp
  · refine List.forall_mem_singleton.mpr (Tree.keysAll_map.mpr fun q hq => ?_)
    obtain ⟨y, hy, rfl⟩ := List.mem_map.mp hq
    exact ⟨hids y hy, h y hy⟩

theorem IsFront.unreserved {front : Dict Tree} (h : w.IsFront c front) :
    ∀ p ∈ front, p.2.Unreserved := by
  obtain ⟨extra, hextra, hperm⟩ := h
  have hplugin : ∀ p ∈ w.pluginEntries c.componentType, p.2.Unreserved := by
    unfold pluginEntries
    split
    · exact List.forall_mem_cons.mpr ⟨trivial, List.forall_mem_singleton.mpr trivial⟩
    · simp
  intro p hp
  have hmem := hperm.mem_iff.mp hp
  rw [List.mem_append, List.mem_append, header_eq, List.mem_cons] at hmem
  rcases hmem with ((rfl | hmem) | hmem) | hmem
  · trivial
  · exact hplugin p hmem
  · rcases hextra with rfl | rfl
    · cases hmem
    · obtain rfl := List.mem_singleton.mp hmem
      trivial
  · exact unreserved_baseOf c p hmem

/-- No key of a record is dropped when the document is read. -/
theorem Outcome.unreserved_laid (O : Outcome G listed exportSidecar l r saved)
    (H : w.LegibleGraph root) (hx : G.regular.dag.Reaches root.id x)
    (h : w.Laid root l r x record) : (Tree.map record).Unreserved := by
  have hnames : ∀ key ∈ w.target.naming.protocol.names ++ Record.baseFields,
      isReservedKey key = false := by
    cases w.target.naming <;> decide
  induction hn : G.regular.dag.rank x using Nat.strongRecOn generalizing x record with
  | _ n ih =>
    subst hn
    have hwithin : ∀ y ∈ l.sub x, (Tree.map (r.at y)).Unreserved := by
      intro y hy
      have hbelow := O.planned.below_of_sub hx hy
      exact ih _ hbelow.rank_lt (hx.trans hbelow.reaches) (O.laid (hx.trans hbelow.reaches)) rfl
    have hids : ∀ y ∈ l.hosted x, isReservedKey y = false := fun y hy =>
      (O.plain_hosted H hy).unreserved
    have huse : ∀ y ∈ l.survey.kidsAt x, (w.written l r y).Unreserved := fun y hy =>
      unreserved_written fun href => hwithin y (Layout.mem_sub_of_inline hy href)
    obtain ⟨e, he, hkeys⟩ := h.keys_subset G O.planned
    refine Tree.keysAll_map.mpr fun p hp => ⟨?_, ?_⟩
    · have hkey := hkeys _ (Dict.mem_keys_of_mem hp)
      rw [List.append_assoc] at hkey
      rcases List.mem_append.mp hkey with hkey | hkey
      · obtain ⟨field, hfield, heq⟩ := List.mem_map.mp hkey
        rw [← heq]
        exact (H.kinds e he).unreserved hfield
      · exact hnames _ hkey
    · obtain ⟨c, d, front, rfl, hc, hd, hfront, rfl⟩ := h
      obtain ⟨-, hdreach, -⟩ := O.planned.surveyed.known.found _ _ _ hd
      have hfields := unreserved_fieldEntries (w := w) (l := l) (r := r)
        (H.fields d (G.reaches_iff.mp hdreach))
        fun e he => huse e.id (by rw [kidsAt_found hd]; exact List.mem_map_of_mem he)
      have hcarried := unreserved_carried (w := w) hids fun y hy =>
        hwithin y (Layout.mem_sub_of_hosted hy)
      simp only [List.mem_append] at hp
      rcases hp with (hp | hp) | hp
      · exact hfront.unreserved p hp
      · exact hfields p hp
      · exact hcarried p hp

end Writer
end AgentGraph
