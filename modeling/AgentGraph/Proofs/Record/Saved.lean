import AgentGraph.Proofs.Record.Lookup
/-!
# Saved documents

A saved document is the record of the root with the release behind the discriminator, and a sidecar
holds the records of its ids under the names that references use. Every id below the root has its
record, whichever of the two it stands in.
-/
namespace AgentGraph

namespace Writer
variable {w : Writer} {root c d : Component} {l : Layout} {r r' : Records}
  {listed : List (String × Option String)}

/-- The root record: the discriminator, the release and the texts, then the plugin and the rest. -/
def rootRecord (w : Writer) (l : Layout) (r : Records) (c d : Component) : Dict Tree :=
  [(w.target.naming.protocol.componentType, .string c.componentType), w.releaseEntry] ++
    ([("id", .string c.id), ("name", .string c.name)] ++ descriptionEntry c) ++
    w.pluginEntries c.componentType ++ metadataEntry c ++ w.fieldEntries l r (w.shown d) ++
    w.carried l r c.id

theorem filter_stays {part : Dict Tree} (h : ∀ key ∈ part.keys, w.stays key = true) :
    part.filter (fun p => w.stays p.1) = part :=
  List.filter_eq_self.mpr fun _ hp => h _ (Dict.mem_keys_of_mem hp)

/-- Every key of the protocol stays, but for the discriminator. -/
theorem stays_of_protocol {key : String} (hkey : key ∈ w.target.naming.protocol.names)
    (hne : key ≠ w.target.naming.protocol.componentType) : w.stays key = true := by
  have htexts : ∀ text ∈ ["id", "name", "description"], text ∈ Record.baseFields := by decide
  exact stays_iff.mpr ⟨hne, fun htext =>
    w.target.naming.protocol_not_base hkey (htexts key htext)⟩

theorem stays_spelled (hd : w.InFull d) {field : String} (hf : field ∈ d.kind.names) :
    w.stays (w.target.naming.toDocument field) = true := by
  have htexts : ∀ text ∈ ["id", "name", "description"], text ∈ Record.baseFields := by decide
  have htype : w.target.naming.protocol.componentType ∈ w.target.naming.protocol.names := by
    simp [Protocol.names]
  exact stays_iff.mpr ⟨fun heq => hd.spelled_not_protocol hf (heq ▸ htype),
    fun htext => hd.spelled_not_base hf (htexts _ htext)⟩

theorem filter_baseOf (c : Component) :
    (baseOf c).filter (fun p => w.stays p.1) = metadataEntry c := by
  have hmetadata : w.stays "metadata" = true := by
    have hne : ∀ naming : NamingMode, "metadata" ≠ naming.protocol.componentType := by
      intro naming
      cases naming <;> decide
    exact stays_iff.mpr ⟨hne _, by decide⟩
  have hmoves (text : String) (htext : text ∈ ["id", "name", "description"]) :
      w.stays text = false := by
    rw [← Bool.not_eq_true, stays_iff]
    exact fun h => h.2 htext
  unfold baseOf descriptionEntry metadataEntry
  cases c.description <;> cases c.metadata.isEmpty <;> simp [hmetadata, hmoves]

/-- What of a record the stamp leaves as it stands. -/
theorem filter_fullRecord (hd : w.InFull d) :
    (w.fullRecord l r c d).filter (fun p => w.stays p.1) =
      w.pluginEntries c.componentType ++ metadataEntry c ++ w.fieldEntries l r (w.shown d) ++
        w.carried l r c.id := by
  have hothers : ∀ naming : NamingMode, ∀ key ∈ [naming.protocol.pluginName,
      naming.protocol.pluginVersion, naming.protocol.referencedComponents],
      key ∈ naming.protocol.names ∧ key ≠ naming.protocol.componentType := by
    intro naming
    cases naming <;> decide
  have hstays (key : String) (hkey : key ∈ [w.target.naming.protocol.pluginName,
      w.target.naming.protocol.pluginVersion, w.target.naming.protocol.referencedComponents]) :
      w.stays key = true :=
    stays_of_protocol (hothers _ key hkey).1 (hothers _ key hkey).2
  have htype : w.stays w.target.naming.protocol.componentType = false := by simp [stays]
  have hplugin := filter_stays fun key hkey =>
    hstays key (List.mem_append_left [w.target.naming.protocol.referencedComponents]
      ((keys_pluginEntries c.componentType).subset hkey))
  have hcarried := filter_stays fun key hkey =>
    hstays key (List.mem_append_right [_, _] ((keys_carried w l r c.id).subset hkey))
  have hfields : (w.fieldEntries l r (w.shown d)).filter (fun p => w.stays p.1) =
      w.fieldEntries l r (w.shown d) := by
    refine filter_stays fun key hkey => ?_
    rw [keys_fieldEntries] at hkey
    obtain ⟨field, hfield, rfl⟩ := List.mem_map.mp hkey
    exact stays_spelled hd (mem_keys_shown hfield)
  rw [fullRecord, header_eq, List.filter_append, List.filter_append, List.filter_append,
    List.filter_cons, htype, hplugin, filter_baseOf, hfields, hcarried]
  rfl

theorem isFront_released (c : Component) :
    w.IsFront c (w.releaseEntry :: (w.header c.componentType ++ baseOf c)) := by
  refine ⟨[w.releaseEntry], .inr rfl, ?_⟩
  rw [List.append_assoc, List.singleton_append]
  exact List.perm_middle.symm

/-- The stamped record of a component that is written in full has the same entries and the
release. -/
theorem stampRoot_fullRecord (hd : w.InFull d) :
    w.stampRoot (w.fullRecord l r c d) = w.rootRecord l r c d := by
  have hrecord : w.RecordOf l r c d (w.fullRecord l r c d) := (isFront_fullRecord c).recordOf hd
  have hnodup : (w.releaseEntry.1 :: Dict.keys (w.fullRecord l r c d)).Nodup :=
    (isFront_released c).nodup hd
  have htexts : entriesUnder (w.fullRecord l r c d) ["id", "name", "description"] =
      [("id", .string c.id), ("name", .string c.name)] ++ descriptionEntry c := by
    simp only [entriesUnder, List.filterMap_cons, List.filterMap_nil, hrecord.id, hrecord.name,
      hrecord.description, descriptionEntry]
    cases c.description <;> rfl
  rw [stampRoot_eq hnodup hrecord.type, htexts, filter_fullRecord hd, rootRecord]
  simp only [List.append_assoc]

theorem isFront_rootRecord (c : Component) : w.IsFront c
    ([(w.target.naming.protocol.componentType, .string c.componentType), w.releaseEntry] ++
      ([("id", .string c.id), ("name", .string c.name)] ++ descriptionEntry c) ++
      w.pluginEntries c.componentType ++ metadataEntry c) := by
  refine ⟨[w.releaseEntry], .inr rfl, ?_⟩
  have hswap : ∀ texts plugin metadata : Dict Tree,
      (texts ++ (plugin ++ metadata)).Perm (plugin ++ (texts ++ metadata)) := by
    intro texts plugin metadata
    rw [← List.append_assoc, ← List.append_assoc]
    exact List.perm_append_comm.append_right _
  have htexts := hswap ([("id", .string c.id), ("name", .string c.name)] ++ descriptionEntry c)
    (w.pluginEntries c.componentType) (metadataEntry c)
  rw [header_eq, baseOf]
  simp only [List.append_assoc, List.cons_append, List.nil_append] at htexts ⊢
  exact List.Perm.cons _ ((List.Perm.cons _ htexts).trans List.perm_middle.symm)

/-- The entries on top of a sidecar, each by the name that references use. -/
def topEntries (l : Layout) (r : Records) : Dict Tree :=
  l.aliases.map fun p => (p.2, .map (r.at p.1))

variable {G : w.FullGraph root} {n : Nat}

theorem sidecarEntries_ok (P : w.Planned G.regular listed l) {pairs : List (String × String)}
    {start entries : Dict Tree}
    (hids : ∀ p ∈ pairs, G.regular.dag.Reaches root.id p.1 ∧ G.regular.dag.rank p.1 < n)
    (hr : w.Whole root l r) (hkeys : (start.keys ++ pairs.map (·.2)).Nodup)
    (hrun : w.sidecarEntries l pairs start r = .ok (entries, r')) :
    w.Whole root l r' ∧ Later G n r r' ∧ (∀ p ∈ pairs, p.1 ∈ Dict.keys r') ∧
      entries = start ++ pairs.map fun p => (p.2, .map (r'.at p.1)) := by
  induction pairs generalizing r start with
  | nil =>
    obtain ⟨rfl, rfl⟩ := run_pure_ok hrun
    exact ⟨hr, .refl G n _, by simp, (List.append_nil _).symm⟩
  | cons p rest ih =>
    obtain ⟨id, name⟩ := p
    obtain ⟨⟨hy, hrank⟩, hrest⟩ := List.forall_mem_cons.mp hids
    obtain ⟨d, hd, rfl, hreach⟩ := P.surveyed.exists_found hy
    rw [sidecarEntries] at hrun
    simp only [component?_found hd] at hrun
    obtain ⟨record, r₁, hrec, h₁⟩ := run_bind_ok hrun
    obtain ⟨hfirst, hget⟩ := (writes (G := G) P _).1 d r record r₁ hreach hr hrec
    rw [List.map_cons] at hkeys
    obtain ⟨hwhole, hlater, hknown, rfl⟩ := ih hrest hfirst.whole (Dict.nodup_put_next hkeys _) h₁
    have hmem : d.id ∈ Dict.keys r₁ := Dict.mem_keys_iff.mpr ⟨record, hget⟩
    refine ⟨hwhole, (hfirst.later.mono hrank).trans hlater,
      List.forall_mem_cons.mpr ⟨hlater.mem hmem, hknown⟩, ?_⟩
    rw [Dict.put_append (Dict.next_not_mem hkeys), List.map_cons, Records.at, hlater.get hmem, hget, Option.getD_some]

/-- What a save leaves: whole records of all ids, and the document and the sidecar made of them. -/
structure Outcome (G : w.FullGraph root) (listed : List (String × Option String))
    (exportSidecar : Bool) (l : Layout) (r : Records) (saved : Saved) : Prop where
  planned : w.Planned G.regular listed l
  whole : w.Whole root l r
  known : ∀ x, G.regular.dag.Reaches root.id x → x ∈ Dict.keys r
  document : saved.document = .map (w.stampRoot (r.at root.id))
  sidecar : saved.sidecar =
    if exportSidecar && !l.aliases.isEmpty then
      some (.map [w.releaseEntry, (w.target.naming.protocol.referencedComponents,
        .map (topEntries l r))])
    else none

/-- Whole records reach as far as the graph does. -/
theorem Whole.known (P : w.Planned G.regular listed l) (hr : w.Whole root l r) {x y : String}
    (hx : x ∈ Dict.keys r) (hxy : G.regular.dag.Reaches x y)
    (hroot : G.regular.dag.Reaches root.id x) : y ∈ Dict.keys r := by
  obtain ⟨i, p⟩ := hxy
  induction p with
  | here => exact hx
  | @step x y z i hy _ ih =>
    refine ih ?_ (hroot.trans (.kid hy))
    obtain ⟨record, hget⟩ := Dict.mem_keys_iff.mp hx
    obtain ⟨c, d, rfl, hc, hd, -, hkids, -⟩ := hr x record hget
    obtain ⟨hid, hdreach, -⟩ := P.surveyed.known.found _ _ _ hd
    rw [← hid] at hy
    obtain ⟨e, he, rfl⟩ := (G.regular.mem_kidsOf hdreach).mp hy
    exact hkids e he

theorem documents_ok (P : w.Planned G.regular listed l)
    (hapart : AliasesApart (G.regular.dag.Reaches root.id) listed) {exportSidecar : Bool}
    {saved : Saved} (hrun : w.documents l root exportSidecar [] = .ok (saved, r)) :
    Outcome G listed exportSidecar l r saved := by
  have hempty : w.Whole root l [] := fun x record hx => by simp at hx
  unfold documents at hrun
  obtain ⟨record, r₁, hrec, h₁⟩ := run_bind_ok hrun
  obtain ⟨hfirst, hget⟩ := (writes (G := G) P _).1 root [] record r₁ (.refl root) hempty hrec
  have hroot : root.id ∈ Dict.keys r₁ := Dict.mem_keys_iff.mpr ⟨record, hget⟩
  have hat : Records.at r₁ root.id = record := by rw [Records.at, hget, Option.getD_some]
  split at h₁
  · rename_i hexport
    obtain ⟨sidecar, r₂, hside, h₂⟩ := run_bind_ok h₁
    obtain ⟨rfl, rfl⟩ := run_pure_ok h₂
    obtain ⟨entries, r₃, hentries, h₃⟩ := run_bind_ok hside
    obtain ⟨rfl, rfl⟩ := run_pure_ok h₃
    have hids : ∀ p ∈ l.aliases, G.regular.dag.Reaches root.id p.1 ∧
        G.regular.dag.rank p.1 < G.regular.dag.rank root.id := by
      intro p hp
      have hbelow := P.below_of_aliased (x := p.1) (by
        rw [Dict.get?_of_mem P.nodup hp]
        exact Option.some_ne_none _)
      exact ⟨hbelow.reaches, hbelow.rank_lt⟩
    obtain ⟨hwhole, hlater, -, rfl⟩ := sidecarEntries_ok (G := G) P hids
      hfirst.whole
      (by simpa using P.nodup_names hapart) hentries
    refine ⟨P, hwhole, fun x hx =>
      hwhole.known (G := G) P (hlater.mem hroot) hx (.refl _), ?_, ?_⟩
    · rw [← hlater.at hroot, hat]
    · rw [if_pos hexport]
      rfl
  · rename_i hexport
    obtain ⟨rfl, rfl⟩ := run_pure_ok h₁
    have hwhole : w.Whole root l r := hfirst.whole
    refine ⟨P, hwhole, fun x hx =>
      hwhole.known (G := G) P hroot hx (.refl _), by rw [hat], ?_⟩
    rw [if_neg hexport]

end Writer

/-- A save that ends well leaves whole records of all ids. -/
theorem save_ok {registry : Registry} {policy : Policy} {options : SaveOptions} {root : Component}
    {saved : Saved} (G : (options.writer registry policy).FullGraph root)
    (hapart : AliasesApart (G.regular.dag.Reaches root.id) options.disaggregated)
    (h : save registry policy options root = .ok saved) :
    ∃ l r, Writer.Outcome G options.disaggregated options.exportSidecar l r saved := by
  unfold save at h
  obtain ⟨⟨table, survey⟩, hsurvey, h₁⟩ := bind_ok h
  obtain ⟨aliases, haliases, h₂⟩ := bind_ok h₁
  obtain ⟨⟨saved', r⟩, hdocuments, h₃⟩ := bind_ok h₂
  obtain rfl := Except.ok.inj h₃
  have hsurveyed := Writer.survey_ok G.regular G.faithful (.refl root)
    (Writer.known_empty G.regular) hsurvey
  exact ⟨_, r, Writer.documents_ok (Writer.planned_of_aliases hsurveyed haliases) hapart hdocuments⟩

end AgentGraph
