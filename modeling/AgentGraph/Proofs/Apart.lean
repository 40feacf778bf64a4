import AgentGraph.Proofs.Apart.Record
import AgentGraph.Proofs.Sidecar
/-!
# Names stand for one component

References go by names of three origins: the aliases that are asked for, and the ids of components
that go along to the sidecar or are shared. They are not told apart where they are put together. If
they are apart from the start, every component in the sidecar has an entry of its own, and a name
refers to one component wherever it stands.
-/
namespace AgentGraph
open List (Forall₂)

namespace Writer

/-- Every id that is moved to the sidecar has an entry of its own, which has its record, and there
are no other entries. No name refers to two ids. -/
structure SidecarApart (w : Writer) (root : Component) (listed : List (String × Option String))
    (first : String → Component) (saved : Saved) : Prop where
  met : ∀ c, Component.Reaches w.children root c →
    (first c.id).id = c.id ∧ Component.Reaches w.children root (first c.id)
  nodup : (Dict.keys (saved.sidecarEntries w.target.naming)).Nodup
  keys : ∀ name, name ∈ Dict.keys (saved.sidecarEntries w.target.naming) ↔
    ∃ x, w.Moved root listed x ∧ referenceName listed x = name
  entries : ∀ x, w.Moved root listed x → ∃ record,
    Dict.get? (saved.sidecarEntries w.target.naming) (referenceName listed x) = some (.map record) ∧
      w.Describes (first x) record
  apart : ∀ x y name, w.Refers root listed first saved x name →
    w.Refers root listed first saved y name → x = y

variable {w : Writer} {root : Component} {h : w.Regular root} {l : Layout}
  {listed : List (String × Option String)} {first : String → Component} {saved : Saved}
  {x y name : String} {record : Dict Tree}

theorem Moved.goesByName (hx : w.Moved root listed x) : w.GoesByName root listed x :=
  hx.imp_right And.left

/-- Aliases that are apart from each other and from all ids keep names apart. -/
theorem NamesApart.of_aliases
    (hlisted : ∀ x ∈ listed.map (·.1), ∃ c, Component.Reaches w.children root c ∧ c.id = x)
    (hapart : AliasesApart (fun x => ∃ c, Component.Reaches w.children root c ∧ c.id = x) listed) :
    w.NamesApart root listed := by
  have hreached : ∀ x, w.GoesByName root listed x →
      ∃ c, Component.Reaches w.children root c ∧ c.id = x := by
    rintro x (hx | htwo)
    · exact hlisted x hx
    · have hmem : x ∈ (w.distinct root).flatMap fun c => (w.children c).map (·.id) :=
        List.count_pos_iff.mp (by rw [occurrences] at htwo; omega)
      obtain ⟨c, hc, hx⟩ := List.mem_flatMap.mp hmem
      obtain ⟨d, hd, rfl⟩ := List.mem_map.mp hx
      exact ⟨d, (mem_unfold.mp (mem_firstOfEachId hc).1).kid hd, rfl⟩
  exact fun x y hx hy heq => hapart.name_inj (hreached x hx) (hreached y hy) heq

/-- What a save leaves: the stamped record of the root, and an entry of the sidecar for every id
that the layout has an alias for. -/
structure LeavesTold (w : Writer) (root : Component) (l : Layout) (first : String → Component)
    (saved : Saved) : Prop where
  document : ∃ record, saved.document = .map (w.stampRoot record) ∧ w.Told l first root.id record
  sidecar : Forall₂ (w.TopTold l first) l.aliases (saved.sidecarEntries w.target.naming)

section
variable (P : w.Planned h listed l)
include P

theorem tells_documents (hfirst : ∀ x, h.dag.Reaches root.id x →
      l.survey.found.get? x = some (first x, w.shown (first x)))
    (hapart : w.NamesApart root listed) :
    w.Tells l first (w.documents l root true) (w.LeavesTold root l first) := by
  have hids : ∀ p ∈ l.aliases, h.dag.Reaches root.id p.1 := by
    intro p hp
    have hget := Dict.get?_of_mem P.nodup hp
    exact (P.below_of_aliased (by rw [hget]; exact Option.some_ne_none _)).reaches
  have hversion : w.target.naming.protocol.version ≠
      w.target.naming.protocol.referencedComponents := by
    cases w.target.naming <;> decide
  unfold documents
  refine ((writes_told P hfirst (w.maxDepth + 1)).1 root (.refl root)).bind fun record hrecord => ?_
  simp only [Bool.true_and]
  split
  · refine Preserves.bind (P := fun sidecar => ∃ entries, sidecar = Tree.map [w.releaseEntry,
        (w.target.naming.protocol.referencedComponents, .map entries)] ∧
      Forall₂ (w.TopTold l first) l.aliases entries) ?_ ?_
    · refine (tells_sidecarEntries P hfirst hids (by simpa using P.nodup_aliased hapart)).bind ?_
      rintro entries ⟨added, heq, hadded⟩
      obtain rfl : entries = added := heq
      exact .pure ⟨entries, rfl, hadded⟩
    · rintro _ ⟨entries, rfl, hentries⟩
      refine .pure ⟨⟨record, rfl, hrecord⟩, ?_⟩
      simpa [Saved.sidecarEntries, NamingMode.definitions, Dict.get?, releaseEntry, hversion] using
        hentries
  · rename_i hempty
    have hnone : l.aliases = [] := by simpa using hempty
    refine Preserves.pure ⟨⟨record, rfl, hrecord⟩, ?_⟩
    rw [hnone]
    exact .nil

variable (O : w.LeavesTold root l first saved)
include O

omit P in
theorem LeavesTold.keys_eq :
    Dict.keys (saved.sidecarEntries w.target.naming) = l.aliases.map (·.2) :=
  map_eq_of_forall₂ O.sidecar.flip fun _ _ hentry => hentry.1

/-- All records of the document and the sidecar follow the layout. -/
theorem LeavesTold.follows (hapart : w.NamesApart root listed)
    (hr : w.HasRecord root listed first saved x record) : w.Follows l first x record := by
  induction hr with
  | document hdocument =>
    obtain ⟨record, hstamped, htold⟩ := O.document
    rw [hdocument] at hstamped
    obtain rfl := Tree.map.inj hstamped
    exact htold.stamp
  | @top x record hmoved hentry =>
    obtain ⟨p, hp, hname, known, heq, htold⟩ := exists_left O.sidecar hentry
    obtain ⟨-, hnamed, hpname⟩ := P.aliased_name hp
    obtain rfl := Tree.map.inj heq
    have hid : p.1 = x := hapart _ _ hnamed hmoved.goesByName (by rw [← hpname, ← hname])
    exact hid ▸ htold.2
  | used _ hused hno ih =>
    obtain ⟨-, holds, -⟩ := ih
    exact holds _ _ hused hno
  | carried _ hno hmem ih =>
    obtain ⟨-, -, carries⟩ := ih
    exact carries hno _ _ hmem

/-- References go by the name of what they refer to. -/
theorem LeavesTold.refers (hapart : w.NamesApart root listed)
    (hx : w.Refers root listed first saved x name) :
    w.GoesByName root listed x ∧ name = referenceName listed x := by
  obtain ⟨z, record, hrecord, hused⟩ := hx
  obtain ⟨refers, -, -⟩ := LeavesTold.follows P O hapart hrecord
  exact P.goesByName (refers x name hused)

theorem LeavesTold.sidecarApart (hfirst : ∀ x, h.dag.Reaches root.id x →
      l.survey.found.get? x = some (first x, w.shown (first x)))
    (hapart : w.NamesApart root listed) : w.SidecarApart root listed first saved := by
  have hnodup : (Dict.keys (saved.sidecarEntries w.target.naming)).Nodup := by
    rw [O.keys_eq]
    exact P.nodup_aliased hapart
  have haliased : ∀ x, w.Moved root listed x → (x, referenceName listed x) ∈ l.aliases := by
    intro x hx
    obtain ⟨name, hname⟩ := Option.ne_none_iff_exists'.mp (P.aliased_iff.mpr hx)
    have hmem := Dict.mem_of_get? hname
    obtain ⟨-, -, rfl⟩ := P.aliased_name hmem
    exact hmem
  refine ⟨fun c hc => ?_, hnodup, fun name => ?_, fun x hx => ?_, fun x y name hx hy => ?_⟩
  · obtain ⟨hid, hreach, -⟩ := P.surveyed.known.found _ _ _ (hfirst _ (h.reaches_root hc))
    exact ⟨hid, hreach⟩
  · rw [O.keys_eq, List.mem_map]
    constructor
    · rintro ⟨p, hp, rfl⟩
      obtain ⟨hmoved, -, hname⟩ := P.aliased_name hp
      exact ⟨p.1, hmoved, hname.symm⟩
    · rintro ⟨x, hx, rfl⟩
      exact ⟨_, haliased x hx, rfl⟩
  · obtain ⟨entry, hentry, hname, record, hmap, htold⟩ := exists_left O.sidecar.flip (haliased x hx)
    have heq : entry = (referenceName listed x, .map record) := Prod.ext hname hmap
    exact ⟨record, Dict.get?_of_mem hnodup (heq ▸ hentry), htold.1⟩
  · obtain ⟨hxn, hxname⟩ := LeavesTold.refers P O hapart hx
    obtain ⟨hyn, hyname⟩ := LeavesTold.refers P O hapart hy
    exact hapart x y hxn hyn (by rw [← hxname, ← hyname])

end
end Writer

/-- If no two components go by one name, each that is moved to the sidecar has its own entry there,
and none is referred to by the name of another. -/
theorem save_apart {registry : Registry} {policy : Policy} {options : SaveOptions}
    {root : Component} {saved : Saved} (hregistry : registry.ListsFields)
    (hcoherent : Component.Coherent (options.writer registry policy).children root)
    (hproper : ∀ c, Component.Reaches (options.writer registry policy).children root c → c.Proper)
    (hapart : (options.writer registry policy).NamesApart root options.disaggregated)
    (hexport : options.exportSidecar = true)
    (hsave : save registry policy options root = .ok saved) :
    ∃ first,
      (options.writer registry policy).SidecarApart root options.disaggregated first saved := by
  have h : (options.writer registry policy).Regular root := ⟨hcoherent, hproper⟩
  obtain ⟨⟨table, survey⟩, hsurvey, hsave⟩ := bind_ok hsave
  obtain ⟨aliases, haliases, hsave⟩ := bind_ok hsave
  obtain ⟨⟨saved', r⟩, hdocuments, hsave⟩ := bind_ok hsave
  obtain rfl := Except.ok.inj hsave
  have hsurveyed := Writer.survey_ok h (Writer.faithful_of_listsFields hregistry root) (.refl root)
    (Writer.known_empty h) hsurvey
  have P := Writer.planned_of_aliases hsurveyed haliases
  let first : String → Component := fun x => (survey.component? x).getD root
  have hfirst : ∀ x, h.dag.Reaches root.id x → survey.found.get? x =
      some (first x, (options.writer registry policy).shown (first x)) := by
    intro x hx
    obtain ⟨d, hd, -⟩ := P.surveyed.exists_found hx
    simp only [first, Writer.component?_found hd, Option.getD_some]
    exact hd
  rw [hexport] at hdocuments
  have htold := (Writer.tells_documents P hfirst hapart).run
    (Writer.eachRecord_empty _)
  exact ⟨first, Writer.LeavesTold.sidecarApart P (htold.of_ok hdocuments).1 hfirst hapart⟩

/-- A team of two agents whose model goes to the sidecar under an alias that no component has for
its id. -/
theorem save_apart_team : ∃ saved first,
    save .builtin .builtin Sample.split Sample.team = .ok saved ∧
      (Sample.split.writer .builtin .builtin).SidecarApart Sample.team
        [("model", some "shared-model")] first saved := by
  let w : Writer := Sample.split.writer .builtin .builtin
  have hsaves : (save .builtin .builtin Sample.split Sample.team).isOk = true := by decide +kernel
  obtain ⟨saved, hsave⟩ := exists_of_isOk hsaves
  have hteam : w.children Sample.team = [Sample.alice, Sample.alice, Sample.bob] := rfl
  have halice : w.children Sample.alice = [Sample.model, Sample.search] := rfl
  have hmodel : Component.Reaches w.children Sample.team Sample.model :=
    .step (hteam ▸ List.mem_cons_self) (.step (halice ▸ List.mem_cons_self) (.refl Sample.model))
  have hapart : w.NamesApart Sample.team Sample.split.disaggregated := by
    refine .of_aliases (fun x hx => ?_) (Sample.split_apart.mono ?_)
    · obtain rfl := List.mem_singleton.mp hx
      exact ⟨Sample.model, hmodel, rfl⟩
    · rintro x ⟨c, hc, rfl⟩
      exact ⟨c, hc.mono fun _ _ => Writer.mem_children, rfl⟩
  have h : w.Regular Sample.team := Sample.graph.regular
  obtain ⟨first, hfirst⟩ := save_apart (fun plugin hp => absurd hp List.not_mem_nil) h.coherent
    h.proper hapart rfl hsave
  exact ⟨saved, first, hsave, hfirst⟩

/-- The model and the tool of an agent are both to go to the sidecar under one alias. -/
def Sample.clashing : SaveOptions :=
  { SaveOptions.default with
    disaggregated := [("model", some "x"), ("search", some "x")], exportSidecar := true }

/-- Two components under one alias are saved all the same, with one entry for both. -/
theorem save_conflates : ∃ saved, save .builtin .builtin Sample.clashing Sample.alice = .ok saved ∧
    Dict.keys (saved.sidecarEntries .canonical) = ["x"] ∧
    ¬ ∃ first, (Sample.clashing.writer .builtin .builtin).SidecarApart Sample.alice
      [("model", some "x"), ("search", some "x")] first saved := by
  let w : Writer := Sample.clashing.writer .builtin .builtin
  have hwritten : (save .builtin .builtin Sample.clashing Sample.alice).toOption.any
      (fun saved => Dict.keys (saved.sidecarEntries .canonical) = ["x"]) = true := by decide +kernel
  obtain ⟨saved, hsave, hkeys⟩ := exists_of_any hwritten
  refine ⟨saved, hsave, of_decide_eq_true hkeys, ?_⟩
  rintro ⟨first, H⟩
  have hchildren : w.children Sample.alice = [Sample.model, Sample.search] := rfl
  have hkid : ∀ c ∈ [Sample.model, Sample.search], Component.Reaches w.children Sample.alice c :=
    fun c hc => .step (hchildren ▸ hc) (.refl c)
  have hplain : ∀ c ∈ [Sample.alice, Sample.model, Sample.search],
      w.policy.kindAllowed c.componentType w.target.release = true ∧
        (w.target.naming.lastSpelled (w.shown c) "id").isNone = true := by decide +kernel
  have hlisted : ∀ c ∈ [Sample.model, Sample.search], c.id ∈ ["model", "search"] ∧
      referenceName [("model", some "x"), ("search", some "x")] c.id = "x" := by decide +kernel
  have hentry : ∀ c ∈ [Sample.model, Sample.search], ∃ record,
      Dict.get? (saved.sidecarEntries .canonical) "x" = some (.map record) ∧
        Dict.get? record "id" = some (.string c.id) := by
    intro c hc
    obtain ⟨hid, hreach⟩ := H.met c (hkid c hc)
    obtain ⟨hallowed, hnone⟩ :=
      hplain _ (Sample.mem_alice (hreach.mono fun _ _ => Writer.mem_children))
    obtain ⟨hmem, hname⟩ := hlisted c hc
    obtain ⟨record, hget, hdescribes⟩ := H.entries c.id (.inl hmem)
    rw [hname] at hget
    exact ⟨record, hget, hid ▸ hdescribes.id hallowed (Option.isNone_iff_eq_none.mp hnone)⟩
  obtain ⟨record, hget, hmodel⟩ := hentry Sample.model List.mem_cons_self
  obtain ⟨other, hother, hsearch⟩ :=
    hentry Sample.search (List.mem_cons_of_mem _ List.mem_cons_self)
  obtain rfl := Tree.map.inj (Option.some.inj (hget.symm.trans hother))
  have hsame := Tree.string.inj (Option.some.inj (hmodel.symm.trans hsearch))
  exact absurd hsame (by decide)

end AgentGraph
