import AgentGraph.Proofs.Load.Entries
/-!
# Loading saved documents

A document and a sidecar that were saved keep to what loading asks of them, so a load ends well or stops
at a limit of size or depth. The document gives a component that stands for the root, and the sidecar one
for each of its ids.
-/
namespace AgentGraph
open List (Forall₂)

/-- A failure for a limit of size or depth. -/
def LoadError.IsLimit (e : LoadError) : Prop :=
  (∃ size limit, e = .inputTooLarge size limit) ∨ e.IsTooDeep

/-- A load gives what it should, unless it stops at a limit of size or depth. -/
def Load.Yields (result : Except LoadError (Loaded × Supply)) (Q : Loaded → Prop) : Prop :=
  match result with
  | .ok (loaded, _) => Q loaded
  | .error e => e.IsLimit

theorem Load.Yields.mono {result : Except LoadError (Loaded × Supply)} {Q Q' : Loaded → Prop}
    (h : Load.Yields result Q) (himp : ∀ loaded, Q loaded → Q' loaded) : Load.Yields result Q' := by
  unfold Load.Yields at h ⊢
  split
  · exact himp _ h
  · exact h

theorem Load.isLimit_of_checkLimits {options : LoadOptions} {document : Tree} {e : LoadError}
    (h : Load.checkLimits options document = .error e) : e.IsLimit := by
  simp only [Load.checkLimits] at h
  split at h
  · cases h
    exact .inl ⟨_, _, rfl⟩
  · split at h
    · cases h
      exact .inr ⟨_, rfl⟩
    · cases h

/-- A scan that finds all that is used says what was found. -/
theorem Scan.Finds.ofDocument {protocol : Protocol} {U : String → Prop} {document : Tree}
    {D : Dict (Dict Tree)} {supplied : Dict Component} (h : Finds protocol U [document] D)
    (hnodup : (Dict.keys D).Nodup)
    (hfound : ∀ name, U name → Dict.has D name = true ∨ Dict.has supplied name = true) :
    ∃ scan, Scan.ofDocument protocol supplied document = .ok scan ∧ scan.defined = D := by
  obtain ⟨scan, hwalk, hdefined, hused⟩ := h .empty (by simpa [empty] using hnodup)
  have hD : scan.defined = D := by simpa [empty] using hdefined
  have hmissing : scan.missing supplied = [] := by
    rw [missing, List.filter_eq_nil_iff, hD]
    intro name hname
    rcases hused name hname with hempty | hU
    · simp [empty] at hempty
    · rcases hfound name hU with hhas | hhas <;> simp [hhas]
  refine ⟨scan, ?_, hD⟩
  rw [Scan.ofDocument, hwalk]
  simp only [bind, Except.bind, hmissing]
  rfl

/-- A document that passes the checks is loaded as a run says. -/
theorem load_yields {registry : Registry} {options : LoadOptions} {fields : Dict Tree}
    {supply : Supply} {release : Release} {scan : Scan} {W : Watch}
    {Q : LoadState → Loaded → Prop} (hfree : (Tree.map fields).Unreserved)
    (hrelease : Load.releaseOf options.naming.protocol fields = .ok release)
    (hscan : Scan.ofDocument options.naming.protocol options.supplied (.map fields) = .ok scan)
    (hinv : W.inv ⟨[], supply⟩)
    (hruns : W.Runs ⟨[], supply⟩ (Load.root ⟨registry, options.naming, release, options.supplied,
      scan.defined, options.maxDepth⟩ options.disaggregatedOnly fields) Q) :
    Load.Yields (load registry options (.map fields) supply)
      fun loaded => ∃ t, W.inv t ∧ Q t loaded := by
  have hrun := hruns hinv
  simp only [load, bind, Except.bind, hfree.strip_eq, hrelease, hscan, StateT.run]
  cases hlimits : Load.checkLimits options (.map fields) with
  | error e => exact Load.isLimit_of_checkLimits hlimits
  | ok _ =>
    simp only
    split at hrun
    · rename_i loaded t heq
      rw [heq]
      exact ⟨t, hrun.1, hrun.2.2⟩
    · rename_i e heq
      rw [heq]
      exact .inr hrun

/-- A document that says its release is read as of that release. -/
theorem Load.releaseOf_entry {w : Writer} {fields : Dict Tree}
    (h : Dict.get? fields w.releaseEntry.1 = some w.releaseEntry.2) :
    Load.releaseOf w.target.naming.protocol fields = .ok w.target.release := by
  have hname : Release.ofName? w.target.release.name = some w.target.release := by
    cases w.target.release <;> decide
  simp only [Writer.releaseEntry] at h
  rw [Load.releaseOf, h]
  simp only [hname]

namespace Writer
variable {w : Writer} {root L : Component} {l : Layout} {r : Records} {x y name : String}
  {listed : List (String × Option String)} {exportSidecar : Bool} {saved : Saved}
  {G : w.FullGraph root} {given : String → Option Component} {Local : String → Prop}
  {ctx : Load.Context} {registry : Registry} {loading : LoadOptions}

/-- Before anything is loaded nothing is known. -/
theorem watch_start (G : w.FullGraph root) (l : Layout) (given : String → Option Component)
    (Local : String → Prop) (above below : Nat) (supply : Supply) :
    (watch G l given Local above below).inv ⟨[], supply⟩ := by
  refine ⟨?_, ?_⟩
  · intro key L hkey
    cases hkey
  · intro key hkey
    cases hkey

/-- What a part of the graph refers to is found among its entries or the components supplied. -/
theorem Home.found (H : Home G l r given Local ctx) (hused : UsedIn G l Local name) :
    Dict.has ctx.sidecar name = true ∨ Dict.has ctx.supplied name = true := by
  obtain ⟨x, y, hx, hlocal, hy, href⟩ := hused
  rcases H.referenced x y name hx hlocal hy href with ⟨-, -, hget⟩ | ⟨L, hget, -⟩
  · exact .inl (Dict.has_iff.mpr (Dict.mem_keys_iff.mpr ⟨_, hget⟩))
  · exact .inr (Dict.has_iff.mpr (Dict.mem_keys_iff.mpr ⟨_, hget⟩))

namespace Outcome
variable (O : Outcome G listed exportSidecar l r saved)
  (hapart : AliasesApart (G.regular.dag.Reaches root.id) listed)
  (hlegible : w.LegibleGraph root) (hnaming : loading.naming = w.target.naming)
include O hapart hlegible hnaming

/-- The document is loaded as a component that stands for the root. -/
theorem load_document (supply : Supply)
    (H : Home G l r given (fun x => ¬ Sided G.regular listed x) ⟨registry, loading.naming,
      w.target.release, loading.supplied, entriesWithin O.planned r root.id, loading.maxDepth⟩) :
    Load.Yields (load registry loading saved.document supply)
      fun loaded => ∃ L t, loaded = .component L ∧
        Resolved G l given (fun x => ¬ Sided G.regular listed x) t ∧
        w.Sound root given t root.id L := by
  obtain ⟨record, hdocument, hlaid, hentry⟩ := O.document_laid
  have hout : ¬ Sided G.regular listed root.id := fun hin =>
    (O.planned.below_of_sided hin).ne rfl
  have hfinds := O.finds_laid hlegible H.sub (fun x hx => O.entriesWithin_eq hx) (.refl _) hout
    hlaid
  rw [← hnaming] at hfinds
  obtain ⟨scan, hscan, hdefined⟩ := hfinds.ofDocument O.nodup_entriesWithin fun name => H.found
  have hrelease := Load.releaseOf_entry hentry
  rw [← hnaming] at hrelease
  rw [← hdefined] at H
  have htype : Dict.has record loading.naming.protocol.componentType = true := by
    obtain ⟨c, d, -, -, -, hrecord⟩ := hlaid.stands G O.planned
    rw [Dict.has_iff, Dict.mem_keys_iff, hnaming]
    exact ⟨_, hrecord.type⟩
  have hroot := O.loads H hapart hlegible loading.maxDepth root.id record ⟨[], supply⟩
    (.refl _) hout hlaid
  have hruns : (watch G l given (fun x => ¬ Sided G.regular listed x) (G.regular.dag.rank root.id)
      (G.regular.dag.rank root.id + 1)).Runs ⟨[], supply⟩
      (Load.root ⟨registry, loading.naming, w.target.release, loading.supplied, scan.defined,
        loading.maxDepth⟩ loading.disaggregatedOnly record)
      fun t loaded => ∃ L, loaded = .component L ∧ w.Sound root given t root.id L := by
    simp only [Load.root, htype, if_true]
    exact hroot.bind fun t L _ hL => .pure ⟨L, rfl, hL⟩
  have hyields := load_yields (O.unreserved_laid hlegible (.refl _) hlaid) hrelease hscan
    (watch_start G l given _ _ _ supply) hruns
  rw [hdocument]
  refine hyields.mono ?_
  rintro loaded ⟨t, hinv, L, hloaded, hL⟩
  exact ⟨L, t, hloaded, hinv.1, hL⟩

omit hlegible hnaming in
/-- The entries of a part of the graph are followed to components that stand for their ids. -/
theorem runs_entries (H : Home G l r given Local ctx)
    (hload : Loads G l r given Local (Load.record ctx ctx.maxDepth)) {ps : List (String × String)}
    (hps : ∀ p ∈ ps, l.reference? p.1 = some p.2 ∧ G.regular.dag.Reaches root.id p.1 ∧ Local p.1 ∧
      Dict.get? ctx.supplied p.2 = none ∧ Dict.get? ctx.sidecar p.2 = some (r.at p.1))
    (s : LoadState) :
    (watch G l given Local (G.regular.dag.rank root.id + 1)
      (G.regular.dag.rank root.id + 1)).Runs s (Load.entries ctx (ps.map (·.2)))
      fun t components => Forall₂ (fun p q => q.1 = p.2 ∧ w.Sound root given t p.1 q.2) ps
        components := by
  induction ps generalizing s with
  | nil => exact .pure .nil
  | cons p rest ih =>
    obtain ⟨⟨href, hreach, hlocal, hsupplied, hentry⟩, hrest⟩ := List.forall_mem_cons.mp hps
    have hle : G.regular.dag.rank p.1 + 1 ≤ G.regular.dag.rank root.id + 1 :=
      Nat.succ_le_succ hreach.rank_le
    have hfollow := H.runs_follow (s := s) O.planned hapart (.inr href) hreach
      (.inl ⟨hlocal, hsupplied, hentry⟩) fun hp u => hload p.1 _ u hreach hp (O.laid hreach)
    rw [List.map_cons, Load.entries]
    refine (runs_widen hfollow hle hle).bind fun t L _ hL => ?_
    refine (ih hrest t).bind fun u components hstep hcomponents => ?_
    have hext : Extends G l (G.regular.dag.rank root.id + 1) t u := hstep
    exact .pure (.cons ⟨rfl, hL.extends hext⟩ hcomponents)

end Outcome

def sidecarRoot (w : Writer) (l : Layout) (r : Records) : Dict Tree :=
  [w.releaseEntry, (w.target.naming.protocol.referencedComponents, .map (topEntries l r))]

/-- The root of a sidecar asks for the entries on top. -/
theorem root_sidecar (hnaming : ctx.naming = w.target.naming) :
    Load.root ctx true (w.sidecarRoot l r) =
      (do return .referenced (← Load.entries ctx (l.aliases.map (·.2)))) := by
  have hkeys : Dict.keys (topEntries l r) = l.aliases.map (·.2) := by
    simp [Dict.keys, topEntries, Function.comp_def]
  have htype : Dict.has (w.sidecarRoot l r) ctx.naming.protocol.componentType = false := by
    rw [← Bool.not_eq_true, Dict.has_iff, hnaming]
    simp only [sidecarRoot, releaseEntry, Dict.keys_cons, Dict.keys_nil]
    cases w.target.naming <;> decide
  have htop : Dict.get? (w.sidecarRoot l r) ctx.naming.protocol.referencedComponents =
      some (.map (topEntries l r)) := by
    have hne : w.target.naming.protocol.version ≠
        w.target.naming.protocol.referencedComponents := by
      cases w.target.naming <;> decide
    simp [hnaming, sidecarRoot, releaseEntry, Dict.get?, hne]
  rw [Load.root]
  simp only [htype, htop, Tree.entries?, Option.getD_some, hkeys]
  rfl

namespace Outcome
variable (O : Outcome G listed exportSidecar l r saved)
include O

theorem sidecar_eq (hexport : exportSidecar = true) (hlisted : listed ≠ []) :
    l.aliases ≠ [] ∧ saved.sidecar = some (.map (w.sidecarRoot l r)) := by
  obtain ⟨entry, rest, rfl⟩ := List.exists_cons_of_ne_nil hlisted
  have hforced : forcedName? (entry :: rest) entry.1 ≠ none := fun hnone =>
    forcedName?_eq_none.mp hnone entry List.mem_cons_self rfl
  have hget := O.planned.aliased_of_listed hforced
  have hne : l.aliases ≠ [] := by
    rintro hnil
    rw [hnil] at hget
    exact hget rfl
  have hempty : l.aliases.isEmpty = false := by simpa using hne
  refine ⟨hne, ?_⟩
  rw [O.sidecar, hexport, hempty]
  rfl

variable (hids : ∀ c, Component.Reaches Component.children root c → w.target.naming.IsPlain c.id)
  (hnames : ∀ entry ∈ listed, ∀ name, entry.2 = some name → w.target.naming.IsPlain name)
include hids hnames

/-- The names on top of the sidecar mean nothing in a document. -/
theorem plain_names {p : String × String} (hp : p ∈ l.aliases) :
    G.regular.dag.Reaches root.id p.1 ∧ w.target.naming.IsPlain p.2 := by
  obtain ⟨hreach, -, hname⟩ := O.aliased_name hp
  refine ⟨hreach, ?_⟩
  rcases referenceName_spec listed p.1 with hself | hentry
  · obtain ⟨c, hc, hid⟩ := G.regular.exists_component hreach
    rw [← hname, hself, ← hid]
    exact hids c (G.reaches_iff.mp hc)
  · rw [hname] at hentry
    exact hnames _ hentry _ rfl

variable (hlegible : w.LegibleGraph root)
include hlegible

theorem unreserved_sidecar : (Tree.map (w.sidecarRoot l r)).Unreserved := by
  have htop : (Tree.map (topEntries l r)).Unreserved := by
    refine Tree.keysAll_map.mpr fun p hp => ?_
    obtain ⟨q, hq, rfl⟩ := List.mem_map.mp hp
    obtain ⟨hreach, hname⟩ := O.plain_names hids hnames hq
    exact ⟨hname.unreserved, O.unreserved_laid hlegible hreach (O.laid hreach)⟩
  refine Tree.keysAll_map.mpr (List.forall_mem_cons.mpr ⟨⟨?_, trivial⟩,
    List.forall_mem_singleton.mpr ⟨?_, htop⟩⟩)
  · simp only [releaseEntry]
    cases w.target.naming <;> decide
  · simp only
    cases w.target.naming <;> decide

/-- In a sidecar the scan finds what is on top and what stands within. -/
theorem finds_sidecar (hne : l.aliases ≠ []) :
    Scan.Finds w.target.naming.protocol (UsedIn G l (Sided G.regular listed))
      [.map (w.sidecarRoot l r)] (sidecarWithin O.planned r) := by
  have hsub : ∀ x y, G.regular.dag.Reaches root.id x → Sided G.regular listed x → y ∈ l.sub x →
      Sided G.regular listed y := by
    rintro x y hx ⟨a, ha, hax⟩ hy
    exact ⟨a, ha, hax.trans (O.planned.below_of_sub hx hy).reaches⟩
  have hrecords : Scan.Finds w.target.naming.protocol (UsedIn G l (Sided G.regular listed))
      (l.aliases.map fun p => .map (r.at p.1))
      (l.aliases.flatMap fun p => entriesWithin O.planned r p.1) := by
    refine Scan.finds_flatMap fun p hp => ?_
    obtain ⟨hreach, hget, -⟩ := O.aliased_name hp
    have hin : Sided G.regular listed p.1 :=
      O.planned.sided_of_aliased (by rw [hget]; exact Option.some_ne_none _)
    exact O.finds_laid hlegible hsub (fun x hx => O.entriesWithin_eq hx) hreach hin (O.laid hreach)
  have hkeys : ∀ key ∈ Dict.keys (topEntries l r), w.target.naming.IsPlain key := by
    intro key hkey
    obtain ⟨q, hq, rfl⟩ := List.mem_map.mp hkey
    obtain ⟨p, hp, rfl⟩ := List.mem_map.mp hq
    exact (O.plain_names hids hnames hp).2
  have hvalues : Dict.values (topEntries l r) = l.aliases.map fun p => .map (r.at p.1) := by
    simp [Dict.values, topEntries, Function.comp_def]
  have htop : Scan.Finds w.target.naming.protocol (UsedIn G l (Sided G.regular listed))
      [.map (topEntries l r)] (l.aliases.keys.flatMap (entriesWithin O.planned r)) := by
    rw [Dict.keys, List.flatMap_map]
    exact Scan.finds_map (fun hmem => (hkeys _ hmem).not_reference rfl)
      (fun hmem => (hkeys _ hmem).not_sidecar rfl) (hvalues ▸ hrecords)
  have hreference : Dict.get? (w.sidecarRoot l r) w.target.naming.protocol.componentRef = none := by
    rw [Dict.get?_eq_none_iff]
    simp only [sidecarRoot, releaseEntry, Dict.keys_cons, Dict.keys_nil]
    cases w.target.naming <;> decide
  have hentries : Dict.get? (w.sidecarRoot l r) w.target.naming.protocol.referencedComponents =
      some (.map (topEntries l r)) := by
    have hversion : w.target.naming.protocol.version ≠
        w.target.naming.protocol.referencedComponents := by
      cases w.target.naming <;> decide
    simp [sidecarRoot, releaseEntry, Dict.get?, hversion]
  refine Scan.finds_node (Scan.adds_map hreference ?_)
    ((Scan.finds_string w.target.release.name).cons htop)
  rw [hentries, List.isEmpty_map, topEntries, List.map_map]
  simp [hne, Function.comp_def]

/-- The sidecar is loaded, on its own, as components that stand for the ids on top of it. -/
theorem load_sidecar (hapart : AliasesApart (G.regular.dag.Reaches root.id) listed)
    (hne : l.aliases ≠ [])
    (hnaming : loading.naming = w.target.naming) (hsupplied : loading.supplied = [])
    (honly : loading.disaggregatedOnly = true) (supply : Supply)
    (hregistry : registry = w.registry) :
    Load.Yields (load registry loading (.map (w.sidecarRoot l r)) supply) fun loaded =>
      ∃ components t, loaded = .referenced components ∧
        Resolved G l (fun _ => none) (Sided G.regular listed) t ∧
        Forall₂ (fun p q => q.1 = p.2 ∧ w.Sound root (fun _ => none) t p.1 q.2) l.aliases
          components := by
  let ctx : Load.Context := ⟨registry, loading.naming, w.target.release, loading.supplied,
    sidecarWithin O.planned r, loading.maxDepth⟩
  have H : Home G l r (fun _ => none) (Sided G.regular listed) ctx :=
    O.home_sidecar hapart hnaming hregistry rfl hsupplied
  have hfinds := O.finds_sidecar hids hnames hlegible hne
  have hrelease : Load.releaseOf w.target.naming.protocol (w.sidecarRoot l r) =
      .ok w.target.release := Load.releaseOf_entry (by simp [sidecarRoot, Dict.get?])
  rw [← hnaming] at hfinds hrelease
  obtain ⟨scan, hscan, hdefined⟩ := hfinds.ofDocument (O.nodup_sidecarWithin hapart)
    fun name => H.found
  have hload := O.loads H hapart hlegible ctx.maxDepth
  have hps : ∀ p ∈ l.aliases, l.reference? p.1 = some p.2 ∧ G.regular.dag.Reaches root.id p.1 ∧
      Sided G.regular listed p.1 ∧ Dict.get? ctx.supplied p.2 = none ∧
      Dict.get? ctx.sidecar p.2 = some (r.at p.1) := by
    intro p hp
    obtain ⟨hreach, hget, -⟩ := O.aliased_name hp
    have hin : Sided G.regular listed p.1 :=
      O.planned.sided_of_aliased (by rw [hget]; exact Option.some_ne_none _)
    have hnone : Dict.get? ctx.supplied p.2 = none := by
      simp [ctx, hsupplied]
    refine ⟨Planned.reference?_of_aliased hget, hreach, hin, hnone, ?_⟩
    exact Dict.get?_of_mem (O.nodup_sidecarWithin hapart)
      (List.mem_append_left _ (List.mem_map_of_mem hp))
  have hentries := O.runs_entries hapart H hload hps ⟨[], supply⟩
  have hruns : (watch G l (fun _ => none) (Sided G.regular listed) (G.regular.dag.rank root.id + 1)
      (G.regular.dag.rank root.id + 1)).Runs ⟨[], supply⟩
      (Load.root ⟨registry, loading.naming, w.target.release, loading.supplied, scan.defined,
        loading.maxDepth⟩ loading.disaggregatedOnly (w.sidecarRoot l r))
      fun t loaded => ∃ components, loaded = .referenced components ∧
        Forall₂ (fun p q => q.1 = p.2 ∧ w.Sound root (fun _ => none) t p.1 q.2) l.aliases
          components := by
    rw [hdefined, honly, root_sidecar hnaming]
    exact hentries.bind fun t components _ h => .pure ⟨components, rfl, h⟩
  have hyields := load_yields (O.unreserved_sidecar hids hnames hlegible) hrelease hscan
    (watch_start G l (fun _ => none) _ _ _ supply) hruns
  refine hyields.mono ?_
  rintro loaded ⟨t, hinv, components, hloaded, h⟩
  exact ⟨components, t, hloaded, hinv.1, h⟩

end Outcome
end Writer
end AgentGraph
