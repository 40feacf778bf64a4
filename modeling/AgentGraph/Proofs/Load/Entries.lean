import AgentGraph.Proofs.Load.Records
/-!
# Where references find their records

The entries of a document are those of its records, and a sidecar has its own on top of those of its
records. What a record refers to is found among the entries of the same part of the graph, except that
the document takes what is on top of the sidecar from elsewhere.
-/
namespace AgentGraph

namespace Writer
variable {w : Writer} {root L : Component} {l : Layout} {r : Records} {x y name : String}
  {listed : List (String × Option String)} {exportSidecar : Bool} {saved : Saved}
  {G : w.FullGraph root} {given : String → Option Component} {ctx : Load.Context}

/-- The entries that stand within the record of an id. -/
def entriesWithin {h : w.Regular root} (P : w.Planned h listed l) (r : Records) (x : String) :
    Dict (Dict Tree) :=
  (P.forest.walk x).flatMap (entriesOf l r)

/-- The entries of a sidecar: those on top and those that stand within them. -/
def sidecarWithin {h : w.Regular root} (P : w.Planned h listed l) (r : Records) :
    Dict (Dict Tree) :=
  (l.aliases.map fun p => (p.2, r.at p.1)) ++ l.aliases.keys.flatMap (entriesWithin P r)

theorem keys_flatMap_entriesOf (ids : List String) :
    Dict.keys (ids.flatMap (entriesOf l r)) = ids.flatMap l.hosted := by
  simp [Dict.keys, entriesOf, List.map_flatMap, Function.comp_def]

theorem mem_flatMap_entriesOf {ids : List String} (hx : x ∈ ids) (hy : y ∈ l.hosted x) :
    (y, r.at y) ∈ ids.flatMap (entriesOf l r) :=
  List.mem_flatMap.mpr ⟨x, hx, List.mem_map_of_mem hy⟩

namespace Outcome
variable (O : Outcome G listed exportSidecar l r saved)
include O

theorem walk_eq (hx : G.regular.dag.Reaches root.id x) : O.planned.forest.walk x =
    x :: (l.sub x).flatMap O.planned.forest.walk := Forest.walk_eq hx

theorem entriesWithin_eq (hx : G.regular.dag.Reaches root.id x) :
    entriesWithin O.planned r x =
      entriesOf l r x ++ (l.sub x).flatMap (entriesWithin O.planned r) := by
  rw [entriesWithin, O.walk_eq hx, List.flatMap_cons, List.flatMap_assoc]
  rfl

theorem sidecarWithin_eq : sidecarWithin O.planned r =
    (l.aliases.map fun p => (p.2, r.at p.1)) ++
      (l.aliases.keys.flatMap O.planned.forest.walk).flatMap (entriesOf l r) := by
  rw [sidecarWithin, List.flatMap_assoc]
  rfl

theorem mem_within_root : x ∈ O.planned.forest.walk root.id ↔
    G.regular.dag.Reaches root.id x ∧ ¬ Sided G.regular listed x :=
  O.planned.mem_document _ O.walk_eq

theorem mem_within_tops : x ∈ l.aliases.keys.flatMap O.planned.forest.walk ↔
    Sided G.regular listed x :=
  O.planned.mem_sidecar _ O.walk_eq

theorem nodup_entriesWithin : (Dict.keys (entriesWithin O.planned r root.id)).Nodup := by
  have hids := O.planned.nodup_listing _ O.walk_eq
  rw [entriesWithin, keys_flatMap_entriesOf]
  exact O.planned.nodup_hosted (List.nodup_append.mp hids).1 fun x hx => (O.mem_within_root.mp hx).1

/-- The names on top of the sidecar and those within it are told apart, as the aliases are. -/
theorem nodup_sidecarWithin (hapart : AliasesApart (G.regular.dag.Reaches root.id) listed) :
    (Dict.keys (sidecarWithin O.planned r)).Nodup := by
  have hids := O.planned.nodup_listing _ O.walk_eq
  have hkeys : Dict.keys (l.aliases.map fun p => (p.2, r.at p.1)) = l.aliases.map (·.2) := by
    simp [Dict.keys, Function.comp_def]
  rw [O.sidecarWithin_eq, Dict.keys_append, keys_flatMap_entriesOf, hkeys, List.nodup_append]
  refine ⟨O.planned.nodup_names hapart, O.planned.nodup_hosted (List.nodup_append.mp hids).2.1
    fun x hx => (O.planned.below_of_sided (O.mem_within_tops.mp hx)).reaches, ?_⟩
  rintro name htop z hz rfl
  obtain ⟨⟨y, name⟩, hp, rfl⟩ := List.mem_map.mp htop
  obtain ⟨x, -, hx⟩ := List.mem_flatMap.mp hz
  obtain ⟨hreach, hget, hyname⟩ := O.aliased_name hp
  obtain ⟨hreach', hno, hself⟩ := O.hosted_name hx
  obtain rfl := hapart.name_inj hreach hreach' (hyname.trans hself.symm)
  rw [hget] at hno
  cases hno

/-- What the document refers to is on top of the sidecar or has its entry in the document. -/
theorem find_entry (hx : G.regular.dag.Reaches root.id x) (hout : ¬ Sided G.regular listed x)
    (hy : y ∈ G.regular.dag.kids x) (href : l.reference? y = some name) :
    l.aliases.get? y = some name ∨ ¬ Sided G.regular listed y ∧ name = y ∧
      Dict.get? (entriesWithin O.planned r root.id) y = some (r.at y) := by
  rcases O.exists_home (hx.trans_below ⟨y, hy, .refl y⟩) href with
    ht | ⟨-, rfl, a, ha, hra, hya⟩
  · exact .inl ht
  · have hax := ha.dominates.holder ha.ne hx hy
    have haout : ¬ Sided G.regular listed a := by
      rintro ⟨b, hb, hba⟩
      exact hout ⟨b, hb, hba.trans hax⟩
    have hmem : (name, r.at name) ∈ entriesWithin O.planned r root.id :=
      mem_flatMap_entriesOf (O.mem_within_root.mpr ⟨hra, haout⟩) hya
    refine .inr ⟨fun hin => haout ?_, rfl, Dict.get?_of_mem O.nodup_entriesWithin hmem⟩
    exact O.planned.sided_parent hra (List.mem_append_right _ hya) hin

/-- What the sidecar refers to has its entry in the sidecar. -/
theorem find_sidecar_entry (hapart : AliasesApart (G.regular.dag.Reaches root.id) listed)
    (hx : G.regular.dag.Reaches root.id x) (hin : Sided G.regular listed x)
    (hy : y ∈ G.regular.dag.kids x) (href : l.reference? y = some name) :
    Dict.get? (sidecarWithin O.planned r) name = some (r.at y) := by
  have hys : Sided G.regular listed y := by
    obtain ⟨a, ha, hax⟩ := hin
    exact ⟨a, ha, hax.trans (.kid hy)⟩
  refine Dict.get?_of_mem (O.nodup_sidecarWithin hapart) ?_
  rw [O.sidecarWithin_eq]
  rcases O.exists_home (hx.trans_below ⟨y, hy, .refl y⟩) href with ht | ⟨-, rfl, b, -, hb, hyb⟩
  · exact List.mem_append_left _ (List.mem_map_of_mem (Dict.mem_of_get? ht))
  · have hbs := O.planned.sided_parent hb (List.mem_append_right _ hyb) hys
    exact List.mem_append_right _ (mem_flatMap_entriesOf (O.mem_within_tops.mpr hbs) hyb)

/-- The document is at home where all that is on top of the sidecar is supplied, and nothing else. -/
theorem home_document (hapart : AliasesApart (G.regular.dag.Reaches root.id) listed)
    (hnaming : ctx.naming = w.target.naming)
    (hregistry : ctx.registry = w.registry)
    (hsidecar : ctx.sidecar = entriesWithin O.planned r root.id)
    (hsupplied : ∀ y name, l.aliases.get? y = some name →
      ∃ L, Dict.get? ctx.supplied name = some L ∧ given y = some L)
    (hnames : ∀ name ∈ Dict.keys ctx.supplied, ∃ y, (y, name) ∈ l.aliases)
    (hside : ∀ x, G.regular.dag.Reaches root.id x → given x ≠ none → Sided G.regular listed x)
    (hgiven : ∀ x L, G.regular.dag.Reaches root.id x → given x = some L → w.Restores root x L ∧
      ∀ d, Component.Reaches Component.children L d → given d.id = some d) :
    Home G l r given (fun x => ¬ Sided G.regular listed x) ctx where
  naming := hnaming
  registry := hregistry
  apart x hx hout := by
    by_contra hne
    exact hout (hside x hx hne)
  sub x y hx hout hy hin := hout (O.planned.sided_parent hx hy hin)
  referenced x y name hx hout hy href := by
    rcases O.find_entry hx hout hy href with ht | ⟨hyout, rfl, hget⟩
    · exact .inr (hsupplied y name ht)
    · refine .inl ⟨hyout, Dict.get?_eq_none_iff.mpr fun hmem => ?_, by rw [hsidecar, hget]⟩
      obtain ⟨z, hz⟩ := hnames name hmem
      obtain ⟨hzreach, hzget, hzname⟩ := O.aliased_name hz
      have hself : name = referenceName listed name := O.planned.reference_name href
      obtain rfl := hapart.name_inj hzreach (hx.trans (.kid hy)) (hzname.trans hself)
      exact hyout (O.planned.sided_of_aliased (by rw [hzget]; exact Option.some_ne_none _))
  given := hgiven

/-- The sidecar is at home on its own. -/
theorem home_sidecar (hapart : AliasesApart (G.regular.dag.Reaches root.id) listed)
    (hnaming : ctx.naming = w.target.naming)
    (hregistry : ctx.registry = w.registry)
    (hsidecar : ctx.sidecar = sidecarWithin O.planned r) (hsupplied : ctx.supplied = []) :
    Home G l r (fun _ => none) (Sided G.regular listed) ctx where
  naming := hnaming
  registry := hregistry
  apart _ _ _ := rfl
  sub x y hx hin hy := by
    obtain ⟨a, ha, hax⟩ := hin
    exact ⟨a, ha, hax.trans (O.planned.below_of_sub hx hy).reaches⟩
  referenced x y name hx hin hy href := by
    obtain ⟨a, ha, hax⟩ := hin
    refine .inl ⟨⟨a, ha, hax.trans (.kid hy)⟩, by rw [hsupplied]; rfl, ?_⟩
    rw [hsidecar]
    exact O.find_sidecar_entry hapart hx ⟨a, ha, hax⟩ hy href
  given _ _ _ hL := by cases hL

end Outcome
end Writer
end AgentGraph
