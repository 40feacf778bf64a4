import AgentGraph.Proofs.Forest
import AgentGraph.Proofs.Sidecar.Aliases
import AgentGraph.Save.Record
/-!
# Where every record goes

Once a graph is surveyed and the ids of its sidecar are chosen, every id has one place: on its own in
the sidecar, or within the record of its only user or of its anchor. So the records form a forest
whose tops are the root and the ids of the sidecar. An id is in the part of the sidecar exactly if
it is listed or lies below a listed one.
-/
namespace AgentGraph

namespace Layout

/-- The ids whose records stand directly within the record of an id: those used in place, and those
that it carries for others. -/
def sub (l : Layout) (id : String) : List String :=
  (l.survey.kidsAt id).filter (fun y => (l.reference? y).isNone) ++ l.hosted id

theorem mem_sub_of_inline {l : Layout} {x y : String} (hy : y ∈ l.survey.kidsAt x)
    (href : l.reference? y = none) : y ∈ l.sub x :=
  List.mem_append_left _ (List.mem_filter.mpr ⟨hy, by rw [href]; rfl⟩)

theorem mem_sub_of_hosted {l : Layout} {x y : String} (hy : y ∈ l.hosted x) : y ∈ l.sub x :=
  List.mem_append_right _ hy

end Layout

namespace Writer
variable {w : Writer} {root : Component} {h : w.Regular root} {s₀ : Survey} {l : Layout}
  {listed : List (String × Option String)} {a b x y z name : String}

/-- Users of an id stand on both sides of another id: it lies below, and its anchor does not. -/
def PulledAlong (h : w.Regular root) (table : PlacementTable) (a x : String) : Prop :=
  ∃ b, Dict.get? table x = some (.referenced b) ∧ h.dag.Below a x ∧ b ≠ a ∧ ¬ h.dag.Below a b

/-- A layout that follows the survey of a graph and a list of ids for the sidecar. -/
structure Planned (h : w.Regular root) (listed : List (String × Option String)) (l : Layout) :
    Prop where
  surveyed : w.Surveyed h root.id .empty l.table l.survey
  nodup : l.aliases.keys.Nodup
  aliases : ∀ x name, l.aliases.get? x = some name ↔ forcedName? listed x = some name ∨
    forcedName? listed x = none ∧ name = x ∧
      ∃ a, forcedName? listed a ≠ none ∧ PulledAlong h l.table a x
  below : ∀ a, forcedName? listed a ≠ none → h.dag.Below root.id a

section
variable {table : PlacementTable} {survey : Survey}

/-- The table tells what has users on both sides of an id. -/
theorem pulledAlong_iff (hs : w.Surveyed h root.id .empty table survey)
    (ha : h.dag.Below root.id a) :
    (∃ place, (x, place) ∈ table ∧ Survey.isPulledAlong a (survey.below a) (x, place) = true) ↔
      PulledAlong h table a x := by
  have hmem : ∀ y, (survey.below a).contains y = true ↔ h.dag.Below a y := fun y => by
    rw [List.contains_iff_mem, mem_below hs ha.reaches]
  constructor
  · rintro ⟨place, hplace, hpulled⟩
    cases place with
    | inline p => simp [Survey.isPulledAlong] at hpulled
    | referenced b =>
      simp only [Survey.isPulledAlong, Bool.and_eq_true, bne_iff_ne, Bool.not_eq_true',
        ← Bool.not_eq_true, hmem] at hpulled
      exact ⟨b, Dict.get?_of_mem hs.fits.nodup hplace, hpulled.1.1, hpulled.1.2, hpulled.2⟩
  · rintro ⟨b, hget, hax, hba, hnb⟩
    refine ⟨.referenced b, Dict.mem_of_get? hget, ?_⟩
    simp only [Survey.isPulledAlong, Bool.and_eq_true, bne_iff_ne, Bool.not_eq_true',
      ← Bool.not_eq_true, hmem]
    exact ⟨⟨hax, hba⟩, hnb⟩

/-- Every listed id stands for a component below the root. -/
theorem below_of_force {forced : Aliases} (hs : w.Surveyed h root.id .empty table survey)
    (hforce : survey.force root.id listed [] = .ok forced) (ha : forcedName? listed a ≠ none) :
    h.dag.Below root.id a := by
  obtain ⟨name, hname⟩ := Option.ne_none_iff_exists'.mp ha
  obtain ⟨alias?, hmem, -⟩ := forcedName?_spec hname
  obtain ⟨hroot, hfound⟩ := (Survey.force_ok hforce).2.2 _ hmem
  rw [Survey.component?, ne_eq, Option.map_eq_none_iff] at hfound
  obtain ⟨⟨c, fields⟩, hc⟩ := Option.ne_none_iff_exists'.mp hfound
  obtain ⟨rfl, hreach, -⟩ := hs.known.found _ _ _ hc
  exact (h.reaches_root hreach).below_of_ne (Ne.symm hroot)

/-- The aliases that a survey chooses make a plan. -/
theorem planned_of_aliases {aliases : Aliases} (hs : w.Surveyed h root.id .empty table survey)
    (ha : survey.aliases root.id listed = .ok aliases) :
    w.Planned h listed ⟨survey, table, aliases⟩ := by
  unfold Survey.aliases at ha
  obtain ⟨forced, hforce, ha⟩ := bind_ok ha
  obtain rfl := Except.ok.inj ha
  obtain ⟨hget, hnodup, -⟩ := Survey.force_ok hforce
  have htable : survey.table root.id = table := by
    simp [Survey.table, hs.stored]
  have hforced : ∀ x, forced.get? x = forcedName? listed x := fun x => by
    rw [hget]
    simp
  have hbelow : ∀ a, forcedName? listed a ≠ none → h.dag.Below root.id a := fun a =>
    below_of_force hs hforce
  obtain ⟨hkeys, hadds⟩ := Survey.pullAlong_all survey table forced.keys forced
  rw [htable]
  refine ⟨hs, hkeys (hnodup List.nodup_nil), fun x name => ?_, hbelow⟩
  rw [hadds, hforced]
  refine or_congr_right (and_congr_right fun _ => and_congr_right fun _ => ?_)
  refine exists_congr fun a => ?_
  rw [← Dict.get?_ne_none_iff, hforced]
  exact and_congr_right fun hne => pulledAlong_iff hs (hbelow a hne)

end

/-- An id is listed or lies below a listed one. -/
def Sided (h : w.Regular root) (listed : List (String × Option String)) (x : String) : Prop :=
  ∃ a, forcedName? listed a ≠ none ∧ h.dag.Reaches a x

namespace Planned
variable (P : w.Planned h listed l)
include P

theorem place (hx : h.dag.Below root.id x) :
    ∃ p, Dict.get? l.table x = some p ∧ h.dag.Placed root.id x p := by
  obtain ⟨p, hp⟩ := Dict.mem_keys_iff.mp ((P.surveyed.fits.mem x).mpr hx)
  exact ⟨p, hp, P.surveyed.fits.placed x p hp⟩

theorem aliased_of_listed (ha : forcedName? listed a ≠ none) : l.aliases.get? a ≠ none := by
  obtain ⟨name, hname⟩ := Option.ne_none_iff_exists'.mp ha
  rw [(P.aliases a name).mpr (.inl hname)]
  exact Option.some_ne_none _

theorem sided_of_aliased (hx : l.aliases.get? x ≠ none) : Sided h listed x := by
  obtain ⟨name, hname⟩ := Option.ne_none_iff_exists'.mp hx
  rcases (P.aliases x name).mp hname with hforced | ⟨-, -, a, ha, b, -, hax, -⟩
  · exact ⟨x, by rw [hforced]; exact Option.some_ne_none _, .refl x⟩
  · exact ⟨a, ha, hax.reaches⟩

theorem below_of_sided (hx : Sided h listed x) : h.dag.Below root.id x := by
  obtain ⟨a, ha, hax⟩ := hx
  have hroot := P.below a ha
  refine (hroot.reaches.trans hax).below_of_ne ?_
  rintro rfl
  have := hax.rank_le
  have := hroot.rank_lt
  omega

theorem below_of_aliased (hx : l.aliases.get? x ≠ none) : h.dag.Below root.id x :=
  P.below_of_sided (P.sided_of_aliased hx)

omit P in
theorem reference?_of_aliased (hx : l.aliases.get? x = some name) :
    l.reference? x = some name := by
  simp [Layout.reference?, hx]

omit P in
theorem reference?_of_inline (hx : l.aliases.get? x = none)
    (hp : Dict.get? l.table x = some (.inline a)) : l.reference? x = none := by
  simp [Layout.reference?, Layout.isReferenced, hx, hp]

omit P in
theorem reference?_of_referenced (hx : l.aliases.get? x = none)
    (hp : Dict.get? l.table x = some (.referenced a)) : l.reference? x = some x := by
  have hno : Dict.has l.aliases x = false := by
    rw [← Bool.not_eq_true, Dict.has_iff]
    exact Dict.get?_eq_none_iff.mp hx
  simp [Layout.reference?, Layout.isReferenced, hx, hp, hno]

/-- Users refer to an id exactly if it is listed or stands at two positions. -/
theorem reference_iff (hx : h.dag.Below root.id x) :
    l.reference? x ≠ none ↔ forcedName? listed x ≠ none ∨ h.dag.Shared root.id x := by
  obtain ⟨p, hp, hplaced⟩ := P.place hx
  cases ha : l.aliases.get? x with
  | some name =>
    refine iff_of_true (by rw [reference?_of_aliased ha]; exact Option.some_ne_none _) ?_
    rcases (P.aliases x name).mp ha with hforced | ⟨-, -, a, -, b, hb, -⟩
    · exact .inl (by rw [hforced]; exact Option.some_ne_none _)
    · cases P.surveyed.fits.placed x _ hb with
      | referenced _ hs => exact .inr hs
  | none =>
    have hno : ¬ forcedName? listed x ≠ none := fun hl => P.aliased_of_listed hl ha
    rw [or_iff_right hno]
    cases hplaced with
    | inline ho =>
      rw [reference?_of_inline ha hp]
      exact iff_of_false (fun hne => hne rfl) ho.not_shared
    | referenced _ hs =>
      rw [reference?_of_referenced ha hp]
      exact iff_of_true (Option.some_ne_none _) hs

/-- Users refer to an id by the alias that was given last, or else by the id itself. -/
theorem reference_name (hx : l.reference? x = some name) :
    name = referenceName listed x := by
  unfold referenceName
  cases ha : l.aliases.get? x with
  | some other =>
    rw [reference?_of_aliased ha] at hx
    obtain rfl := Option.some.inj hx
    rcases (P.aliases x other).mp ha with hforced | ⟨hforced, rfl, -⟩ <;> rw [hforced] <;> rfl
  | none =>
    have hno : forcedName? listed x = none := by
      by_contra hl
      exact P.aliased_of_listed hl ha
    rw [hno]
    simp only [Layout.reference?, ha] at hx
    split at hx
    · exact (Option.some.inj hx).symm
    · cases hx

/-- The names in the sidecar are told apart if no two ids of it go by one name. -/
theorem nodup_names_of (hapart : ∀ x y, l.aliases.get? x ≠ none → l.aliases.get? y ≠ none →
    referenceName listed x = referenceName listed y → x = y) : (l.aliases.map (·.2)).Nodup := by
  have hentry : ∀ p ∈ l.aliases, l.aliases.get? p.1 ≠ none ∧ p.2 = referenceName listed p.1 := by
    intro p hp
    have hget := Dict.get?_of_mem P.nodup hp
    refine ⟨by rw [hget]; exact Option.some_ne_none _, ?_⟩
    exact P.reference_name (reference?_of_aliased hget)
  refine List.Nodup.map_on (fun p hp q hq hpq => ?_) (List.Nodup.of_map _ P.nodup)
  obtain ⟨hpa, hpn⟩ := hentry p hp
  obtain ⟨hqa, hqn⟩ := hentry q hq
  have hid : p.1 = q.1 := hapart _ _ hpa hqa (by rw [← hpn, hpq, hqn])
  exact Prod.ext hid hpq

/-- The names in the sidecar are told apart if the aliases are. -/
theorem nodup_names (hapart : AliasesApart (h.dag.Reaches root.id) listed) :
    (l.aliases.map (·.2)).Nodup :=
  P.nodup_names_of fun _ _ hx hy =>
    hapart.name_inj (P.below_of_aliased hx).reaches (P.below_of_aliased hy).reaches

theorem mem_hosted : y ∈ l.hosted x ↔
    l.aliases.get? y = none ∧ Dict.get? l.table y = some (.referenced x) := by
  simp only [Layout.hosted, List.mem_map, List.mem_filter, Bool.and_eq_true, beq_iff_eq,
    Bool.not_eq_true', ← Bool.not_eq_true, Dict.has_iff, Dict.get?_eq_none_iff]
  constructor
  · rintro ⟨⟨z, place⟩, ⟨hmem, rfl, hno⟩, rfl⟩
    exact ⟨hno, Dict.get?_of_mem P.surveyed.fits.nodup hmem⟩
  · rintro ⟨hno, hget⟩
    exact ⟨(y, .referenced x), ⟨Dict.mem_of_get? hget, rfl, hno⟩, rfl⟩

theorem mem_inline (hx : h.dag.Reaches root.id x) :
    y ∈ (l.survey.kidsAt x).filter (fun y => (l.reference? y).isNone) ↔
      l.aliases.get? y = none ∧ Dict.get? l.table y = some (.inline x) := by
  rw [List.mem_filter, (P.surveyed.kidsAt_perm hx).mem_iff, Option.isNone_iff_eq_none]
  constructor
  · rintro ⟨hy, href⟩
    obtain ⟨p, hp, hplaced⟩ := P.place (hx.trans_below ⟨y, hy, .refl y⟩)
    have ha : l.aliases.get? y = none := by
      by_contra ha
      obtain ⟨name, hname⟩ := Option.ne_none_iff_exists'.mp ha
      rw [reference?_of_aliased hname] at href
      cases href
    refine ⟨ha, ?_⟩
    cases hplaced with
    | inline ho => rw [hp, ho.2.2 x hx hy]
    | referenced _ _ =>
      rw [reference?_of_referenced ha hp] at href
      cases href
  · rintro ⟨ha, hp⟩
    cases P.surveyed.fits.placed y _ hp with
    | inline ho => exact ⟨ho.mem, reference?_of_inline ha hp⟩

/-- The record of an id stands directly within that of its only user or of its anchor, unless it has
its own entry in the sidecar. -/
theorem mem_sub (hx : h.dag.Reaches root.id x) :
    y ∈ l.sub x ↔ l.aliases.get? y = none ∧ (Dict.get? l.table y = some (.inline x) ∨
      Dict.get? l.table y = some (.referenced x)) := by
  rw [Layout.sub, List.mem_append, P.mem_inline hx, P.mem_hosted, ← and_or_left]

theorem below_of_sub (hx : h.dag.Reaches root.id x) (hy : y ∈ l.sub x) : h.dag.Below x y := by
  obtain ⟨-, hp | hp⟩ := (P.mem_sub hx).mp hy
  · cases P.surveyed.fits.placed y _ hp with
    | inline ho => exact ⟨y, ho.mem, .refl y⟩
  · have hroot := (P.surveyed.fits.mem y).mp (Dict.mem_keys_iff.mpr ⟨_, hp⟩)
    cases P.surveyed.fits.placed y _ hp with
    | referenced hd _ => exact (hd.dominates.reaches hroot.reaches).2.below_of_ne hd.ne

theorem nodup_sub (hx : h.dag.Reaches root.id x) : (l.sub x).Nodup := by
  refine List.nodup_append.mpr ⟨List.nodup_iff_count_le_one.mpr fun y => ?_, ?_, ?_⟩
  · by_cases hy : y ∈ (l.survey.kidsAt x).filter (fun y => (l.reference? y).isNone)
    · obtain ⟨-, hp⟩ := (P.mem_inline hx).mp hy
      cases P.surveyed.fits.placed y _ hp with
      | inline ho =>
        have hcount := ((P.surveyed.kidsAt_perm hx).count_eq y).trans ho.2.1
        exact Nat.le_trans (List.filter_sublist.count_le y) (Nat.le_of_eq hcount)
    · rw [List.count_eq_zero.mpr hy]
      exact Nat.zero_le 1
  · exact (List.filter_sublist.map _).nodup P.surveyed.fits.nodup
  · rintro y hy z hz rfl
    obtain ⟨-, hp⟩ := (P.mem_inline hx).mp hy
    obtain ⟨-, hq⟩ := P.mem_hosted.mp hz
    rw [hp] at hq
    cases hq

/-- No id is carried twice, by one id or by two. -/
theorem nodup_hosted {ids : List String} (hnodup : ids.Nodup)
    (hids : ∀ x ∈ ids, h.dag.Reaches root.id x) : (ids.flatMap l.hosted).Nodup := by
  rw [List.nodup_flatMap]
  refine ⟨fun x hx => (List.nodup_append.mp (P.nodup_sub (hids x hx))).2.1, hnodup.imp fun hne => ?_⟩
  intro y hy hz
  have hplace := (P.mem_hosted.mp hy).2
  rw [(P.mem_hosted.mp hz).2] at hplace
  cases hplace
  exact hne rfl

/-- The records as they stand within each other. -/
def forest : Forest where
  node := h.dag.Reaches root.id
  sub := l.sub
  rank := h.dag.rank
  node_sub hx hy := hx.trans (P.below_of_sub hx hy).reaches
  rank_lt hx hy := (P.below_of_sub hx hy).rank_lt
  nodup hx := P.nodup_sub hx
  parent hx hx' hy hy' := by
    obtain ⟨-, hp | hp⟩ := (P.mem_sub hx).mp hy <;>
      obtain ⟨-, hq | hq⟩ := (P.mem_sub hx').mp hy' <;> rw [hp] at hq <;> cases hq <;> rfl

theorem reaches_of_within (hx : h.dag.Reaches root.id x) (hw : P.forest.Within x y) :
    h.dag.Reaches x y := by
  induction hw with
  | here => exact .refl _
  | step hy _ ih =>
    exact (P.below_of_sub hx hy).reaches.trans (ih (P.forest.node_sub hx hy))

/-- An id without an entry of its own in the sidecar has a record around its own. -/
theorem exists_parent (hx : h.dag.Below root.id x) (ha : l.aliases.get? x = none) :
    ∃ p, h.dag.Reaches root.id p ∧ x ∈ l.sub p := by
  obtain ⟨place, hget, hplaced⟩ := P.place hx
  cases hplaced with
  | inline ho => exact ⟨_, ho.1, (P.mem_sub ho.1).mpr ⟨ha, .inl hget⟩⟩
  | referenced hd _ =>
    have hreach := (hd.dominates.reaches hx.reaches).1
    exact ⟨_, hreach, (P.mem_sub hreach).mpr ⟨ha, .inr hget⟩⟩

/-- What stands around a part of the sidecar is part of the sidecar. -/
theorem sided_parent (hp : h.dag.Reaches root.id y) (hx : x ∈ l.sub y)
    (hs : Sided h listed x) : Sided h listed y := by
  obtain ⟨a, ha, hax⟩ := hs
  obtain ⟨hno, hplace⟩ := (P.mem_sub hp).mp hx
  have hroot := P.below a ha
  have hne : a ≠ x := by
    rintro rfl
    exact P.aliased_of_listed ha hno
  have hbelow := hax.below_of_ne hne
  rcases hplace with hplace | hplace
  · cases P.surveyed.fits.placed x _ hplace with
    | inline ho =>
      obtain ⟨q, hq, hxq⟩ := hbelow.holder
      obtain rfl := ho.2.2 q (hroot.reaches.trans hq) hxq
      exact ⟨a, ha, hq⟩
  · -- were the anchor outside, the id would have been pulled along
    by_contra hy
    refine Option.some_ne_none x ?_
    rw [← hno, eq_comm, P.aliases]
    refine .inr ⟨?_, rfl, a, ha, y, hplace, hbelow, ?_, fun hay => hy ⟨a, ha, hay.reaches⟩⟩
    · by_contra hl
      exact P.aliased_of_listed hl hno
    · rintro rfl
      exact hy ⟨y, ha, .refl y⟩

theorem exists_top_of_sided (hx : Sided h listed x) :
    ∃ t, l.aliases.get? t ≠ none ∧ P.forest.Within t x := by
  induction hn : h.dag.rank root.id - h.dag.rank x using Nat.strongRecOn generalizing x with
  | _ n ih =>
    subst hn
    by_cases ha : l.aliases.get? x = none
    · have hroot := P.below_of_sided hx
      obtain ⟨p, hp, hxp⟩ := P.exists_parent hroot ha
      have hup := (P.below_of_sub hp hxp).rank_lt
      have htop := hp.rank_le
      obtain ⟨t, ht, hwithin⟩ := ih _ (by omega) (P.sided_parent hp hxp hx) rfl
      exact ⟨t, ht, hwithin.trans (.step hxp (.here x))⟩
    · exact ⟨x, ha, .here x⟩

theorem within_root (hx : h.dag.Reaches root.id x) (hs : ¬ Sided h listed x) :
    P.forest.Within root.id x := by
  induction hn : h.dag.rank root.id - h.dag.rank x using Nat.strongRecOn generalizing x with
  | _ n ih =>
    subst hn
    by_cases hroot : root.id = x
    · subst hroot
      exact .here _
    · have hbelow := hx.below_of_ne hroot
      have ha : l.aliases.get? x = none := by
        by_contra ha
        exact hs (P.sided_of_aliased ha)
      obtain ⟨p, hp, hxp⟩ := P.exists_parent hbelow ha
      have hup := (P.below_of_sub hp hxp).rank_lt
      have htop := hp.rank_le
      have hps : ¬ Sided h listed p := by
        rintro ⟨a, ha, hap⟩
        exact hs ⟨a, ha, hap.trans (P.below_of_sub hp hxp).reaches⟩
      exact (ih _ (by omega) hp hps rfl).trans (.step hxp (.here x))

theorem not_mem_sub_of_top (hx : h.dag.Reaches root.id x)
    (ht : y = root.id ∨ l.aliases.get? y ≠ none) : y ∉ l.sub x := by
  intro hy
  rcases ht with rfl | ha
  · exact (hx.trans_below (P.below_of_sub hx hy)).ne rfl
  · exact ha ((P.mem_sub hx).mp hy).1

theorem not_sided_of_within_root (hw : P.forest.Within root.id x) : ¬ Sided h listed x := by
  intro hs
  obtain ⟨t, ht, htx⟩ := P.exists_top_of_sided hs
  have hroot := P.below_of_aliased ht
  rcases hw.comparable htx (.refl _) hroot.reaches with hrt | htr
  · rcases hrt.last with rfl | ⟨p, hp, htp⟩
    · exact hroot.ne rfl
    · exact P.not_mem_sub_of_top (hp.node (.refl _)) (.inr ht) htp
  · have := htr.rank_le hroot.reaches
    have := hroot.rank_lt
    have : P.forest.rank = h.dag.rank := rfl
    simp only [this] at *
    omega

variable (listing : String → List String)
  (hlisting : ∀ {x}, h.dag.Reaches root.id x → listing x = x :: (l.sub x).flatMap listing)
include hlisting

/-- The document and the sidecar together list no id twice. -/
theorem nodup_listing : (listing root.id ++ l.aliases.keys.flatMap listing).Nodup := by
  have hkeys : ∀ t ∈ l.aliases.keys, l.aliases.get? t ≠ none :=
    fun t ht => Dict.get?_ne_none_iff.mpr ht
  have htops : (root.id :: l.aliases.keys).Nodup := by
    refine List.nodup_cons.mpr ⟨fun hroot => ?_, P.nodup⟩
    exact (P.below_of_aliased (hkeys _ hroot)).ne rfl
  refine P.forest.nodup_tops hlisting (root.id :: l.aliases.keys) htops ?_ ?_
  · refine List.forall_mem_cons.mpr ⟨.refl _, fun t ht => ?_⟩
    exact (P.below_of_aliased (hkeys t ht)).reaches
  · refine List.forall_mem_cons.mpr ⟨fun x hx => P.not_mem_sub_of_top hx (.inl rfl), ?_⟩
    exact fun t ht x hx => P.not_mem_sub_of_top hx (.inr (hkeys t ht))

theorem mem_document : x ∈ listing root.id ↔ h.dag.Reaches root.id x ∧ ¬ Sided h listed x := by
  rw [P.forest.mem_listing hlisting (.refl _)]
  constructor
  · exact fun hw => ⟨P.reaches_of_within (.refl _) hw, P.not_sided_of_within_root hw⟩
  · exact fun hx => P.within_root hx.1 hx.2

theorem mem_sidecar : x ∈ l.aliases.keys.flatMap listing ↔ Sided h listed x := by
  rw [List.mem_flatMap]
  constructor
  · rintro ⟨t, ht, hx⟩
    have ha := Dict.get?_ne_none_iff.mpr ht
    have hroot := (P.below_of_aliased ha).reaches
    obtain ⟨a, hl, hat⟩ := P.sided_of_aliased ha
    have hw := (P.forest.mem_listing hlisting hroot).mp hx
    exact ⟨a, hl, hat.trans (P.reaches_of_within hroot hw)⟩
  · intro hx
    obtain ⟨t, ht, hw⟩ := P.exists_top_of_sided hx
    have hroot := (P.below_of_aliased ht).reaches
    exact ⟨t, Dict.get?_ne_none_iff.mp ht, (P.forest.mem_listing hlisting hroot).mpr hw⟩

end Planned
end Writer
end AgentGraph
