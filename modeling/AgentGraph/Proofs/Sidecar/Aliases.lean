import AgentGraph.Proofs.Sidecar.Below
/-!
# Which ids are in the sidecar

An id is in the sidecar if it is listed, or if it lies below a listed one and its anchor does not:
then it has users on both sides. A listed id goes by the alias that was given last.
-/
namespace AgentGraph

/-- The name under which a list forces an id into the sidecar: the alias of the last entry for it, or
the id itself. -/
def forcedName? (listed : List (String × Option String)) (id : String) : Option String :=
  (listed.reverse.lookup id).map (·.getD id)

theorem forcedName?_cons (entry : String × Option String)
    (listed : List (String × Option String)) (id : String) :
    forcedName? (entry :: listed) id = (forcedName? listed id).or
      (if entry.1 = id then some (entry.2.getD id) else none) := by
  obtain ⟨key, alias?⟩ := entry
  rw [forcedName?, forcedName?, List.reverse_cons, List.lookup_append]
  cases listed.reverse.lookup id with
  | some a => simp
  | none =>
    by_cases hk : id = key
    · simp [hk]
    · simp [List.lookup_cons, beq_false_of_ne hk, Ne.symm hk]

theorem forcedName?_eq_none {listed : List (String × Option String)} {id : String} :
    forcedName? listed id = none ↔ ∀ entry ∈ listed, entry.1 ≠ id := by
  induction listed with
  | nil => simp [forcedName?]
  | cons entry rest ih =>
    rw [forcedName?_cons, Option.or_eq_none_iff, ih, List.forall_mem_cons, and_comm]
    simp

theorem forcedName?_ne_none_iff {listed : List (String × Option String)} {id : String} :
    forcedName? listed id ≠ none ↔ id ∈ listed.map (·.1) := by
  rw [ne_eq, forcedName?_eq_none]
  simp

theorem forcedName?_spec {listed : List (String × Option String)} {id name : String}
    (h : forcedName? listed id = some name) :
    ∃ alias?, (id, alias?) ∈ listed ∧ name = alias?.getD id := by
  induction listed with
  | nil => simp [forcedName?] at h
  | cons entry rest ih =>
    rw [forcedName?_cons, Option.or_eq_some_iff] at h
    rcases h with h | ⟨-, h⟩
    · obtain ⟨alias?, hmem, hname⟩ := ih h
      exact ⟨alias?, List.mem_cons_of_mem _ hmem, hname⟩
    · split at h
      · subst id
        exact ⟨entry.2, List.mem_cons_self, (Option.some.inj h).symm⟩
      · cases h

theorem eq_of_nodup_filterMap {α β : Type} {f : α → Option β} {xs : List α} {x y : α} {b : β}
    (h : (xs.filterMap f).Nodup) (hx : x ∈ xs) (hy : y ∈ xs) (hfx : f x = some b)
    (hfy : f y = some b) : x = y := by
  induction xs with
  | nil => simp at hx
  | cons a rest ih =>
    rw [List.filterMap_cons] at h
    have hb : ∀ {z}, z ∈ rest → f z = some b → b ∈ rest.filterMap f :=
      fun hz hfz => List.mem_filterMap.mpr ⟨_, hz, hfz⟩
    rcases List.mem_cons.mp hx with rfl | hxr <;> rcases List.mem_cons.mp hy with rfl | hyr
    · rfl
    · simp only [hfx, List.nodup_cons] at h
      exact absurd (hb hyr hfy) h.1
    · simp only [hfy, List.nodup_cons] at h
      exact absurd (hb hxr hfx) h.1
    · refine ih ?_ hxr hyr
      split at h
      · exact h
      · exact (List.nodup_cons.mp h).2

/-- The aliases given in a list are pairwise distinct and none is the id of a component. -/
structure AliasesApart (ids : String → Prop) (listed : List (String × Option String)) : Prop where
  distinct : (listed.filterMap (·.2)).Nodup
  apart : ∀ entry ∈ listed, ∀ name, entry.2 = some name → ¬ ids name

theorem aliasesApart_nil (ids : String → Prop) : AliasesApart ids [] := ⟨List.nodup_nil, by simp⟩

theorem AliasesApart.mono {ids ids' : String → Prop} {listed : List (String × Option String)}
    (h : AliasesApart ids listed) (himp : ∀ x, ids' x → ids x) : AliasesApart ids' listed :=
  ⟨h.distinct, fun entry hentry name hname hx => h.apart entry hentry name hname (himp name hx)⟩

/-- The name by which references go to an id. -/
def referenceName (listed : List (String × Option String)) (id : String) : String :=
  (forcedName? listed id).getD id

/-- A name is the id itself or an alias that the list gives. -/
theorem referenceName_spec (listed : List (String × Option String)) (id : String) :
    referenceName listed id = id ∨
      (id, some (referenceName listed id)) ∈ listed := by
  unfold referenceName
  cases h : forcedName? listed id with
  | none => exact .inl rfl
  | some name =>
    obtain ⟨alias?, hmem, rfl⟩ := forcedName?_spec h
    cases alias? with
    | none => exact .inl rfl
    | some a => exact .inr hmem

theorem AliasesApart.name_inj {ids : String → Prop} {listed : List (String × Option String)}
    (h : AliasesApart ids listed) {x y : String} (hx : ids x) (hy : ids y)
    (hname : referenceName listed x = referenceName listed y) : x = y := by
  rcases referenceName_spec listed x with hnx | hnx <;>
    rcases referenceName_spec listed y with hny | hny
  · rw [← hnx, hname, hny]
  · rw [← hname, hnx] at hny
    exact absurd hx (h.apart _ hny x rfl)
  · rw [hname, hny] at hnx
    exact absurd hy (h.apart _ hnx y rfl)
  · rw [hname] at hnx
    exact (Prod.mk.inj (eq_of_nodup_filterMap h.distinct hnx hny rfl rfl)).1

namespace Survey
variable {s : Survey} {root : String} {listed : List (String × Option String)}
  {start forced : Aliases}

theorem force_ok (h : s.force root listed start = .ok forced) :
    (∀ x, forced.get? x = (forcedName? listed x).or (start.get? x)) ∧
    (start.keys.Nodup → forced.keys.Nodup) ∧
    ∀ entry ∈ listed, entry.1 ≠ root ∧ s.component? entry.1 ≠ none := by
  induction listed generalizing start with
  | nil =>
    obtain rfl := Except.ok.inj h
    exact ⟨fun x => rfl, id, by simp⟩
  | cons entry rest ih =>
    obtain ⟨key, alias?⟩ := entry
    rw [force] at h
    split at h
    · cases h
    · rename_i hroot
      split at h
      · cases h
      · rename_i hfound
        obtain ⟨hget, hnodup, hall⟩ := ih h
        refine ⟨fun x => ?_, fun hs => hnodup (Dict.nodup_put hs _ _),
          List.forall_mem_cons.mpr ⟨⟨by simpa using hroot, by simpa using hfound⟩, hall⟩⟩
        rw [hget, forcedName?_cons, Option.or_assoc, Dict.get?_put]
        by_cases hk : key = x
        · simp [hk]
        · simp [hk]

/-- Ids of a kind were added under their own names. -/
def Adds (which : String → Prop) (aliases more : Aliases) : Prop :=
  (aliases.keys.Nodup → more.keys.Nodup) ∧ ∀ x name, more.get? x = some name ↔
    aliases.get? x = some name ∨ aliases.get? x = none ∧ name = x ∧ which x

theorem Adds.trans {P Q : String → Prop} {a b c : Aliases} (h : Adds P a b) (k : Adds Q b c) :
    Adds (fun x => P x ∨ Q x) a c := by
  refine ⟨fun hs => k.1 (h.1 hs), fun x name => ?_⟩
  have hnone : b.get? x = none ↔ a.get? x = none ∧ ¬ P x := by
    rw [← not_iff_not, ← ne_eq, Option.ne_none_iff_exists']
    simp only [h.2]
    by_cases ha : a.get? x = none
    · simp [ha]
    · obtain ⟨t, ht⟩ := Option.ne_none_iff_exists'.mp ha
      simp [ht]
  rw [k.2, h.2, hnone]
  by_cases ha : a.get? x = none
  · by_cases hP : P x <;> simp [ha, hP]
  · simp [ha]

/-- An entry is added under its own name, unless it is there already or stays where it is. -/
theorem pullAlong_entry (id : String) (below : List String) (entry : String × Placement)
    (aliases : Aliases) :
    Adds (fun x => entry.1 = x ∧ isPulledAlong id below entry = true) aliases
      (if isPulledAlong id below entry && !Dict.has aliases entry.1 then
        Dict.put aliases entry.1 entry.1
      else aliases) := by
  split
  · rename_i hadd
    simp only [Bool.and_eq_true, Bool.not_eq_true', ← Bool.not_eq_true, Dict.has_iff] at hadd
    refine ⟨fun hs => Dict.nodup_put hs _ _, fun x name => ?_⟩
    rw [Dict.get?_put]
    by_cases hx : entry.1 = x
    · subst hx
      have hnone := Dict.get?_eq_none_iff.mpr hadd.2
      simp [hnone, hadd.1, eq_comm]
    · simp [hx]
  · rename_i hadd
    refine ⟨fun hs => hs, fun x name => ⟨.inl, ?_⟩⟩
    rintro (hx | ⟨hnone, -, rfl, hp⟩)
    · exact hx
    · refine absurd ?_ hadd
      have hno : ¬ Dict.has aliases entry.1 = true := by
        rw [Dict.has_iff]
        exact Dict.get?_eq_none_iff.mp hnone
      simp [hp, hno]

theorem pullAlong_entries (id : String) (below : List String) (entries : PlacementTable)
    (aliases : Aliases) :
    Adds (fun x => ∃ place, (x, place) ∈ entries ∧ isPulledAlong id below (x, place) = true)
      aliases
      (entries.foldl (fun aliases entry =>
        if isPulledAlong id below entry && !Dict.has aliases entry.1 then
          Dict.put aliases entry.1 entry.1
        else aliases) aliases) := by
  induction entries generalizing aliases with
  | nil => exact ⟨fun hs => hs, fun x name => by simp⟩
  | cons entry rest ih =>
    have h := (pullAlong_entry id below entry aliases).trans (ih _)
    refine ⟨h.1, fun x name => (h.2 x name).trans ?_⟩
    refine or_congr_right (and_congr_right fun _ => and_congr_right fun _ => ?_)
    constructor
    · rintro (⟨rfl, hp⟩ | ⟨place, hmem, hp⟩)
      · exact ⟨entry.2, List.mem_cons_self, hp⟩
      · exact ⟨place, List.mem_cons_of_mem _ hmem, hp⟩
    · rintro ⟨place, hmem, hp⟩
      rcases List.mem_cons.mp hmem with rfl | hmem
      · exact .inl ⟨rfl, hp⟩
      · exact .inr ⟨place, hmem, hp⟩

theorem pullAlong_all (s : Survey) (table : PlacementTable) (ids : List String)
    (aliases : Aliases) :
    Adds (fun x => ∃ id ∈ ids, ∃ place, (x, place) ∈ table ∧
        isPulledAlong id (s.below id) (x, place) = true)
      aliases (ids.foldl (s.pullAlong table) aliases) := by
  induction ids generalizing aliases with
  | nil => exact ⟨id, fun x name => by simp⟩
  | cons id rest ih =>
    have h := (pullAlong_entries id (s.below id) table aliases).trans (ih _)
    refine ⟨h.1, fun x name => (h.2 x name).trans ?_⟩
    refine or_congr_right (and_congr_right fun _ => and_congr_right fun _ => ?_)
    simp

end Survey
end AgentGraph
