import AgentGraph.Proofs.Dict
import AgentGraph.Save
/-!
# The stamped root

The root record gets the release and an order of its own. What is found in it is what was found in
the record, and the release besides.
-/
namespace AgentGraph

namespace Writer
variable {w : Writer} {record ordered : Dict Tree} {key : String}

/-- Stamping the root moves entries and adds the release. -/
theorem forall_mem_stampRoot {P : String × Tree → Prop} {record : Dict Tree}
    (h : ∀ p ∈ record, P p) (hrelease : P w.releaseEntry) : ∀ p ∈ w.stampRoot record, P p := by
  have hmove {part ordered : Dict Tree} (key : String) (hpart : ∀ p ∈ part, p ∈ record)
      (ho : ∀ p ∈ ordered, P p) : ∀ p ∈ moveFirst part ordered key, P p := by
    unfold moveFirst
    split
    · rename_i t ht
      exact Dict.forall_mem_put ho (h _ (hpart _ (Dict.mem_of_get? ht)))
    · exact ho
  have hrest : ∀ p ∈ Dict.remove record w.target.naming.protocol.componentType, p ∈ record :=
    fun p hp => List.mem_of_mem_filter hp
  have htype : ∀ p ∈ moveFirst record [] w.target.naming.protocol.componentType, P p :=
    hmove _ (fun p hp => hp) (by simp)
  have hstamped := Dict.forall_mem_put htype hrelease
  have htexts := hmove "description" hrest (hmove "name" hrest (hmove "id" hrest hstamped))
  exact Dict.forall_mem_merge htexts fun p hp => h p (List.mem_of_mem_filter hp)

/-- The keys that the stamp does not move. -/
def stays (w : Writer) (key : String) : Bool :=
  key != w.target.naming.protocol.componentType && !(["id", "name", "description"].contains key)

theorem stays_iff : w.stays key = true ↔
    key ≠ w.target.naming.protocol.componentType ∧ key ∉ ["id", "name", "description"] := by
  simp [stays]

/-- The keys that the stamp moves are all apart. -/
theorem stamp_apart (naming : NamingMode) :
    naming.protocol.version ≠ naming.protocol.componentType ∧
      naming.protocol.componentType ∉ ["id", "name", "description"] ∧
      naming.protocol.version ∉ ["id", "name", "description"] := by
  cases naming <;> decide

/-! ## What is found in it -/

theorem get?_moveFirst (other : String) : (moveFirst record ordered key).get? other =
    if key = other then (record.get? other).or (ordered.get? other) else ordered.get? other := by
  unfold moveFirst
  split
  · rename_i t ht
    rw [Dict.get?_put]
    split
    · rename_i hkey
      rw [← hkey, ht]
      rfl
    · rfl
  · rename_i hnone
    split
    · rename_i hkey
      rw [← hkey, hnone]
      rfl
    · rfl

/-- What is found after several keys were moved first. -/
theorem get?_foldl_moveFirst (keys : List String) (ordered : Dict Tree) :
    Dict.get? (keys.foldl (moveFirst record) ordered) key =
      if key ∈ keys then (record.get? key).or (ordered.get? key) else ordered.get? key := by
  induction keys generalizing ordered with
  | nil => rfl
  | cons other rest ih =>
    rw [List.foldl_cons, ih, get?_moveFirst]
    by_cases hother : other = key
    · cases hget : record.get? key <;> simp [hother]
    · simp [hother, Ne.symm hother]

/-- What is left when the first keys were moved. -/
theorem get?_filter_stays (record : Dict Tree) (key : String) :
    Dict.get? (record.filter fun p => w.stays p.1) key =
      if w.stays key then record.get? key else none :=
  Dict.get?_filter record w.stays key

/-- The stamp leaves the discriminator as it is. -/
theorem get?_stampRoot (record : Dict Tree) :
    Dict.get? (w.stampRoot record) w.target.naming.protocol.componentType =
      Dict.get? record w.target.naming.protocol.componentType := by
  obtain ⟨hversion, htexts, -⟩ := stamp_apart w.target.naming
  have hrest : Dict.get? (record.filter fun p => w.stays p.1)
      w.target.naming.protocol.componentType = none := by
    rw [get?_filter_stays]
    simp [stays]
  refine (Dict.get?_merge_of_none hrest).trans ?_
  rw [get?_foldl_moveFirst, if_neg htexts, releaseEntry, Dict.get?_put_of_ne _ _ hversion,
    get?_moveFirst, if_pos rfl, Dict.get?_nil, Option.or_none]

/-- Under any other key the stamp finds what stands there, or the release. -/
theorem get?_stampRoot_of_ne (hnodup : record.keys.Nodup)
    (hkey : key ≠ w.target.naming.protocol.componentType) :
    Dict.get? (w.stampRoot record) key = (Dict.get? record key).or
      (if w.target.naming.protocol.version = key then some w.releaseEntry.2 else none) := by
  obtain ⟨-, -, hversion⟩ := stamp_apart w.target.naming
  have hrest : (Dict.keys (record.filter fun p => w.stays p.1)).Nodup :=
    (List.filter_sublist.map _).nodup hnodup
  have hremove : Dict.get? (Dict.remove record w.target.naming.protocol.componentType) key =
      Dict.get? record key := by
    rw [Dict.remove, Dict.get?_filter record (· != w.target.naming.protocol.componentType)]
    simp [hkey]
  have hstart :
      Dict.get? (moveFirst record [] w.target.naming.protocol.componentType) key = none := by
    rw [get?_moveFirst, if_neg (Ne.symm hkey), Dict.get?_nil]
  refine (Dict.get?_merge hrest).trans ?_
  rw [get?_foldl_moveFirst, hremove, get?_filter_stays, Dict.get?_put, hstart, releaseEntry]
  by_cases htext : key ∈ ["id", "name", "description"]
  · have hne : w.target.naming.protocol.version ≠ key := fun heq => hversion (heq ▸ htext)
    have hmoves : w.stays key = false := by
      rw [← Bool.not_eq_true, stays_iff]
      exact fun h => h.2 htext
    simp [htext, hne, hmoves]
  · simp [htext, stays_iff.mpr ⟨hkey, htext⟩]

/-! ## The order of its entries -/

/-- The entries that a record has under some keys, in the order of the keys. -/
def entriesUnder (record : Dict Tree) (keys : List String) : Dict Tree :=
  keys.filterMap fun key => (record.get? key).map (key, ·)

theorem keys_entriesUnder (record : Dict Tree) (keys : List String) :
    (Dict.keys (entriesUnder record keys)).Sublist keys := by
  induction keys with
  | nil => exact .refl _
  | cons key rest ih =>
    rw [entriesUnder, List.filterMap_cons]
    cases record.get? key with
    | none => exact ih.cons _
    | some t => exact ih.cons_cons _

/-- Keys that are not there yet are put behind what is there. -/
theorem foldl_moveFirst_eq {keys : List String} (hkeys : (ordered.keys ++ keys).Nodup) :
    keys.foldl (moveFirst record) ordered = ordered ++ entriesUnder record keys := by
  induction keys generalizing ordered with
  | nil => exact (List.append_nil _).symm
  | cons key rest ih =>
    rw [List.foldl_cons, moveFirst, entriesUnder, List.filterMap_cons]
    cases hget : record.get? key with
    | none => exact ih (((List.sublist_cons_self key rest).append_left _).nodup hkeys)
    | some t =>
      change rest.foldl (moveFirst record) (ordered.put key t) =
        ordered ++ (key, t) :: entriesUnder record rest
      rw [ih (Dict.nodup_put_next hkeys t), Dict.put_append (Dict.next_not_mem hkeys)]

/-- The keys that were moved are none of those that stay. -/
theorem nodup_moved {front : Dict Tree} (hfront : front.keys.Nodup)
    (hnodup : (w.releaseEntry.1 :: record.keys).Nodup)
    (hmoved : ∀ key ∈ front.keys, key = w.releaseEntry.1 ∨ w.stays key = false) :
    (front.keys ++ Dict.keys (record.filter fun p => w.stays p.1)).Nodup := by
  obtain ⟨hrelease, hnodup⟩ := List.nodup_cons.mp hnodup
  refine List.nodup_append.mpr ⟨hfront, (List.filter_sublist.map _).nodup hnodup, ?_⟩
  rintro key hkey other hother rfl
  obtain ⟨p, hp, rfl⟩ := List.mem_map.mp hother
  obtain ⟨hp, hstays⟩ := List.mem_filter.mp hp
  rcases hmoved p.1 hkey with heq | hmoves
  · exact hrelease (heq ▸ Dict.mem_keys_of_mem hp)
  · rw [hstays] at hmoves
    cases hmoves

/-- The stamped record, entry by entry: the discriminator, the release, the texts, and the other entries
as they stand. -/
theorem stampRoot_eq {t : Tree} (hnodup : (w.releaseEntry.1 :: record.keys).Nodup)
    (htype : record.get? w.target.naming.protocol.componentType = some t) :
    w.stampRoot record =
      [(w.target.naming.protocol.componentType, t), w.releaseEntry] ++
        entriesUnder record ["id", "name", "description"] ++
        record.filter fun p => w.stays p.1 := by
  obtain ⟨hversion, htexts, hversions⟩ := stamp_apart w.target.naming
  have hstart : Dict.put (moveFirst record [] w.target.naming.protocol.componentType)
      w.releaseEntry.1 w.releaseEntry.2 =
        [(w.target.naming.protocol.componentType, t), w.releaseEntry] := by
    simp [moveFirst, htype, Dict.put, releaseEntry, hversion.symm]
  have hremove : entriesUnder (Dict.remove record w.target.naming.protocol.componentType)
      ["id", "name", "description"] = entriesUnder record ["id", "name", "description"] := by
    refine List.filterMap_congr fun key hkey => ?_
    have hne : key ≠ w.target.naming.protocol.componentType := fun heq => htexts (heq ▸ hkey)
    rw [Dict.remove, Dict.get?_filter record (· != w.target.naming.protocol.componentType),
      if_pos (bne_iff_ne.mpr hne)]
  have hkeys : (Dict.keys [(w.target.naming.protocol.componentType, t), w.releaseEntry] ++
      ["id", "name", "description"]).Nodup := by
    have hnaming : ∀ naming : NamingMode,
        ([naming.protocol.componentType, naming.protocol.version] ++
          ["id", "name", "description"]).Nodup := by
      intro naming
      cases naming <;> decide
    exact hnaming _
  rw [stampRoot, hstart, foldl_moveFirst_eq hkeys, hremove]
  refine Dict.merge_of_disjoint (nodup_moved ?_ hnodup fun key hkey => ?_)
  · rw [Dict.keys_append]
    exact ((List.Sublist.refl _).append (keys_entriesUnder _ _)).nodup hkeys
  · rw [← Bool.not_eq_true, stays_iff]
    rw [Dict.keys_append] at hkey
    rcases List.mem_append.mp hkey with hkey | hkey
    · rcases List.mem_cons.mp hkey with htype | hkey
      · exact .inr fun h => h.1 htype
      · exact .inl (List.mem_singleton.mp hkey)
    · exact .inr fun h => h.2 ((keys_entriesUnder _ _).subset hkey)

end Writer
end AgentGraph
