import AgentGraph.Proofs.Depth.Progress
import AgentGraph.Proofs.Record.Run
/-!
# How deep records are

What is written for a value that stands at a level of the graph takes no more levels than the limit allows
from there. Records that are carried for others were built further down, so each takes up two levels where
at least one was counted.
-/
namespace AgentGraph

/-- The id of a component that stands as a value by itself. -/
def Value.self : Value → List String
  | .component c => [c.id]
  | _ => []

theorem Value.self_of_components_nil {v : Value} (h : v.components = []) : v.self = [] := by
  cases v with
  | component c => cases h
  | _ => rfl

namespace Writer
variable {w : Writer} {root c : Component} {h : w.Regular root} {l : Layout}
  {listed : List (String × Option String)} {r r' : Dict (Dict Tree)} {p : String}
  {done : List String} {extra slack k n : Nat} {dump : Value → RecordM Tree}
  {recordOf : Component → RecordM (Dict Tree)} {s₀ : Survey} {table : PlacementTable}

/-- The ids of the components of a value, each as often as it stands there. -/
def idsIn (cs : List Component) : List String := cs.map (·.id)

theorem dumpData_depth {budget : Nat} {t u : Tree} (hrun : w.dumpData budget t = .ok u) :
    u.depth ≤ budget := by
  unfold dumpData at hrun
  split at hrun
  · cases hrun
  · rename_i hle
    obtain rfl := Except.ok.inj hrun
    exact Nat.le_trans (Tree.depth_strip_le t) (Tree.depthUpTo_le_iff.mp (Nat.le_of_not_gt hle))

theorem remembered_known {id : String} {build : RecordM (Dict Tree)} {record : Dict Tree}
    (hknown : Dict.get? r id = some record) : remembered id build r = .ok (record, r) := by
  change (remembered id build).run r = pure (record, r)
  rw [remembered, StateT.run_bind, StateT.run_get, pure_bind, hknown, StateT.run_pure]

/-- A record that is at hand is looked up, whatever room there is. -/
theorem record_known {record : Dict Tree} (hknown : Dict.get? r c.id = some record) (room : Nat) :
    w.record l room c r = .ok (record, r) := by
  cases room with
  | zero => rw [Writer.record, remembered_known hknown]
  | succ room => rw [Writer.record, remembered_known hknown]

/-- The components of a value stand below an id, which holds them at least as often besides what was done. -/
structure Held (h : w.Regular root) (p : String) (done : List String) (cs : List Component) : Prop where
  reaches : ∀ e ∈ cs, Component.Reaches w.children root e
  count : ∀ x, (done ++ idsIn cs).count x ≤ (h.dag.kids p).count x

/-- What the records at hand become while components that an id holds are written, some of them as values
by themselves. -/
structure Advances (h : w.Regular root) (extra slack k : Nat) (p : String) (done : List String)
    (cs : List Component) (direct : List String) (r r' : Dict (Dict Tree)) : Prop where
  atWork : AtWork h p (done ++ idsIn cs) r'
  grown : Grown h extra slack k (h.dag.rank p) (idsIn cs) direct r r'

/-- A way to write values that stand at a level takes no more levels than it may. -/
def WritesWithin (h : w.Regular root) (extra slack k : Nat) (dump : Value → RecordM Tree) : Prop :=
  ∀ p done v r t r', w.StandsAt root k v → v.ComponentsKept → Held h p done v.components →
    h.dag.Reaches root.id p → AtWork h p done r → dump v r = .ok (t, r') →
    k ≤ w.maxDepth ∧ t.depth ≤ w.allowance extra slack k ∧
      Advances h extra slack k p done v.components v.self r r'

namespace Held
variable {cs ds : List Component}

theorem append (hh : Held h p done (cs ++ ds)) :
    Held h p done cs ∧ Held h p (done ++ idsIn cs) ds := by
  have hcount := hh.count
  simp only [idsIn, List.map_append, ← List.append_assoc] at hcount
  refine ⟨⟨fun e he => hh.reaches e (List.mem_append_left _ he), fun x => ?_⟩,
    ⟨fun e he => hh.reaches e (List.mem_append_right _ he), hcount⟩⟩
  refine Nat.le_trans (List.Sublist.count_le x ?_) (hcount x)
  exact List.sublist_append_left _ _

/-- The fields of a component hold what its id does. -/
theorem start {d : Component} (hd : Component.Reaches w.children root d) :
    Held h d.id [] (heldComponents (w.shown d)) where
  reaches _ he := hd.kid he
  count x := Nat.le_of_eq ((h.kidsOf_perm hd).count_eq x).symm

theorem mem_kids (hh : Held h p done cs) {x : String} (hx : x ∈ done ++ idsIn cs) :
    x ∈ h.dag.kids p := by
  rw [← List.count_pos_iff]
  exact Nat.lt_of_lt_of_le (List.count_pos_iff.mpr hx) (hh.count x)

end Held

namespace Advances
variable {cs ds : List Component} {direct direct' : List String} {r'' : Dict (Dict Tree)}

theorem refl (ha : AtWork h p done r) : Advances h extra slack k p done [] [] r r where
  atWork := by rwa [idsIn, List.map_nil, List.append_nil]
  grown := .refl h r

theorem trans (hv : Advances h extra slack k p done cs direct r r')
    (hrest : Advances h extra slack k p (done ++ idsIn cs) ds direct' r' r'') :
    Advances h extra slack k p done (cs ++ ds) (direct ++ direct') r r'' where
  atWork := by
    rw [idsIn, List.map_append, ← List.append_assoc]
    exact hrest.atWork
  grown := by
    rw [idsIn, List.map_append]
    exact hv.grown.trans hrest.grown

/-- What was written a level below counts no value as one by itself. -/
theorem below (hv : Advances h extra slack (k + 1) p done cs direct r r') :
    Advances h extra slack k p done cs [] r r' :=
  ⟨hv.atWork, hv.grown.below⟩

end Advances

theorem dumpItems_within (hdump : WritesWithin h extra slack k dump) {items : List Value}
    (hstands : ∀ v ∈ items, w.StandsAt root k v) (hkept : Value.componentsKeptItems items)
    (hheld : Held h p done (Value.componentsOfList items)) (hp : h.dag.Reaches root.id p)
    (ha : AtWork h p done r) {ts : List Tree} {m : Nat}
    (hm : k ≤ w.maxDepth → w.allowance extra slack k < m)
    (hrun : dumpItems dump items r = .ok (ts, r')) :
    (∀ t ∈ ts, t.depth < m) ∧
      Advances h extra slack k p done (Value.componentsOfList items) (items.flatMap Value.self) r r' := by
  induction items generalizing done r ts with
  | nil =>
    obtain ⟨rfl, rfl⟩ := run_pure_ok hrun
    exact ⟨by simp, .refl ha⟩
  | cons v rest ih =>
    obtain ⟨hv, hrest⟩ := List.forall_mem_cons.mp hstands
    rw [Value.componentsOfList] at hheld ⊢
    obtain ⟨hheldv, hheldrest⟩ := hheld.append
    rw [dumpItems] at hrun
    obtain ⟨t, r₁, ht, h₁⟩ := run_bind_ok hrun
    obtain ⟨ts', r₂, hts, h₂⟩ := run_bind_ok h₁
    obtain ⟨rfl, rfl⟩ := run_pure_ok h₂
    obtain ⟨hk, htdepth, hadvance⟩ := hdump p done v r t r₁ hv hkept.1 hheldv hp ha ht
    obtain ⟨htsdepth, hadvances⟩ := ih hrest hkept.2 hheldrest hadvance.atWork hts
    exact ⟨List.forall_mem_cons.mpr ⟨Nat.lt_of_le_of_lt htdepth (hm hk), htsdepth⟩,
      hadvance.trans hadvances⟩

theorem dumpMapping_within (hdump : WritesWithin h extra slack k dump) {entries : Dict Value}
    (hstands : ∀ f ∈ entries, isReservedKey f.1 = false → w.StandsAt root k f.2)
    (hkept : Value.componentsKeptEntries entries)
    (hheld : Held h p done (heldComponents entries)) (hp : h.dag.Reaches root.id p)
    (ha : AtWork h p done r) {ts : Dict Tree} {m : Nat}
    (hm : k ≤ w.maxDepth → w.allowance extra slack k < m)
    (hrun : dumpMapping dump entries r = .ok (ts, r')) :
    (∀ f ∈ ts, f.2.depth < m) ∧
      Advances h extra slack k p done (heldComponents entries) (entries.flatMap fun f => f.2.self)
        r r' := by
  induction entries generalizing done r ts with
  | nil =>
    obtain ⟨rfl, rfl⟩ := run_pure_ok hrun
    exact ⟨by simp, .refl ha⟩
  | cons f rest ih =>
    obtain ⟨hv, hrest⟩ := List.forall_mem_cons.mp hstands
    obtain ⟨key, v⟩ := f
    rw [heldComponents, Value.componentsOfEntries] at hheld ⊢
    obtain ⟨hheldv, hheldrest⟩ := hheld.append
    rw [dumpMapping] at hrun
    split at hrun
    · -- the entry is left out, and holds nothing to be written
      rename_i hreserved
      have hnone := hkept.1 hreserved
      rw [hnone, idsIn, List.map_nil, List.append_nil] at hheldrest
      rw [List.flatMap_cons, hnone, Value.self_of_components_nil hnone]
      exact ih hrest hkept.2.2 hheldrest ha hrun
    · rename_i hkey
      obtain ⟨t, r₁, ht, h₁⟩ := run_bind_ok hrun
      obtain ⟨ts', r₂, hts, h₂⟩ := run_bind_ok h₁
      obtain ⟨rfl, rfl⟩ := run_pure_ok h₂
      obtain ⟨hk, htdepth, hadvance⟩ :=
        hdump p done v r t r₁ (hv (by simpa using hkey)) hkept.2.1 hheldv hp ha ht
      obtain ⟨htsdepth, hadvances⟩ := ih hrest hkept.2.2 hheldrest hadvance.atWork hts
      exact ⟨List.forall_mem_cons.mpr ⟨Nat.lt_of_le_of_lt htdepth (hm hk), htsdepth⟩,
        hadvance.trans hadvances⟩

/-- The fields of a record, next to the entries that it has already. -/
theorem dumpFields_within (hdump : WritesWithin h extra slack k dump) {fields : Dict Value}
    (hstands : ∀ f ∈ fields, w.StandsAt root k f.2) (hkept : ∀ f ∈ fields, f.2.ComponentsKept)
    (hheld : Held h p done (heldComponents fields)) (hp : h.dag.Reaches root.id p)
    (ha : AtWork h p done r) {start record : Dict Tree} {m : Nat}
    (hm : k ≤ w.maxDepth → w.allowance extra slack k < m) (hstart : ∀ f ∈ start, f.2.depth < m)
    (hrun : w.dumpFields dump fields start r = .ok (record, r')) :
    (∀ f ∈ record, f.2.depth < m) ∧
      Advances h extra slack k p done (heldComponents fields) (fields.flatMap fun f => f.2.self)
        r r' := by
  induction fields generalizing done r start with
  | nil =>
    obtain ⟨rfl, rfl⟩ := run_pure_ok hrun
    exact ⟨hstart, .refl ha⟩
  | cons f rest ih =>
    obtain ⟨hv, hrest⟩ := List.forall_mem_cons.mp hstands
    obtain ⟨hkeptv, hkeptrest⟩ := List.forall_mem_cons.mp hkept
    obtain ⟨name, v⟩ := f
    rw [heldComponents, Value.componentsOfEntries] at hheld ⊢
    obtain ⟨hheldv, hheldrest⟩ := hheld.append
    rw [dumpFields] at hrun
    obtain ⟨t, r₁, ht, h₁⟩ := run_bind_ok hrun
    obtain ⟨hk, htdepth, hadvance⟩ := hdump p done v r t r₁ hv hkeptv hheldv hp ha ht
    have hput : ∀ f ∈ Dict.put start (w.target.naming.toDocument name) t, f.2.depth < m :=
      Dict.forall_mem_put hstart (Nat.lt_of_le_of_lt htdepth (hm hk))
    obtain ⟨hrecord, hadvances⟩ := ih hrest hkeptrest hheldrest hadvance.atWork hput h₁
    exact ⟨hrecord, hadvance.trans hadvances⟩

theorem baseEntries_within {head record : Dict Tree} {m : Nat} (hone : 1 ≤ m) (hn : n ≤ m)
    (hhead : ∀ f ∈ head, f.2.depth < m) (hrun : w.baseEntries c n head = .ok record) :
    ∀ f ∈ record, f.2.depth < m := by
  have htext (s : String) : (Tree.string s).depth < m := hone
  have hlast : ∀ start : Dict Tree, (∀ f ∈ start, f.2.depth < m) →
      (if c.metadata.isEmpty then return start
        else return Dict.put start "metadata" (← w.dumpData (n - 1) (.map c.metadata)) :
          Except SaveError (Dict Tree)) = .ok record → ∀ f ∈ record, f.2.depth < m := by
    intro start hstart h
    split at h
    · obtain rfl := Except.ok.inj h
      exact hstart
    · obtain ⟨u, hu, h⟩ := bind_ok h
      obtain rfl := Except.ok.inj h
      have hdepth := dumpData_depth hu
      exact Dict.forall_mem_put hstart (by dsimp only; omega)
  have hnamed : ∀ f ∈ Dict.put (Dict.put head "id" (.string c.id)) "name" (.string c.name),
      f.2.depth < m := Dict.forall_mem_put (Dict.forall_mem_put hhead (htext c.id)) (htext c.name)
  unfold baseEntries at hrun
  cases hd : c.description with
  | none =>
    simp only [hd] at hrun
    exact hlast _ hnamed hrun
  | some text =>
    simp only [hd] at hrun
    exact hlast _ (Dict.forall_mem_put hnamed (htext text)) hrun

/-- What is looked up by ids that all have records stands as these records. -/
theorem dumpEntries_known (hs : w.Surveyed h root.id s₀ table l.survey)
    (hrecord : ∀ d record, Dict.get? r d.id = some record → recordOf d r = .ok (record, r))
    {ids : List String} (hids : ∀ y ∈ ids, h.dag.Reaches root.id y ∧ y ∈ Dict.keys r)
    {P : Tree → Prop} (hP : ∀ y ∈ ids, ∀ record, Dict.get? r y = some record → P (.map record))
    {start entries : Dict Tree} (hstart : ∀ f ∈ start, P f.2)
    (hrun : dumpEntries l recordOf ids start r = .ok (entries, r')) :
    r' = r ∧ ∀ f ∈ entries, P f.2 := by
  induction ids generalizing start with
  | nil =>
    obtain ⟨rfl, rfl⟩ := run_pure_ok hrun
    exact ⟨rfl, hstart⟩
  | cons y rest ih =>
    obtain ⟨⟨hy, hmem⟩, hrest⟩ := List.forall_mem_cons.mp hids
    obtain ⟨hPy, hPrest⟩ := List.forall_mem_cons.mp hP
    obtain ⟨d, hd, rfl, -⟩ := hs.exists_found hy
    obtain ⟨record, hknown⟩ := Dict.mem_keys_iff.mp hmem
    rw [dumpEntries] at hrun
    simp only [component?_found hd] at hrun
    obtain ⟨record', r₁, hrec, h₁⟩ := run_bind_ok hrun
    rw [hrecord d record hknown] at hrec
    obtain ⟨rfl, rfl⟩ := Prod.mk.inj (Except.ok.inj hrec)
    exact ih hrest hPrest (Dict.forall_mem_put hstart (hPy record hknown)) h₁

/-- A record that was built at a level, with the records that this left behind before it is kept. -/
structure Drawn (h : w.Regular root) (l : Layout) (extra slack k : Nat) (x : String)
    (record : Dict Tree) (r r' : Dict (Dict Tree)) : Prop where
  level : k ≤ w.maxDepth
  depth : (Tree.map record).depth ≤ w.allowance extra slack k
  complete : Complete h r'
  kids : ∀ y ∈ h.dag.kids x, y ∈ Dict.keys r'
  grown : ∃ top direct, (∀ y ∈ top, y ∈ h.dag.kids x) ∧
    (∀ y ∈ direct, 1 ≤ extra ∨ l.reference? y = none) ∧
    Grown h extra slack (k + 1) (h.dag.rank x) top direct r r'

namespace Drawn
variable {x : String} {record : Dict Tree} (hd : Drawn h l extra slack k x record r r')
include hd

theorem complete_put : Complete h (Dict.put r' x record) := by
  intro y hy z hz
  rw [Dict.mem_keys_put] at hy ⊢
  rcases hy with rfl | hy
  · exact .inr (hd.kids z hz)
  · exact .inr (hd.complete y hy z hz)

theorem grown_put (hnew : Dict.get? r x = none) (hx : x ∈ h.dag.kids p) :
    Grown h extra slack k (h.dag.rank p) [x] [x] r (Dict.put r' x record) := by
  obtain ⟨top, direct, htop, -, hg⟩ := hd.grown
  have hrank := h.dag.rank_lt hx
  refine ⟨fun y => ?_, fun y hy => ?_, fun y found hy => ?_⟩
  · rw [Dict.get?_put]
    split
    · rename_i hxy
      exact .inr (hxy ▸ ⟨hnew, hrank⟩)
    · exact (hg.kept y).imp_right fun hk => ⟨hk.1, Nat.lt_trans hk.2 hrank⟩
  · simp only [Dict.mem_keys_put] at hy ⊢
    rcases hy with rfl | hy
    · exact .inr (.inl List.mem_cons_self)
    · rcases hg.used y hy with hy | hy | ⟨q, hq, hy⟩
      · exact .inl hy
      · exact .inr (.inr ⟨x, .inl rfl, htop y hy⟩)
      · exact .inr (.inr ⟨q, .inr hq, hy⟩)
  · rw [Dict.get?_put] at hy
    split at hy
    · rename_i hxy
      obtain rfl := Option.some.inj hy
      exact .inr (.inr ⟨hxy ▸ List.mem_cons_self, k, Nat.le_refl _, hd.level, hd.depth⟩)
    · exact (hg.below.built y found hy).imp_right fun hb => .inl (hb.resolve_right (by simp))

end Drawn

/-- The record of a component that is written where it is used is not there before. -/
theorem not_mem_of_inline (P : w.Planned h listed l) (hheld : Held h p done [c])
    (hp : h.dag.Reaches root.id p) (ha : AtWork h p done r) (href : l.reference? c.id = none) :
    c.id ∉ Dict.keys r := by
  have hkid : c.id ∈ h.dag.kids p := hheld.mem_kids (by simp [idsIn])
  obtain ⟨place, hplace, hplaced⟩ := P.place (hp.trans_below ⟨c.id, hkid, .refl _⟩)
  have halias : l.aliases.get? c.id = none := by
    cases halias : l.aliases.get? c.id with
    | none => rfl
    | some name => cases (Planned.reference?_of_aliased halias).symm.trans href
  cases hplaced with
  | inline honly =>
    obtain rfl := honly.2.2 p hp hkid
    have hcount := hheld.count c.id
    rw [honly.2.1, idsIn, List.map_singleton, List.count_append, List.count_singleton_self] at hcount
    exact ha.not_mem_of_onlyUser honly (List.count_eq_zero.mp (by omega))
  | referenced => cases (Planned.reference?_of_referenced halias hplace).symm.trans href

/-- What stands where a component is used is its record, if that is not there before, or a reference. -/
theorem use_within (P : w.Planned h listed l) (F : w.Fits root l extra slack)
    (hk : k ≤ w.maxDepth) {build : RecordM (Dict Tree)}
    (hstands : w.StandsAt root k (.component c)) (hheld : Held h p done [c])
    (hp : h.dag.Reaches root.id p) (ha : AtWork h p done r)
    (hbuild : ∀ record r', AtWork h c.id [] r → build r = .ok (record, r') →
      Drawn h l extra slack k c.id record r r')
    {record : Dict Tree} (hrun : remembered c.id build r = .ok (record, r')) :
    (w.useOf l c.id record).depth ≤ w.allowance extra slack k ∧
      Advances h extra slack k p done [c] [c.id] r r' := by
  have hkid : c.id ∈ h.dag.kids p := hheld.mem_kids (by simp [idsIn])
  have hdone : ∀ x ∈ done, x ∈ h.dag.kids p := fun x hx =>
    hheld.mem_kids (List.mem_append_left _ hx)
  have hone : 1 ≤ w.allowance extra slack k := le_allowance hk (F.levels k _ hstands hk)
  have hreference (id : String) : (w.referenceTo id).depth ≤ w.allowance extra slack k := by
    rw [referenceTo, Tree.depth, Tree.depthEntries]
    exact hone
  rcases remembered_cases hrun with ⟨hknown, hr⟩ | ⟨hnew, r₁, hb, rfl⟩
  · rw [hr]
    have hmem : c.id ∈ Dict.keys r := Dict.mem_keys_iff.mpr ⟨record, hknown⟩
    have hg : Grown h extra slack k (h.dag.rank p) [c.id] [c.id] r r := .refl h r
    refine ⟨?_, ha.grow hg (Nat.le_refl _) ha.complete (by simpa [idsIn] using hmem), hg⟩
    rw [useOf]
    cases href : l.reference? c.id with
    | some target => exact hreference target
    | none => exact absurd hmem (not_mem_of_inline P hheld hp ha href)
  · have hdrawn := hbuild record r₁ (ha.start hdone hkid (Dict.get?_eq_none_iff.mp hnew)) hb
    have hg := hdrawn.grown_put hnew hkid
    refine ⟨?_, ha.grow hg (Nat.le_refl _) hdrawn.complete_put ?_, hg⟩
    · rw [useOf]
      cases l.reference? c.id with
      | some target => exact hreference target
      | none => exact hdrawn.depth
    · simp [idsIn, Dict.mem_keys_put]

theorem depth_header (w : Writer) (type : String) : ∀ f ∈ w.header type, f.2.depth = 0 := by
  unfold header
  split
  · refine Dict.forall_mem_put (Dict.forall_mem_put ?_ ?_) ?_ <;> simp [Tree.depth]
  · simp [Tree.depth]

/-- A record that users refer to, and that was added below a level, leaves room for the two levels that
stand around it where it is carried. -/
theorem depth_carried {y : String} {top direct : List String} (hnew : y ∉ Dict.keys r)
    (href : l.reference? y ≠ none) (hdirect : ∀ y ∈ direct, 1 ≤ extra ∨ l.reference? y = none)
    (hg : Grown h extra slack (k + 1) n top direct r r') {record : Dict Tree}
    (hrecord : Dict.get? r' y = some record) :
    (Tree.map record).depth + 1 < w.allowance extra slack k := by
  rcases hg.built y record hrecord with hold | ⟨j, hj, hle, hdepth⟩ | ⟨hself, j, hj, hle, hdepth⟩
  · exact absurd (Dict.mem_keys_iff.mpr ⟨record, hold⟩) hnew
  · have hcarried : w.allowance extra slack j + 2 ≤ w.allowance extra slack k :=
      allowance_carried hle (.inl hj)
    omega
  · have hextra := (hdirect y hself).resolve_right href
    have hcarried : w.allowance extra slack j + 2 ≤ w.allowance extra slack k :=
      allowance_carried hle (.inr ⟨hextra, hj⟩)
    omega

/-- The records that a component carries for others were built below it, after its own was started. -/
theorem dumpHosted_within (P : w.Planned h listed l)
    (hrecord : ∀ r d record, Dict.get? r d.id = some record → recordOf d r = .ok (record, r))
    {x : String} {top direct : List String} (hx : h.dag.Reaches root.id x)
    (ha : AtWork h x [] r) (hcomplete : Complete h r') (hkids : ∀ y ∈ h.dag.kids x, y ∈ Dict.keys r')
    (hdirect : ∀ y ∈ direct, 1 ≤ extra ∨ l.reference? y = none)
    (hg : Grown h extra slack (k + 1) n top direct r r') {start record : Dict Tree}
    {r'' : Dict (Dict Tree)} (hstart : ∀ f ∈ start, f.2.depth < w.allowance extra slack k)
    (hrun : w.dumpHosted l recordOf x start r' = .ok (record, r'')) :
    r'' = r' ∧ ∀ f ∈ record, f.2.depth < w.allowance extra slack k := by
  unfold dumpHosted at hrun
  cases hids : l.hosted x with
  | nil =>
    simp only [hids] at hrun
    obtain ⟨rfl, rfl⟩ := run_pure_ok hrun
    exact ⟨rfl, hstart⟩
  | cons y rest =>
    simp only [hids] at hrun
    obtain ⟨entries, r₁, he, h₁⟩ := run_bind_ok hrun
    obtain ⟨rfl, rfl⟩ := run_pure_ok h₁
    have hat : ∀ z ∈ y :: rest, h.dag.Reaches root.id z ∧ z ∈ Dict.keys r' := by
      intro z hz
      obtain ⟨e, hkid, hez⟩ := P.below_of_sub hx (Layout.mem_sub_of_hosted (hids ▸ hz))
      exact ⟨hx.trans (.step hkid hez), hcomplete.reaches (hkids e hkid) hez⟩
    have hcarried : ∀ z ∈ y :: rest, ∀ record, Dict.get? r' z = some record →
        (Tree.map record).depth + 1 < w.allowance extra slack k := by
      intro z hz record hz'
      obtain ⟨halias, htable⟩ := P.mem_hosted.mp (hids ▸ hz)
      have hnew : z ∉ Dict.keys r := by
        cases P.surveyed.fits.placed z _ htable with
        | referenced hdom _ => exact ha.not_mem_of_dominates hdom.dominates hdom.ne
      have href := Planned.reference?_of_referenced halias htable
      exact depth_carried hnew (by simp [href]) hdirect hg hz'
    obtain ⟨hr, hentries⟩ := dumpEntries_known P.surveyed (hrecord r') hat
      (P := fun t => t.depth + 1 < w.allowance extra slack k) hcarried (by simp) he
    obtain ⟨known, hknown⟩ := Dict.mem_keys_iff.mp (hat y List.mem_cons_self).2
    have hroom := Nat.lt_of_le_of_lt (Nat.le_add_left 1 _) (hcarried y List.mem_cons_self known hknown)
    exact ⟨hr, Dict.forall_mem_put hstart (Tree.depth_map_lt.mpr ⟨hroom, hentries⟩)⟩

/-- A component that is a field by itself is not referred to if there are no extra levels. -/
theorem Fits.direct (F : w.Fits root l extra slack) {d : Component}
    (hd : Component.Reaches w.children root d) {y : String}
    (hy : y ∈ (w.shown d).flatMap fun f => f.2.self) : 1 ≤ extra ∨ l.reference? y = none := by
  obtain ⟨f, hf, hself⟩ := List.mem_flatMap.mp hy
  refine F.apart.imp_right fun hapart => ?_
  cases hv : f.2 with
  | component e =>
    rw [hv, Value.self, List.mem_singleton] at hself
    exact hself ▸ hapart d hd f hf e hv
  | _ => simp [hv, Value.self] at hself

/-- Building a record at a level, with what writes the values one level below. -/
theorem buildRecord_within (P : w.Planned h listed l) (F : w.Fits root l extra slack)
    (hroom : n + k = w.maxDepth) (hdump : WritesWithin h extra slack (k + 1) dump)
    (hrecord : ∀ r d record, Dict.get? r d.id = some record → recordOf d r = .ok (record, r))
    (hc : Component.Reaches w.children root c) (hstands : w.StandsAt root k (.component c))
    (ha : AtWork h c.id [] r) {record : Dict Tree}
    (hrun : w.buildRecord l n dump recordOf c r = .ok (record, r')) :
    Drawn h l extra slack k c.id record r r' := by
  have hk : k ≤ w.maxDepth := by omega
  have hcx := h.reaches_root hc
  obtain ⟨d, hd, hid, hdreach⟩ := P.surveyed.exists_found hcx
  have htype : d.componentType = c.componentType :=
    Component.same_type (h.coherent d c hdreach hc hid)
  have hperm : (h.dag.kids c.id).Perm (idsIn (heldComponents (w.shown d))) := by
    rw [← hid]
    exact h.kidsOf_perm hdreach
  have hone : 1 ≤ w.allowance extra slack k := le_allowance hk (F.levels k _ hstands hk)
  have hheader : ∀ f ∈ w.header c.componentType, f.2.depth < w.allowance extra slack k :=
    fun f hf => by rw [w.depth_header _ f hf]; exact hone
  have hdepth {entries : Dict Tree} (hentries : ∀ f ∈ entries, f.2.depth < w.allowance extra slack k) :
      (Tree.map entries).depth ≤ w.allowance extra slack k :=
    Tree.depth_map_le.mpr ⟨hone, hentries⟩
  unfold buildRecord at hrun
  obtain ⟨fields, hf, h₁⟩ := run_lift_bind_ok hrun
  obtain rfl : w.shown d = fields := Except.ok.inj ((fieldsOf_found hd).symm.trans hf)
  simp only at h₁
  split at h₁
  · obtain ⟨base, hbase, h₂⟩ := run_lift_bind_ok h₁
    obtain ⟨record₁, r₁, hfield, h₃⟩ := run_bind_ok h₂
    have hn : n ≤ w.allowance extra slack k := le_allowance hk (by omega)
    have hheld : Held h c.id [] (heldComponents (w.shown d)) := hid ▸ .start hdreach
    obtain ⟨hrecord₁, ha₁, hg₁⟩ := dumpFields_within hdump
      (fun f hf => .field hstands hdreach hid hf) (F.kept d hdreach) hheld hcx ha
      (fun hlt => allowance_succ hlt) (baseEntries_within hone hn hheader hbase) hfield
    have hkids : ∀ y ∈ h.dag.kids c.id, y ∈ Dict.keys r₁ := fun y hy =>
      ha₁.finished y (hperm.mem_iff.mp hy)
    obtain ⟨rfl, hentries⟩ := dumpHosted_within P hrecord hcx ha ha₁.complete hkids
      (fun y => F.direct hdreach) hg₁ hrecord₁ h₃
    exact ⟨hk, hdepth hentries, ha₁.complete, hkids, _, _, fun y hy => hperm.mem_iff.mpr hy,
      fun y => F.direct hdreach, hg₁⟩
  · rename_i hdenied
    obtain ⟨rfl, rfl⟩ := run_pure_ok h₁
    have hnone : h.dag.kids c.id = [] := by
      have hshown : w.shown d = [] := by rw [shown, htype, if_neg hdenied]
      rw [hshown] at hperm
      exact hperm.eq_nil
    refine ⟨hk, hdepth hheader, ha.complete, by simp [hnone], [], [], by simp, by simp, .refl h _⟩

/-- Values are written within what they may take, whatever the level at which they stand. -/
theorem writes_within (P : w.Planned h listed l) (F : w.Fits root l extra slack) (n : Nat)
    (hroom : n + k = w.maxDepth + 1) : WritesWithin h extra slack k (w.dumpValue l n) := by
  induction n generalizing k with
  | zero =>
    intro p done v r t r' _ _ _ _ _ hrun
    rw [dumpValue] at hrun
    exact (run_throw_ok hrun).elim
  | succ n ih =>
    intro p done v r t r' hstands hkept hheld hp ha hrun
    have hk : k ≤ w.maxDepth := by omega
    have hbelow : WritesWithin h extra slack (k + 1) (w.dumpValue l n) := ih (by omega)
    have hlevels : v.levels ≤ w.allowance extra slack k := le_allowance hk (F.levels k v hstands hk)
    have hfree (hnone : v.components = []) :
        Advances h extra slack k p done v.components v.self r r := by
      rw [hnone, Value.self_of_components_nil hnone]
      exact .refl ha
    cases v with
    | data t =>
      rw [dumpValue] at hrun
      obtain ⟨hu, rfl⟩ := run_lift_ok hrun
      have hdepth := dumpData_depth hu
      exact ⟨hk, Nat.le_trans hdepth (le_allowance hk (by omega)), hfree rfl⟩
    | component c =>
      rw [dumpValue_component] at hrun
      obtain ⟨record, r₁, hrec, h₁⟩ := run_bind_ok hrun
      obtain ⟨rfl, rfl⟩ := run_pure_ok h₁
      rw [Value.components] at hheld
      have hc := hheld.reaches c List.mem_cons_self
      rw [Writer.record] at hrec
      exact ⟨hk, use_within P F hk hstands hheld hp ha (fun record r' ha' hb =>
        buildRecord_within P F (by omega) hbelow (fun r d record hd => record_known hd n) hc hstands
          ha' hb) hrec⟩
    | property q =>
      rw [dumpValue] at hrun
      obtain ⟨rfl, rfl⟩ := run_pure_ok hrun
      exact ⟨hk, hlevels, hfree rfl⟩
    | list items =>
      rw [dumpValue] at hrun
      obtain ⟨ts, r₁, hts, h₁⟩ := run_bind_ok hrun
      obtain ⟨rfl, rfl⟩ := run_pure_ok h₁
      rw [Value.components] at hheld
      obtain ⟨hdepth, hadvances⟩ := dumpItems_within hbelow (fun v hv => .item hstands hv) hkept
        hheld hp ha (fun hlt => allowance_succ hlt) hts
      refine ⟨hk, Tree.depth_list_le.mpr ⟨hlevels, hdepth⟩, ?_⟩
      rw [Value.components]
      exact hadvances.below
    | map entries =>
      rw [dumpValue] at hrun
      obtain ⟨ts, r₁, hts, h₁⟩ := run_bind_ok hrun
      obtain ⟨rfl, rfl⟩ := run_pure_ok h₁
      rw [Value.components] at hheld
      obtain ⟨hdepth, hadvances⟩ := dumpMapping_within hbelow
        (fun f hf hkey => .entry hstands hf hkey) hkept hheld hp ha (fun hlt => allowance_succ hlt) hts
      refine ⟨hk, Tree.depth_map_le.mpr ⟨hlevels, hdepth⟩, ?_⟩
      rw [Value.components]
      exact hadvances.below

end Writer
end AgentGraph
