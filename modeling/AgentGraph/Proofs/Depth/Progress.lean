import AgentGraph.Proofs.Depth.Levels
/-!
# Records at hand while one is being built

A record is only ever built where its component is used, so every record at hand has a user with a record
at hand or with one that is being built. While the record of an id is being built, that of a component
which it alone uses once is not there before it gets to it, and when it starts, no record of an id that
it dominates is there.
-/
namespace AgentGraph

/-- A dominator of a node, other than the node, dominates all that hold it. -/
theorem Dag.Dominates.user {G : Dag} {r a x q : String} (h : G.Dominates r a x) (hne : a ≠ x)
    (hx : x ∈ G.kids q) : G.Dominates r a q := by
  intro i hi
  have hstep : G.Route q [q, x] x := .step hx (.here x)
  obtain ⟨k, hk, hmem⟩ := hi.append hstep
  rcases (hmem a).mp (h k hk) with hi' | hi'
  · exact hi'
  · rcases List.mem_cons.mp hi' with rfl | hax
    · exact hi.end_mem
    · exact absurd (List.mem_singleton.mp hax) hne

namespace Writer
variable {w : Writer} {root : Component} {h : w.Regular root} {r r' r'' : Dict (Dict Tree)}
  {p q x e : String} {done top top' direct direct' : List String} {extra slack k n n' : Nat}

theorem Regular.reaches_of_kid (h : w.Regular root) (hx : x ∈ h.dag.kids q) :
    h.dag.Reaches root.id q := by
  change x ∈ w.kidsOf root q at hx
  unfold kidsOf at hx
  cases hq : w.representative? root q with
  | none => simp [hq] at hx
  | some c =>
    obtain ⟨-, rfl, hc⟩ := representative?_spec hq
    exact h.reaches_root hc

/-- Every id that is used by one with a record has a record. -/
def Complete (h : w.Regular root) (r : Dict (Dict Tree)) : Prop :=
  ∀ x ∈ Dict.keys r, ∀ y ∈ h.dag.kids x, y ∈ Dict.keys r

theorem Complete.reaches (hr : Complete h r) {y : String} (hx : x ∈ Dict.keys r)
    (hxy : h.dag.Reaches x y) : y ∈ Dict.keys r := by
  obtain ⟨i, hi⟩ := hxy
  induction hi with
  | here => exact hx
  | step hkid _ ih => exact ih (hr _ hx _ hkid)

/-- The records at hand while that of an id is being built, when some of its children are done. -/
structure AtWork (h : w.Regular root) (p : String) (done : List String) (r : Dict (Dict Tree)) :
    Prop where
  complete : Complete h r
  used : ∀ x ∈ Dict.keys r, x ∈ done ∨
    ∃ q, x ∈ h.dag.kids q ∧ (q ∈ Dict.keys r ∨ h.dag.rank p < h.dag.rank q)
  fresh : p ∉ Dict.keys r
  finished : ∀ x ∈ done, x ∈ Dict.keys r

/-- The record takes no more than what may be written from some level on. -/
def BuiltFrom (w : Writer) (extra slack k : Nat) (record : Dict Tree) : Prop :=
  ∃ j, k ≤ j ∧ j ≤ w.maxDepth ∧ (Tree.map record).depth ≤ w.allowance extra slack j

/-- Records were added by writing a value at a level. The new ones are those of some ids and of what is
used by others at hand. They were built further down, but for what stands at the level itself. -/
structure Grown (h : w.Regular root) (extra slack k n : Nat) (top direct : List String)
    (r r' : Dict (Dict Tree)) : Prop where
  kept : ∀ x, Dict.get? r' x = Dict.get? r x ∨ Dict.get? r x = none ∧ h.dag.rank x < n
  used : ∀ x ∈ Dict.keys r', x ∈ Dict.keys r ∨ x ∈ top ∨ ∃ q ∈ Dict.keys r', x ∈ h.dag.kids q
  built : ∀ x record, Dict.get? r' x = some record → Dict.get? r x = some record ∨
    w.BuiltFrom extra slack (k + 1) record ∨ x ∈ direct ∧ w.BuiltFrom extra slack k record

theorem BuiltFrom.mono {record : Dict Tree} (hb : w.BuiltFrom extra slack n record) (hkn : k ≤ n) :
    w.BuiltFrom extra slack k record := by
  obtain ⟨j, hj, hle, hdepth⟩ := hb
  exact ⟨j, Nat.le_trans hkn hj, hle, hdepth⟩

namespace Grown

theorem refl (h : w.Regular root) (r : Dict (Dict Tree)) :
    Grown h extra slack k n top direct r r where
  kept _ := .inl rfl
  used _ hx := .inl hx
  built _ _ hx := .inl hx

theorem mem (hg : Grown h extra slack k n top direct r r') (hx : x ∈ Dict.keys r) :
    x ∈ Dict.keys r' := by
  obtain ⟨record, hrecord⟩ := Dict.mem_keys_iff.mp hx
  rcases hg.kept x with hk | ⟨hk, -⟩
  · exact Dict.mem_keys_iff.mpr ⟨record, hk.trans hrecord⟩
  · cases hk.symm.trans hrecord

theorem trans (hg : Grown h extra slack k n top direct r r')
    (hg' : Grown h extra slack k n top' direct' r' r'') :
    Grown h extra slack k n (top ++ top') (direct ++ direct') r r'' where
  kept x := by
    rcases hg'.kept x with hk | ⟨hk, hn⟩
    · rw [hk]
      exact hg.kept x
    · rcases hg.kept x with hk' | hk'
      · exact .inr ⟨hk' ▸ hk, hn⟩
      · exact .inr hk'
  used x hx := by
    rcases hg'.used x hx with hx | hx | hx
    · rcases hg.used x hx with hx | hx | ⟨q, hq, hx⟩
      · exact .inl hx
      · exact .inr (.inl (List.mem_append_left _ hx))
      · exact .inr (.inr ⟨q, hg'.mem hq, hx⟩)
    · exact .inr (.inl (List.mem_append_right _ hx))
    · exact .inr (.inr hx)
  built x record hx := by
    rcases hg'.built x record hx with hx | hx | ⟨hx, hb⟩
    · exact (hg.built x record hx).imp_right
        (Or.imp_right fun ⟨hx, hb⟩ => ⟨List.mem_append_left _ hx, hb⟩)
    · exact .inr (.inl hx)
    · exact .inr (.inr ⟨List.mem_append_right _ hx, hb⟩)

/-- What was added by a value one level below stands below. -/
theorem below (hg : Grown h extra slack (k + 1) n top direct r r') :
    Grown h extra slack k n top [] r r' where
  kept := hg.kept
  used := hg.used
  built x record hx := (hg.built x record hx).imp_right fun hb =>
    .inl (hb.elim (·.mono (Nat.le_succ _)) (·.2))

end Grown

namespace AtWork

/-- While a record is being built, one is started for a child that has none. -/
theorem start (ha : AtWork h p done r) (hdone : ∀ x ∈ done, x ∈ h.dag.kids p)
    (he : e ∈ h.dag.kids p) (hnew : e ∉ Dict.keys r) : AtWork h e [] r where
  complete := ha.complete
  used x hx := by
    have hrank := h.dag.rank_lt he
    rcases ha.used x hx with hx | ⟨q, hxq, hq⟩
    · exact .inr ⟨p, hdone x hx, .inr hrank⟩
    · exact .inr ⟨q, hxq, hq.imp_right (Nat.lt_trans hrank)⟩
  fresh := hnew
  finished _ hx := absurd hx List.not_mem_nil

/-- What was added for children of an id leaves its own record to be built. -/
theorem grow (ha : AtWork h p done r) (hg : Grown h extra slack k n top direct r r')
    (hn : n ≤ h.dag.rank p) (hcomplete : Complete h r') (htop : ∀ x ∈ top, x ∈ Dict.keys r') :
    AtWork h p (done ++ top) r' where
  complete := hcomplete
  used x hx := by
    rcases hg.used x hx with hx | hx | ⟨q, hq, hx⟩
    · rcases ha.used x hx with hx | ⟨q, hxq, hq⟩
      · exact .inl (List.mem_append_left _ hx)
      · exact .inr ⟨q, hxq, hq.imp_left hg.mem⟩
    · exact .inl (List.mem_append_right _ hx)
    · exact .inr ⟨q, hx, .inl hq⟩
  fresh hp := by
    obtain ⟨record, hrecord⟩ := Dict.mem_keys_iff.mp hp
    rcases hg.kept p with hk | ⟨-, hrank⟩
    · exact ha.fresh (Dict.mem_keys_iff.mpr ⟨record, hk ▸ hrecord⟩)
    · exact absurd hrank (Nat.not_lt.mpr hn)
  finished x hx := by
    rcases List.mem_append.mp hx with hx | hx
    · exact hg.mem (ha.finished x hx)
    · exact htop x hx

/-- A child that nothing else uses, and that was not done before, has no record. -/
theorem not_mem_of_onlyUser (ha : AtWork h p done r) (ho : h.dag.OnlyUser root.id p e)
    (he : e ∉ done) : e ∉ Dict.keys r := by
  intro hmem
  rcases ha.used e hmem with hd | ⟨q, hq, hwhy⟩
  · exact he hd
  · obtain rfl := ho.2.2 q (h.reaches_of_kid hq) hq
    rcases hwhy with hq | hq
    · exact ha.fresh hq
    · exact Nat.lt_irrefl _ hq

/-- When the record of an id is started, nothing that it dominates has a record. -/
theorem not_mem_of_dominates (ha : AtWork h p [] r) (hdom : h.dag.Dominates root.id p x)
    (hne : p ≠ x) : x ∉ Dict.keys r := by
  -- by induction on how far the id stands below its dominator, from user to user
  induction hm : h.dag.rank p - h.dag.rank x using Nat.strongRecOn generalizing x with
  | ind m ih =>
    intro hx
    rcases ha.used x hx with hd | ⟨q, hq, hwhy⟩
    · cases hd
    · have hdom' := hdom.user hne hq
      have hreach := hdom'.reaches (h.reaches_of_kid hq)
      have hle := hreach.2.rank_le
      have hlt := h.dag.rank_lt hq
      rcases hwhy with hmem | hrank
      · by_cases hpq : p = q
        · exact ha.fresh (hpq ▸ hmem)
        · exact ih (h.dag.rank p - h.dag.rank q) (by omega) hdom' hpq rfl hmem
      · omega

end AtWork
end Writer
end AgentGraph
