import Mathlib.Data.List.Nodup
import Mathlib.Data.List.Forall2
import Mathlib.Data.List.Perm.Basic
import AgentGraph.Dict
/-!
# Laws of ordered mappings

What is found under a key after each operation, and that putting keeps keys distinct.
-/
namespace AgentGraph

/-- Related items of which the same is made. -/
theorem map_eq_of_forall₂ {α β γ : Type} {S : α → β → Prop} {xs : List α} {ys : List β} {f : α → γ}
    {g : β → γ} (h : List.Forall₂ S xs ys) (hfg : ∀ x y, S x y → f x = g y) :
    xs.map f = ys.map g := by
  rw [← List.forall₂_eq_eq_eq, List.forall₂_map_left_iff, List.forall₂_map_right_iff]
  exact h.imp hfg

end AgentGraph

namespace AgentGraph.Dict
open List (Forall₂)
variable {α β : Type} {d e : Dict α} {k key : String} {v w : α}

@[simp] theorem keys_nil : keys ([] : Dict α) = [] := rfl

@[simp] theorem keys_cons (p : String × α) (d : Dict α) : keys (p :: d) = p.1 :: keys d := rfl

@[simp] theorem keys_append (d e : Dict α) : keys (d ++ e) = keys d ++ keys e := by
  simp [keys]

theorem mem_keys_of_mem (h : (k, v) ∈ d) : k ∈ d.keys := List.mem_map.mpr ⟨_, h, rfl⟩

theorem mem_of_get? (h : d.get? k = some v) : (k, v) ∈ d := by
  induction d with
  | nil => simp at h
  | cons p rest ih =>
    obtain ⟨key, u⟩ := p
    by_cases hk : key = k
    · simp only [get?, hk, if_true, Option.some.injEq] at h
      simp [hk, h]
    · simp only [get?, hk, if_false] at h
      exact List.mem_cons_of_mem _ (ih h)

theorem sizeOf_lt_of_mem [SizeOf α] (h : (k, v) ∈ d) : sizeOf v < sizeOf d := by
  have hlt := List.sizeOf_lt_of_mem h
  rw [Prod.mk.sizeOf_spec] at hlt
  omega

theorem get?_eq_none_iff : d.get? k = none ↔ k ∉ d.keys := by
  induction d with
  | nil => simp
  | cons p rest ih =>
    obtain ⟨key, u⟩ := p
    by_cases hk : key = k
    · simp [get?, hk]
    · simp [get?, hk, ih, Ne.symm hk]

theorem get?_ne_none_iff : d.get? k ≠ none ↔ k ∈ d.keys := by
  rw [Ne, get?_eq_none_iff, not_not]

theorem mem_keys_iff : k ∈ d.keys ↔ ∃ v, d.get? k = some v := by
  rw [← get?_ne_none_iff, Option.ne_none_iff_exists']

theorem has_iff : d.has k = true ↔ k ∈ d.keys := by
  simp [has, keys]

/-- A dictionary of no more than one entry is the one that is found in it. -/
theorem eq_singleton_of_get? (h : d.get? k = some v) (hlength : ¬ 1 < d.length) : d = [(k, v)] := by
  cases d with
  | nil => cases h
  | cons p rest =>
    obtain rfl : rest = [] := List.eq_nil_of_length_eq_zero (by simpa using hlength)
    obtain ⟨key, u⟩ := p
    rw [get?] at h
    split at h
    · rename_i hkey
      rw [hkey, Option.some.inj h]
    · cases h

theorem get?_of_mem (h : d.keys.Nodup) (hm : (k, v) ∈ d) : d.get? k = some v := by
  induction d with
  | nil => simp at hm
  | cons p rest ih =>
    obtain ⟨key, u⟩ := p
    simp only [keys_cons, List.nodup_cons] at h
    rcases List.mem_cons.mp hm with heq | hm
    · obtain ⟨rfl, rfl⟩ := Prod.mk.inj heq
      simp [get?]
    · have hne : key ≠ k := fun hk => h.1 (hk ▸ mem_keys_of_mem hm)
      simp only [get?, hne, if_false]
      exact ih h.2 hm

theorem get?_put (d : Dict α) (key k : String) (v : α) :
    (d.put key v).get? k = if key = k then some v else d.get? k := by
  split
  · subst k
    exact get?_put_self d key v
  · exact get?_put_of_ne d v ‹_›

theorem mem_keys_put : k ∈ (d.put key v).keys ↔ k = key ∨ k ∈ d.keys := by
  rw [← get?_ne_none_iff, get?_put]
  split
  · simp [*]
  · rw [get?_ne_none_iff, or_iff_right (Ne.symm ‹_›)]

theorem forall_mem_put {P : String × α → Prop} (h : ∀ p ∈ d, P p) (hv : P (key, v)) :
    ∀ p ∈ d.put key v, P p := by
  induction d with
  | nil => exact List.forall_mem_singleton.mpr hv
  | cons p rest ih =>
    obtain ⟨hp, hrest⟩ := List.forall_mem_cons.mp h
    unfold put
    split
    · exact List.forall_mem_cons.mpr ⟨hv, hrest⟩
    · exact List.forall_mem_cons.mpr ⟨hp, ih hrest⟩

theorem forall_mem_merge {P : String × α → Prop} (hd : ∀ p ∈ d, P p) (he : ∀ p ∈ e, P p) :
    ∀ p ∈ merge d e, P p := by
  unfold merge
  induction e generalizing d with
  | nil => exact hd
  | cons p rest ih =>
    obtain ⟨hp, hrest⟩ := List.forall_mem_cons.mp he
    exact ih (forall_mem_put hd hp) hrest

theorem put_of_not_mem (h : key ∉ d.keys) (v : α) : d.put key v = d ++ [(key, v)] := by
  induction d with
  | nil => rfl
  | cons p rest ih =>
    obtain ⟨k, u⟩ := p
    simp only [keys_cons, List.mem_cons, not_or] at h
    simp [put, Ne.symm h.1, ih h.2]

theorem put_append (h : key ∉ d.keys) (v : α) : d.put key v ++ e = d ++ (key, v) :: e := by
  rw [put_of_not_mem h, List.append_assoc, List.singleton_append]

/-- Of keys that are all apart and come after those of a mapping, the first one is not there yet. -/
theorem next_not_mem {ks : List String} (h : (d.keys ++ k :: ks).Nodup) : k ∉ d.keys := fun hmem =>
  (List.nodup_append.mp h).2.2 k hmem k List.mem_cons_self rfl

/-- Once the first of the keys to come is put in, the others are still to come. -/
theorem nodup_put_next {ks : List String} (h : (d.keys ++ k :: ks).Nodup) (v : α) :
    (keys (d.put k v) ++ ks).Nodup := by
  rw [put_of_not_mem (next_not_mem h), keys_append, List.append_assoc]
  exact h

theorem keys_put_of_mem (h : key ∈ d.keys) (v : α) : (d.put key v).keys = d.keys := by
  induction d with
  | nil => simp at h
  | cons p rest ih =>
    obtain ⟨k, u⟩ := p
    by_cases hk : k = key
    · simp [put, hk]
    · simp only [keys_cons, List.mem_cons, Ne.symm hk, false_or] at h
      simp [put, hk, ih h]

theorem nodup_put (h : d.keys.Nodup) (key : String) (v : α) : (d.put key v).keys.Nodup := by
  by_cases hk : key ∈ d.keys
  · rw [keys_put_of_mem hk]
    exact h
  · rw [put_of_not_mem hk, keys_append, keys_cons, keys_nil]
    exact List.nodup_append.mpr ⟨h, List.nodup_singleton _, by
      rintro a ha b hb rfl
      obtain rfl : a = key := List.mem_singleton.mp hb
      exact hk ha⟩

theorem get?_mapValues (f : α → β) (d : Dict α) (k : String) :
    (d.mapValues f).get? k = (d.get? k).map f := by
  induction d with
  | nil => rfl
  | cons p rest ih =>
    have htail : mapValues f (p :: rest) = (p.1, f p.2) :: mapValues f rest := rfl
    by_cases hk : p.1 = k
    · simp [htail, get?, hk]
    · simp [htail, get?, hk, ih]

theorem exists_append_of_get? {ys : Dict β} {k : String} {w : β} (h : ys.get? k = some w) :
    ∃ as bs, ys = as ++ (k, w) :: bs ∧ ∀ j, j ≠ k → (as ++ bs).get? j = ys.get? j := by
  induction ys with
  | nil => simp at h
  | cons g rest ih =>
    obtain ⟨key, u⟩ := g
    by_cases hk : key = k
    · subst hk
      obtain rfl : u = w := by simpa [get?] using h
      refine ⟨[], rest, rfl, fun j hj => ?_⟩
      simp [get?, Ne.symm hj]
    · simp only [get?, hk, if_false] at h
      obtain ⟨as, bs, rfl, hget⟩ := ih h
      refine ⟨(key, u) :: as, bs, rfl, fun j hj => ?_⟩
      by_cases hj' : key = j
      · simp [get?, hj']
      · simpa [get?, hj'] using hget j hj

/-- A mapping each of whose keys is found in another one of the same length lines up with it. -/
theorem paired {R : α → β → Prop} {xs : Dict α} {ys : Dict β} (hx : xs.keys.Nodup)
    (hlen : xs.length = ys.length)
    (h : ∀ f ∈ xs, ∃ w, ys.get? f.1 = some w ∧ R f.2 w) :
    ∃ zs, zs.Perm ys ∧ Forall₂ (fun f g => f.1 = g.1 ∧ R f.2 g.2) xs zs := by
  induction xs generalizing ys with
  | nil =>
    obtain rfl : ys = [] := List.length_eq_zero_iff.mp hlen.symm
    exact ⟨[], .refl _, .nil⟩
  | cons f rest ih =>
    obtain ⟨⟨w, hw, hR⟩, h⟩ := List.forall_mem_cons.mp h
    simp only [keys_cons, List.nodup_cons] at hx
    obtain ⟨as, bs, rfl, hget⟩ := exists_append_of_get? hw
    have hrest : rest.length = (as ++ bs).length := by
      simp at hlen ⊢
      omega
    obtain ⟨zs, hperm, hzs⟩ := ih hx.2 hrest fun g hg => by
      obtain ⟨u, hu, hR⟩ := h g hg
      refine ⟨u, ?_, hR⟩
      rw [hget _ fun he => hx.1 (he ▸ mem_keys_of_mem hg)]
      exact hu
    exact ⟨(f.1, w) :: zs, (hperm.cons _).trans List.perm_middle.symm, .cons ⟨rfl, hR⟩ hzs⟩

/-- A mapping that finds each of its keys in another one of the same length is found in it. -/
theorem mirrored {R : α → β → Prop} {xs : Dict α} {ys : Dict β} (hx : xs.keys.Nodup)
    (hlen : xs.length = ys.length)
    (h : ∀ f ∈ xs, ∃ w, ys.get? f.1 = some w ∧ R f.2 w) :
    ∀ g ∈ ys, ∃ v, xs.get? g.1 = some v ∧ R v g.2 := by
  intro g hg
  obtain ⟨zs, hperm, hzs⟩ := paired hx hlen h
  obtain ⟨i, hi, rfl⟩ := List.getElem_of_mem (hperm.mem_iff.mpr hg)
  have hlt : i < xs.length := by rw [hzs.length_eq]; exact hi
  have hpair : xs[i].1 = zs[i].1 ∧ R xs[i].2 zs[i].2 := (List.forall₂_iff_get.mp hzs).2 i hlt hi
  rw [← hpair.1]
  exact ⟨xs[i].2, get?_of_mem hx (List.getElem_mem hlt), hpair.2⟩

/-- A mapping of the same length in which all distinct keys of another one are found has distinct keys. -/
theorem nodup_of_found {R : α → β → Prop} {xs : Dict α} {ys : Dict β} (hx : xs.keys.Nodup)
    (hlen : xs.length = ys.length)
    (h : ∀ f ∈ xs, ∃ w, ys.get? f.1 = some w ∧ R f.2 w) : ys.keys.Nodup := by
  obtain ⟨zs, hperm, hzs⟩ := paired hx hlen h
  have hkeys : keys xs = keys zs := map_eq_of_forall₂ hzs fun _ _ hpair => hpair.1
  rw [hkeys] at hx
  exact (hperm.map Prod.fst).nodup_iff.mp hx

theorem merge_of_disjoint (h : (d.keys ++ e.keys).Nodup) :
    merge d e = d ++ e := by
  unfold merge
  induction e generalizing d with
  | nil => simp
  | cons f rest ih =>
    rw [keys_cons] at h
    rw [List.foldl_cons, ih (nodup_put_next h f.2), put_append (next_not_mem h)]

/-- What is put in last is found first. -/
theorem get?_merge (he : e.keys.Nodup) : get? (merge d e) k = (get? e k).or (get? d k) := by
  unfold merge
  induction e generalizing d with
  | nil => simp
  | cons p rest ih =>
    obtain ⟨key, v⟩ := p
    rw [keys_cons, List.nodup_cons] at he
    rw [List.foldl_cons, ih he.2, get?_put, get?]
    split
    · rename_i hk
      rw [get?_eq_none_iff.mpr (hk ▸ he.1)]
      rfl
    · rfl

theorem get?_merge_of_none (h : get? e k = none) : get? (merge d e) k = get? d k := by
  unfold merge
  induction e generalizing d with
  | nil => rfl
  | cons p rest ih =>
    obtain ⟨key, v⟩ := p
    rw [get?] at h
    split at h
    · cases h
    · rename_i hk
      rw [List.foldl_cons, ih h, get?_put_of_ne _ _ hk]

theorem get?_append (d e : Dict α) (k : String) :
    get? (d ++ e) k = (get? d k).or (get? e k) := by
  induction d with
  | nil => rfl
  | cons p rest ih =>
    by_cases hk : p.1 = k
    · simp [get?, hk]
    · simp [get?, hk, ih]

/-- What is found among the entries whose keys pass a test. -/
theorem get?_filter (d : Dict α) (test : String → Bool) (key : String) :
    get? (d.filter fun f => test f.1) key = if test key then get? d key else none := by
  induction d with
  | nil => simp
  | cons f rest ih =>
    rw [List.filter_cons]
    by_cases hk : f.1 = key
    · subst hk
      split
      · simp [get?, *]
      · rw [ih]
        simp [*]
    · split <;> simp [get?, hk, ih]

section Related
variable {R : α → β → Prop} {xs : Dict α} {ys : Dict β}

/-! Two mappings with the same keys in the same order and related values. -/

theorem forall₂_filter (h : Forall₂ (fun f g => f.1 = g.1 ∧ R f.2 g.2) xs ys)
    (test : String → Bool) :
    Forall₂ (fun f g => f.1 = g.1 ∧ R f.2 g.2)
      (xs.filter fun f => test f.1) (ys.filter fun g => test g.1) := by
  induction h with
  | nil => exact .nil
  | @cons f g xs ys hfg _ ih =>
    rw [List.filter_cons, List.filter_cons, ← hfg.1]
    split
    · exact .cons hfg ih
    · exact ih

theorem forall₂_get? (h : Forall₂ (fun f g => f.1 = g.1 ∧ R f.2 g.2) xs ys) (k : String) :
    (xs.get? k = none ∧ ys.get? k = none) ∨
      ∃ a b, xs.get? k = some a ∧ ys.get? k = some b ∧ R a b := by
  induction h with
  | nil => exact .inl ⟨rfl, rfl⟩
  | @cons f g xs ys hfg _ ih =>
    rw [get?, get?, hfg.1]
    split
    · exact .inr ⟨f.2, g.2, rfl, rfl, hfg.2⟩
    · exact ih

theorem forall₂_put (h : Forall₂ (fun f g => f.1 = g.1 ∧ R f.2 g.2) xs ys) {a : α} {b : β}
    (k : String) (hab : R a b) :
    Forall₂ (fun f g => f.1 = g.1 ∧ R f.2 g.2) (xs.put k a) (ys.put k b) := by
  induction h with
  | nil => exact .cons ⟨rfl, hab⟩ .nil
  | @cons f g xs ys hfg hrest ih =>
    rw [put, put, hfg.1]
    split
    · exact .cons ⟨rfl, hab⟩ hrest
    · exact .cons ⟨rfl, hfg.2⟩ ih

end Related

end AgentGraph.Dict
