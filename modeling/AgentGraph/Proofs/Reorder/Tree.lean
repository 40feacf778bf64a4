import Mathlib.Algebra.GroupWithZero.Nat
import AgentGraph.Proofs.Depth.Tree
import AgentGraph.Proofs.Equality.Children
import AgentGraph.Proofs.Equality.Proper
import AgentGraph.Json.Printer
/-!
# Trees with their keys in another order

One tree is another with the keys of mappings, at any depth, in another order; lists stay in order. Under
each key the same is found, again up to order, so the trees are equal, nest equally deep, and take the
same room when they are written.
-/
namespace AgentGraph
open List (Forall₂)

/-- The items of one list are related one by one to those of the other, taken in another order. -/
def Shuffled {α β : Type} (R : α → β → Prop) (xs : List α) (ys : List β) : Prop :=
  ∃ zs, Forall₂ R xs zs ∧ zs.Perm ys

namespace Shuffled
variable {α β γ δ : Type} {R : α → β → Prop} {Q : γ → δ → Prop} {xs xs' : List α} {ys ys' : List β}

theorem of_forall₂ (h : Forall₂ R xs ys) : Shuffled R xs ys := ⟨ys, h, .refl ys⟩

theorem nil : Shuffled R [] [] := of_forall₂ .nil

theorem singleton {x : α} {y : β} (h : R x y) : Shuffled R [x] [y] := of_forall₂ (.cons h .nil)

theorem append (h : Shuffled R xs ys) (k : Shuffled R xs' ys') :
    Shuffled R (xs ++ xs') (ys ++ ys') := by
  obtain ⟨zs, hzs, hperm⟩ := h
  obtain ⟨zs', hzs', hperm'⟩ := k
  exact ⟨zs ++ zs', List.rel_append hzs hzs', hperm.append hperm'⟩

theorem length_eq (h : Shuffled R xs ys) : xs.length = ys.length := by
  obtain ⟨zs, hzs, hperm⟩ := h
  exact hzs.length_eq.trans hperm.length_eq

theorem mono {R' : α → β → Prop} (h : Shuffled R xs ys) (k : ∀ x ∈ xs, ∀ y, R x y → R' x y) :
    Shuffled R' xs ys := by
  obtain ⟨zs, hzs, hperm⟩ := h
  refine ⟨zs, ?_, hperm⟩
  exact ((List.forall₂_and_left (p := (· ∈ xs)) _ _).mpr ⟨fun _ => id, hzs⟩).imp
    fun x y hxy => k x hxy.1 y hxy.2

theorem exists_right (h : Shuffled R xs ys) {x : α} (hx : x ∈ xs) : ∃ y ∈ ys, R x y := by
  obtain ⟨zs, hzs, hperm⟩ := h
  obtain ⟨y, hy, hxy⟩ := exists_left hzs.flip hx
  exact ⟨y, hperm.mem_iff.mp hy, hxy⟩

theorem exists_left (h : Shuffled R xs ys) {y : β} (hy : y ∈ ys) : ∃ x ∈ xs, R x y := by
  obtain ⟨zs, hzs, hperm⟩ := h
  exact AgentGraph.exists_left hzs (hperm.mem_iff.mpr hy)

theorem map {f : α → γ} {g : β → δ} (h : Shuffled R xs ys)
    (hfg : ∀ x ∈ xs, ∀ y, R x y → Q (f x) (g y)) : Shuffled Q (xs.map f) (ys.map g) := by
  obtain ⟨zs, hzs, hperm⟩ := h.mono hfg
  exact ⟨zs.map g, List.forall₂_map_left_iff.mpr (List.forall₂_map_right_iff.mpr hzs), hperm.map g⟩

/-- What is made of each item alike makes two lists of which one is the other in another order. -/
theorem map_perm {f : α → γ} {g : β → γ} (h : Shuffled R xs ys)
    (hfg : ∀ x ∈ xs, ∀ y, R x y → f x = g y) : (xs.map f).Perm (ys.map g) := by
  obtain ⟨zs, hzs, hperm⟩ := h.map hfg
  rw [List.forall₂_eq_eq_eq] at hzs
  exact hzs ▸ hperm

theorem filter {p : α → Bool} {q : β → Bool} (h : Shuffled R xs ys)
    (hpq : ∀ x y, R x y → p x = q y) : Shuffled R (xs.filter p) (ys.filter q) := by
  obtain ⟨zs, hzs, hperm⟩ := h
  refine ⟨zs.filter q, ?_, hperm.filter q⟩
  clear hperm
  induction hzs with
  | nil => exact .nil
  | @cons x y xs ys hxy _ ih =>
    rw [List.filter_cons, List.filter_cons, hpq x y hxy]
    split
    · exact .cons hxy ih
    · exact ih

theorem flatMap {f : α → List γ} {g : β → List δ} (h : Shuffled R xs ys)
    (hfg : ∀ x ∈ xs, ∀ y, R x y → Shuffled Q (f x) (g y)) :
    Shuffled Q (xs.flatMap f) (ys.flatMap g) := by
  obtain ⟨zs, hzs, hperm⟩ := h.mono hfg
  have hboth : Shuffled Q (xs.flatMap f) (zs.flatMap g) := by
    clear hperm hfg h
    induction hzs with
    | nil => exact nil
    | cons hxy _ ih => exact hxy.append ih
  obtain ⟨us, hus, husperm⟩ := hboth
  exact ⟨us, hus, husperm.trans (hperm.flatMap_right g)⟩

/-- What was made of the items of the first list in order can be made of those of the second. -/
theorem made {ε : Type} {S : γ → ε → Prop} {P : α → γ → Prop} {P' : β → ε → Prop} {as : List γ}
    (h : Shuffled R xs ys) (has : Forall₂ P xs as)
    (k : ∀ x y a, R x y → P x a → ∃ b, P' y b ∧ S a b) :
    ∃ bs, Forall₂ P' ys bs ∧ Shuffled S as bs := by
  obtain ⟨zs, hzs, hperm⟩ := h
  have hmade : ∃ cs, Forall₂ P' zs cs ∧ Forall₂ S as cs := by
    clear hperm
    induction hzs generalizing as with
    | nil =>
      cases has
      exact ⟨[], .nil, .nil⟩
    | cons hxy _ ih =>
      obtain ⟨a, rest, hxa, hrest, rfl⟩ := List.forall₂_cons_left_iff.mp has
      obtain ⟨b, hyb, hab⟩ := k _ _ a hxy hxa
      obtain ⟨cs, hcs, hascs⟩ := ih hrest
      exact ⟨b :: cs, .cons hyb hcs, .cons hab hascs⟩
  obtain ⟨cs, hcs, hascs⟩ := hmade
  obtain ⟨bs, hbs, hbscs⟩ := List.perm_comp_forall₂ hperm.symm hcs
  exact ⟨bs, hbs, cs, hascs, hbscs.symm⟩

end Shuffled

namespace Dict
variable {α β γ δ : Type} {R : α → β → Prop} {Q : γ → δ → Prop} {d : Dict α} {e : Dict β}

/-- Two mappings have the same keys, in whichever order, with related values under them. -/
def Reordered (R : α → β → Prop) (d : Dict α) (e : Dict β) : Prop :=
  Shuffled (fun f g => f.1 = g.1 ∧ R f.2 g.2) d e

namespace Reordered

theorem keys_perm (h : Reordered R d e) : d.keys.Perm e.keys :=
  Shuffled.map_perm h fun _ _ _ hfg => hfg.1

theorem nodup (h : Reordered R d e) (hd : d.keys.Nodup) : e.keys.Nodup :=
  h.keys_perm.nodup_iff.mp hd

theorem has_eq (h : Reordered R d e) (key : String) : d.has key = e.has key := by
  rw [Bool.eq_iff_iff, has_iff, has_iff, h.keys_perm.mem_iff]

/-- Under each key related values are found. -/
theorem get? (h : Reordered R d e) (hd : d.keys.Nodup) (key : String) :
    Option.Rel R (d.get? key) (e.get? key) := by
  cases hget : d.get? key with
  | none =>
    have hnone : e.get? key = none :=
      get?_eq_none_iff.mpr fun hmem => get?_eq_none_iff.mp hget (h.keys_perm.mem_iff.mpr hmem)
    rw [hnone]
    exact .none
  | some v =>
    obtain ⟨⟨k, w⟩, hw, rfl, hvw⟩ := h.exists_right (mem_of_get? hget)
    rw [get?_of_mem (h.nodup hd) hw]
    exact .some hvw

/-- Each entry of the first mapping has a related one in the second. -/
theorem found (h : Reordered R d e) (hd : d.keys.Nodup) :
    ∀ f ∈ d, ∃ w, e.get? f.1 = some w ∧ R f.2 w := by
  intro f hf
  have hrel := h.get? hd f.1
  rw [get?_of_mem hd hf] at hrel
  generalize hget : Dict.get? e f.1 = found at hrel
  cases hrel with
  | some hvw => exact ⟨_, rfl, hvw⟩

theorem filter (h : Reordered R d e) (test : String → Bool) :
    Reordered R (d.filter fun f => test f.1) (e.filter fun f => test f.1) :=
  Shuffled.filter h fun _ _ hfg => by rw [hfg.1]

theorem mono {R' : α → β → Prop} (h : Reordered R d e)
    (k : ∀ f ∈ d, ∀ v, R f.2 v → R' f.2 v) : Reordered R' d e :=
  Shuffled.mono h fun f hf g hfg => ⟨hfg.1, k f hf g.2 hfg.2⟩

end Reordered
end Dict

namespace Tree

mutual
/-- The second tree is the first with the keys of mappings, at any depth, in another order. -/
inductive Reordered : Tree → Tree → Prop
  | scalar {t : Tree} : t.isContainer = false → Reordered t t
  | list {xs ys : List Tree} : ReorderedItems xs ys → Reordered (.list xs) (.list ys)
  | map {d d' e : List (String × Tree)} : ReorderedValues d d' → d'.Perm e →
      Reordered (.map d) (.map e)
/-- The trees of a list, in order, each with its keys in another order. -/
inductive ReorderedItems : List Tree → List Tree → Prop
  | nil : ReorderedItems [] []
  | cons {t u : Tree} {ts us : List Tree} : Reordered t u → ReorderedItems ts us →
      ReorderedItems (t :: ts) (u :: us)
/-- The values of a mapping, in order, each with its keys in another order. -/
inductive ReorderedValues : List (String × Tree) → List (String × Tree) → Prop
  | nil : ReorderedValues [] []
  | cons {key : String} {t u : Tree} {d e : List (String × Tree)} : Reordered t u →
      ReorderedValues d e → ReorderedValues ((key, t) :: d) ((key, u) :: e)
end

theorem reorderedItems_iff {ts us : List Tree} :
    ReorderedItems ts us ↔ Forall₂ Reordered ts us := by
  constructor
  · intro h
    induction ts generalizing us with
    | nil => cases h; exact .nil
    | cons t ts ih => cases h with | cons ht hts => exact .cons ht (ih hts)
  · intro h
    induction h with
    | nil => exact .nil
    | cons ht _ ih => exact .cons ht ih

theorem reorderedValues_iff {d e : Dict Tree} :
    ReorderedValues d e ↔ Forall₂ (fun f g => f.1 = g.1 ∧ Reordered f.2 g.2) d e := by
  constructor
  · intro h
    induction d generalizing e with
    | nil => cases h; exact .nil
    | cons f d ih => cases h with | cons ht hd => exact .cons ⟨rfl, ht⟩ (ih hd)
  · intro h
    induction h with
    | nil => exact .nil
    | @cons f g d e hfg _ ih =>
      obtain ⟨key, t⟩ := f
      obtain ⟨other, u⟩ := g
      obtain ⟨rfl, ht⟩ := hfg
      exact .cons ht ih

variable {t u : Tree} {ts us : List Tree} {d e : Dict Tree}

theorem reordered_list : Reordered (.list ts) u ↔ ∃ us, u = .list us ∧ Forall₂ Reordered ts us := by
  constructor
  · intro h
    cases h with
    | scalar hscalar => cases hscalar
    | list hts => exact ⟨_, rfl, reorderedItems_iff.mp hts⟩
  · rintro ⟨us, rfl, hts⟩
    exact .list (reorderedItems_iff.mpr hts)

theorem reordered_map :
    Reordered (.map d) u ↔ ∃ e, u = .map e ∧ Dict.Reordered Reordered d e := by
  constructor
  · intro h
    cases h with
    | scalar hscalar => cases hscalar
    | map hd hperm => exact ⟨_, rfl, _, reorderedValues_iff.mp hd, hperm⟩
  · rintro ⟨e, rfl, d', hd, hperm⟩
    exact .map (reorderedValues_iff.mpr hd) hperm

theorem reordered_scalar (h : t.isContainer = false) : Reordered t u ↔ u = t := by
  constructor
  · intro hreordered
    cases hreordered with
    | scalar _ => rfl
    | list _ => cases h
    | map _ _ => cases h
  · rintro rfl
    exact .scalar h

/-- To prove something of all trees it may be assumed of the items of lists and the values of
mappings. -/
@[elab_as_elim]
theorem induction_on {P : Tree → Prop} (t : Tree)
    (scalar : ∀ t, t.isContainer = false → P t)
    (list : ∀ ts, (∀ t ∈ ts, P t) → P (.list ts))
    (map : ∀ d : Dict Tree, (∀ f ∈ d, P f.2) → P (.map d)) : P t := by
  match t with
  | .null | .bool _ | .number _ | .string _ => exact scalar _ rfl
  | .list ts => exact list ts fun t ht => induction_on t scalar list map
  | .map d => exact map d fun f hf => induction_on f.2 scalar list map
termination_by sizeOf t
decreasing_by
  · have := List.sizeOf_lt_of_mem ht
    simp only [Tree.list.sizeOf_spec]
    omega
  · have := Dict.sizeOf_lt_of_mem hf
    simp only [Tree.map.sizeOf_spec]
    omega

theorem Proper.get? (h : (Tree.map d).Proper) {key : String} (ht : Dict.get? d key = some t) :
    t.Proper := (proper_map.mp h).2 _ (Dict.mem_of_get? ht)

namespace Reordered

theorem refl (t : Tree) : Reordered t t := by
  induction t using induction_on with
  | scalar t h => exact .scalar h
  | list ts ih => exact reordered_list.mpr ⟨ts, rfl, List.forall₂_same.mpr ih⟩
  | map d ih =>
    refine reordered_map.mpr ⟨d, rfl, .of_forall₂ (List.forall₂_same.mpr fun f hf => ?_)⟩
    exact ⟨rfl, ih f hf⟩

theorem of_perm (h : d.Perm e) : Reordered (.map d) (.map e) :=
  reordered_map.mpr ⟨e, rfl, d, List.forall₂_same.mpr fun f _ => ⟨rfl, refl f.2⟩, h⟩

theorem proper (h : Reordered t u) (ht : t.Proper) : u.Proper := by
  induction t using induction_on generalizing u with
  | scalar t hscalar =>
    rw [reordered_scalar hscalar] at h
    exact h ▸ ht
  | list ts ih =>
    obtain ⟨us, rfl, hts⟩ := reordered_list.mp h
    rw [proper_list] at ht ⊢
    intro v hv
    obtain ⟨t, hmem, htv⟩ := exists_left hts hv
    exact ih t hmem htv (ht t hmem)
  | map d ih =>
    obtain ⟨e, rfl, hd⟩ := reordered_map.mp h
    rw [proper_map] at ht ⊢
    refine ⟨hd.nodup ht.1, fun g hg => ?_⟩
    obtain ⟨f, hf, -, hfg⟩ := hd.exists_left hg
    exact ih f hf hfg (ht.2 f hf)

/-- Trees that differ only in the order of keys are equal. -/
theorem same (h : Reordered t u) (ht : t.Proper) : t.same u = true := by
  induction t using induction_on generalizing u with
  | scalar t hscalar =>
    rw [reordered_scalar hscalar] at h
    exact h ▸ ht.same_refl
  | list ts ih =>
    obtain ⟨us, rfl, hts⟩ := reordered_list.mp h
    rw [proper_list] at ht
    rw [Tree.same]
    clear h
    induction hts with
    | nil => rfl
    | cons htu _ ihts =>
      obtain ⟨ihhead, ihrest⟩ := List.forall_mem_cons.mp ih
      obtain ⟨hhead, hrest⟩ := List.forall_mem_cons.mp ht
      rw [sameList, ihhead htu hhead, ihts ihrest hrest]
      rfl
  | map d ih =>
    obtain ⟨e, rfl, hd⟩ := reordered_map.mp h
    rw [proper_map] at ht
    rw [Tree.same, Bool.and_eq_true, beq_iff_eq, sameEntries_iff]
    refine ⟨hd.length_eq, fun f hf => ?_⟩
    obtain ⟨w, hw, hfw⟩ := hd.found ht.1 f hf
    exact ⟨w, hw, ih f hf hfw (ht.2 f hf)⟩

theorem sameDict (h : Dict.Reordered Reordered d e) (hd : (Tree.map d).Proper) :
    Tree.sameDict d e = true := (reordered_map.mpr ⟨e, rfl, h⟩).same hd

theorem isNull_eq (h : Reordered t u) : t.isNull = u.isNull := by
  cases h <;> rfl

theorem depth_le (h : Reordered t u) {n : Nat} (hn : t.depth ≤ n) : u.depth ≤ n := by
  induction t using induction_on generalizing u n with
  | scalar t hscalar =>
    rw [reordered_scalar hscalar] at h
    exact h ▸ hn
  | list ts ih =>
    obtain ⟨us, rfl, hts⟩ := reordered_list.mp h
    rw [depth_list_le] at hn ⊢
    refine ⟨hn.1, fun v hv => ?_⟩
    obtain ⟨t, ht, htv⟩ := exists_left hts hv
    have hlt := hn.2 t ht
    have hle := ih t ht htv (Nat.le_sub_one_of_lt hlt)
    omega
  | map d ih =>
    obtain ⟨e, rfl, hd⟩ := reordered_map.mp h
    rw [depth_map_le] at hn ⊢
    refine ⟨hn.1, fun g hg => ?_⟩
    obtain ⟨f, hf, -, hfg⟩ := hd.exists_left hg
    have hlt := hn.2 f hf
    have hle := ih f hf hfg (Nat.le_sub_one_of_lt hlt)
    omega

/-- No order of the keys makes a tree exceed a limit of depth. -/
theorem exceeds_eq_false (h : Reordered t u) {limit : Nat} (ht : t.exceeds limit = false) :
    u.exceeds limit = false :=
  exceeds_eq_false_iff.mpr (h.depth_le (exceeds_eq_false_iff.mp ht))

end Reordered

theorem stripList_eq_map (ts : List Tree) : stripList ts = ts.map strip := by
  induction ts with
  | nil => rfl
  | cons t rest ih => rw [stripList, ih, List.map_cons]

theorem stripEntries_eq_map (d : Dict Tree) : stripEntries d =
    (d.filter fun f => !isReservedKey f.1).map fun f => (f.1, f.2.strip) := by
  induction d with
  | nil => rfl
  | cons f rest ih =>
    obtain ⟨key, t⟩ := f
    rw [stripEntries, ih, List.filter_cons]
    cases isReservedKey key <;> rfl

/-- Reserved keys are dropped wherever they stand. -/
theorem Reordered.strip (h : Reordered t u) : Reordered t.strip u.strip := by
  induction t using induction_on generalizing u with
  | scalar t hscalar =>
    rw [reordered_scalar hscalar] at h
    exact h ▸ .refl _
  | list ts ih =>
    obtain ⟨us, rfl, hts⟩ := reordered_list.mp h
    rw [Tree.strip, Tree.strip, stripList_eq_map, stripList_eq_map]
    refine reordered_list.mpr ⟨_, rfl, ?_⟩
    rw [List.forall₂_map_left_iff, List.forall₂_map_right_iff]
    exact ((List.forall₂_and_left (p := (· ∈ ts)) _ _).mpr ⟨fun _ => id, hts⟩).imp
      fun t u htu => ih t htu.1 htu.2
  | map d ih =>
    obtain ⟨e, rfl, hd⟩ := reordered_map.mp h
    rw [Tree.strip, Tree.strip, stripEntries_eq_map, stripEntries_eq_map]
    refine reordered_map.mpr ⟨_, rfl, ?_⟩
    refine Shuffled.map (hd.filter fun key => !isReservedKey key) fun f hf g hfg => ?_
    exact ⟨hfg.1, ih f (List.mem_of_mem_filter hf) hfg.2⟩

theorem Proper.strip (h : t.Proper) : t.strip.Proper := by
  induction t using induction_on with
  | scalar t hscalar =>
    cases t with
    | list _ => cases hscalar
    | map _ => cases hscalar
    | _ => exact h
  | list ts ih =>
    rw [Tree.strip, stripList_eq_map, proper_list, List.forall_mem_map]
    exact fun t ht => ih t ht (proper_list.mp h t ht)
  | map d ih =>
    rw [proper_map] at h
    rw [Tree.strip, proper_map]
    refine ⟨(keys_stripEntries d).nodup h.1, ?_⟩
    rw [stripEntries_eq_map, List.forall_mem_map]
    intro f hf
    have hmem := List.mem_of_mem_filter hf
    exact ih f hmem (h.2 f hmem)

/-- Under each key of a proper mapping and of a reordered one there is nothing, or there are trees of
which the same can be said. -/
theorem rel_get? (h : Dict.Reordered Reordered d e) (hd : (Tree.map d).Proper) (key : String) :
    Option.Rel (fun t u => sizeOf t < sizeOf (Tree.map d) ∧ t.Proper ∧ t.Reordered u)
      (Dict.get? d key) (Dict.get? e key) := by
  have hrel := h.get? (proper_map.mp hd).1 key
  cases hget : Dict.get? d key with
  | none =>
    rw [hget] at hrel
    generalize Dict.get? e key = found at hrel
    cases hrel
    exact .none
  | some t =>
    rw [hget] at hrel
    generalize Dict.get? e key = found at hrel
    cases hrel with
    | some htu =>
      have hsize := Dict.sizeOf_lt_of_mem (Dict.mem_of_get? hget)
      refine .some ⟨?_, hd.get? hget, htu⟩
      simp only [Tree.map.sizeOf_spec]
      omega

end Tree

namespace Json
variable {t u : Tree}

/-- The room that texts take with a separator between them, and one more. -/
theorem utf8ByteSize_intercalate (separator : String) {texts : List String} (h : texts ≠ []) :
    (separator.intercalate texts).utf8ByteSize + separator.utf8ByteSize =
      ((texts.map String.utf8ByteSize).map (· + separator.utf8ByteSize)).sum := by
  induction texts with
  | nil => exact absurd rfl h
  | cons text rest ih =>
    cases rest with
    | nil => simp
    | cons other rest =>
      rw [String.intercalate_cons_cons, String.utf8ByteSize_append, String.utf8ByteSize_append,
        List.map_cons, List.map_cons, List.sum_cons, ← ih (List.cons_ne_nil _ _)]
      omega

/-- Texts of the same sizes, in whichever order, take the same room together. -/
theorem utf8ByteSize_intercalate_perm (separator : String) {texts others : List String}
    (h : (texts.map String.utf8ByteSize).Perm (others.map String.utf8ByteSize)) :
    (separator.intercalate texts).utf8ByteSize = (separator.intercalate others).utf8ByteSize := by
  have hnil : texts = [] ↔ others = [] := by
    have hlength := h.length_eq
    rw [List.length_map, List.length_map] at hlength
    rw [← List.length_eq_zero_iff, ← List.length_eq_zero_iff, hlength]
  by_cases hempty : texts = []
  · rw [hempty, hnil.mp hempty]
  · have hother : others ≠ [] := fun heq => hempty (hnil.mpr heq)
    have hsum := (h.map (· + separator.utf8ByteSize)).sum_nat
    rw [← utf8ByteSize_intercalate separator hempty, ← utf8ByteSize_intercalate separator hother]
      at hsum
    omega

theorem compactList_eq_map (ts : List Tree) : compactList ts = ts.map compact := by
  induction ts with
  | nil => rfl
  | cons t rest ih => rw [compactList, ih, List.map_cons]

theorem compactEntries_eq_map (d : Dict Tree) :
    compactEntries d = d.map fun f => string f.1 ++ ":" ++ compact f.2 := by
  induction d with
  | nil => rfl
  | cons f rest ih =>
    obtain ⟨key, t⟩ := f
    rw [compactEntries, ih, List.map_cons]

/-- The size of an encoded tree does not depend on the order of keys. -/
theorem encodedSize_eq (h : t.Reordered u) : encodedSize t = encodedSize u := by
  unfold encodedSize
  induction t using Tree.induction_on generalizing u with
  | scalar t hscalar =>
    rw [Tree.reordered_scalar hscalar] at h
    rw [h]
  | list ts ih =>
    obtain ⟨us, rfl, hts⟩ := Tree.reordered_list.mp h
    have hsizes : Shuffled (fun t u => (compact t).utf8ByteSize = (compact u).utf8ByteSize) ts us :=
      (Shuffled.of_forall₂ hts).mono fun t ht _ htu => ih t ht htu
    simp only [compact, String.utf8ByteSize_append, compactList_eq_map]
    rw [utf8ByteSize_intercalate_perm]
    rw [List.map_map, List.map_map]
    exact hsizes.map_perm fun _ _ _ htu => htu
  | map d ih =>
    obtain ⟨e, rfl, hd⟩ := Tree.reordered_map.mp h
    simp only [compact, String.utf8ByteSize_append, compactEntries_eq_map]
    rw [utf8ByteSize_intercalate_perm]
    rw [List.map_map, List.map_map]
    refine Shuffled.map_perm hd fun f hf g hfg => ?_
    simp only [Function.comp_apply, String.utf8ByteSize_append, hfg.1, ih f hf hfg.2]

end Json
end AgentGraph
