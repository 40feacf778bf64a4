import Mathlib.Tactic.ByContra
import AgentGraph.Save.Placement
/-!
# Dominators in a graph with sharing

The graph of the ids below a root has no cycles: a rank falls along every edge. A node may hold
another one at several positions. One node dominates another if every route from the start passes
it; the immediate dominator is the one that all others dominate. `Dag.Placed` says what the place
of a node ought to be, and `Dag.Placed.below` that every dominator sees the same place.
-/
namespace AgentGraph

/-- Nodes, the nodes they hold at each of their positions, and a rank that falls from holder to
held. -/
structure Dag where
  kids : String → List String
  rank : String → Nat
  rank_lt : ∀ {x y : String}, y ∈ kids x → rank y < rank x

namespace Dag
variable {G : Dag} {a b r w x y z : String} {i j : List String}

/-- The nodes met on the way from one node to another, both ends included. -/
inductive Route (G : Dag) : String → List String → String → Prop
  | here (x : String) : Route G x [x] x
  | step {x y z : String} {i : List String} : y ∈ G.kids x → Route G y i z →
      Route G x (x :: i) z

/-- There is a route, perhaps of no step. -/
def Reaches (G : Dag) (x y : String) : Prop := ∃ i, Route G x i y

theorem Route.start_mem (p : Route G x i y) : x ∈ i := by
  cases p <;> simp

theorem Route.end_mem (p : Route G x i y) : y ∈ i := by
  induction p with
  | here x => simp
  | step _ _ ih => exact List.mem_cons_of_mem _ ih

theorem Route.append (p : Route G x i w) (q : Route G w j y) :
    ∃ k, Route G x k y ∧ ∀ z, z ∈ k ↔ z ∈ i ∨ z ∈ j := by
  induction p with
  | here x =>
    refine ⟨j, q, fun z => ⟨.inr, ?_⟩⟩
    rintro (hz | hz)
    · obtain rfl := List.mem_singleton.mp hz
      exact q.start_mem
    · exact hz
  | @step x u _ i hu _ ih =>
    obtain ⟨k, hk, hm⟩ := ih q
    exact ⟨x :: k, .step hu hk, fun z => by simp only [List.mem_cons, hm, or_assoc]⟩

/-- A route can be cut at every node that it passes. -/
theorem Route.split (p : Route G x i y) (h : w ∈ i) :
    ∃ j k, Route G x j w ∧ Route G w k y ∧ (∀ z ∈ j, z ∈ i) ∧ ∀ z ∈ k, z ∈ i := by
  induction p with
  | here x =>
    obtain rfl := List.mem_singleton.mp h
    exact ⟨[w], [w], .here w, .here w, fun _ hz => hz, fun _ hz => hz⟩
  | @step x u y i hu p ih =>
    rcases List.mem_cons.mp h with rfl | h
    · refine ⟨[w], w :: i, .here w, .step hu p, fun z hz => ?_, fun _ hz => hz⟩
      obtain rfl := List.mem_singleton.mp hz
      exact List.mem_cons_self
    · obtain ⟨j, k, hj, hk, hji, hki⟩ := ih h
      refine ⟨x :: j, k, .step hu hj, hk, fun z hz => ?_,
        fun z hz => List.mem_cons_of_mem _ (hki z hz)⟩
      rcases List.mem_cons.mp hz with rfl | hz
      · exact List.mem_cons_self
      · exact List.mem_cons_of_mem _ (hji z hz)

theorem Route.rank_le (p : Route G x i y) : G.rank y ≤ G.rank x := by
  induction p with
  | here x => exact Nat.le_refl _
  | step hu _ ih => exact Nat.le_trans ih (Nat.le_of_lt (G.rank_lt hu))

theorem Route.eq_of_rank_le (p : Route G x i y) (h : G.rank x ≤ G.rank y) : x = y := by
  cases p with
  | here => rfl
  | step hu q =>
    have := q.rank_le
    have := G.rank_lt hu
    omega

theorem Reaches.refl (x : String) : G.Reaches x x := ⟨[x], .here x⟩

theorem Reaches.trans (h : G.Reaches x y) (k : G.Reaches y z) : G.Reaches x z := by
  obtain ⟨i, p⟩ := h
  obtain ⟨j, q⟩ := k
  obtain ⟨k, p, -⟩ := p.append q
  exact ⟨k, p⟩

theorem Reaches.step (h : y ∈ G.kids x) (k : G.Reaches y z) : G.Reaches x z := by
  obtain ⟨i, p⟩ := k
  exact ⟨x :: i, .step h p⟩

theorem Reaches.kid (h : y ∈ G.kids x) : G.Reaches x y := .step h (.refl y)

theorem Reaches.rank_le (h : G.Reaches x y) : G.rank y ≤ G.rank x := by
  obtain ⟨i, p⟩ := h
  exact p.rank_le

theorem Reaches.antisymm (h : G.Reaches x y) (k : G.Reaches y x) : x = y := by
  obtain ⟨i, p⟩ := h
  exact p.eq_of_rank_le k.rank_le

/-- What is reached is the start, or it is reached through one of the nodes that the start holds. -/
theorem reaches_iff : G.Reaches x y ↔ x = y ∨ ∃ w ∈ G.kids x, G.Reaches w y := by
  constructor
  · rintro ⟨i, p⟩
    cases p with
    | here => exact .inl rfl
    | step hw q => exact .inr ⟨_, hw, _, q⟩
  · rintro (rfl | ⟨w, hw, h⟩)
    · exact .refl x
    · exact .step hw h

/-- A node is below another one if it is reached by at least one step. -/
def Below (G : Dag) (x y : String) : Prop := ∃ w ∈ G.kids x, G.Reaches w y

theorem Below.reaches (h : G.Below x y) : G.Reaches x y := by
  obtain ⟨w, hw, h⟩ := h
  exact .step hw h

theorem Below.rank_lt (h : G.Below x y) : G.rank y < G.rank x := by
  obtain ⟨w, hw, h⟩ := h
  exact Nat.lt_of_le_of_lt h.rank_le (G.rank_lt hw)

theorem Below.ne (h : G.Below x y) : x ≠ y := by
  rintro rfl
  exact Nat.lt_irrefl _ h.rank_lt

theorem Reaches.below_of_ne (h : G.Reaches x y) (hne : x ≠ y) : G.Below x y :=
  (reaches_iff.mp h).resolve_left hne

theorem Reaches.trans_below (h : G.Reaches x y) (k : G.Below y z) : G.Below x z := by
  refine (h.trans k.reaches).below_of_ne ?_
  rintro rfl
  have := h.rank_le
  have := k.rank_lt
  omega

/-- The last step to a node that is below another one leaves a holder of it. -/
theorem Below.holder (h : G.Below x y) : ∃ w, G.Reaches x w ∧ y ∈ G.kids w := by
  obtain ⟨u, hu, i, p⟩ := h
  induction p generalizing x with
  | here y => exact ⟨x, .refl x, hu⟩
  | step hv _ ih =>
    obtain ⟨w, hw, hy⟩ := ih hv
    exact ⟨w, .step hu hw, hy⟩

/-- Every route from the start to a node passes the first one. -/
def Dominates (G : Dag) (r a x : String) : Prop := ∀ i, Route G r i x → a ∈ i

theorem dominates_start : G.Dominates r r x := fun _ p => p.start_mem

/-- The deepest node other than the node itself on every route to it: all other dominators
dominate it too. -/
structure ImmediateDominator (G : Dag) (r a x : String) : Prop where
  ne : a ≠ x
  dominates : G.Dominates r a x
  deepest : ∀ b, b ≠ x → G.Dominates r b x → G.Dominates r b a

theorem Dominates.reaches (h : G.Dominates r a x) (hx : G.Reaches r x) :
    G.Reaches r a ∧ G.Reaches a x := by
  obtain ⟨i, p⟩ := hx
  obtain ⟨j, k, hj, hk, -⟩ := p.split (h i p)
  exact ⟨⟨j, hj⟩, ⟨k, hk⟩⟩

theorem Dominates.antisymm (h : G.Dominates r a b) (k : G.Dominates r b a)
    (hb : G.Reaches r b) : a = b :=
  have ha := h.reaches hb
  ha.2.antisymm (k.reaches ha.1).2

theorem ImmediateDominator.unique (h : G.ImmediateDominator r a x)
    (k : G.ImmediateDominator r b x) (hx : G.Reaches r x) : a = b :=
  (k.deepest a h.ne h.dominates).antisymm (h.deepest b k.ne k.dominates)
    (k.dominates.reaches hx).1

/-- The node has one holder, which holds it once. -/
def OnlyUser (G : Dag) (r p x : String) : Prop :=
  G.Reaches r p ∧ (G.kids p).count x = 1 ∧ ∀ q, G.Reaches r q → x ∈ G.kids q → q = p

/-- The node is held at two positions, of one holder or of two. -/
def Shared (G : Dag) (r x : String) : Prop :=
  (∃ p, G.Reaches r p ∧ 2 ≤ (G.kids p).count x) ∨
    ∃ p q, p ≠ q ∧ G.Reaches r p ∧ G.Reaches r q ∧ x ∈ G.kids p ∧ x ∈ G.kids q

theorem OnlyUser.mem (h : G.OnlyUser r a x) : x ∈ G.kids a :=
  List.count_pos_iff.mp (by rw [h.2.1]; exact Nat.one_pos)

theorem OnlyUser.not_shared (h : G.OnlyUser r a x) : ¬ G.Shared r x := by
  obtain ⟨-, hone, honly⟩ := h
  rintro (⟨p, hp, htwo⟩ | ⟨p, q, hne, hp, hq, hxp, hxq⟩)
  · have hx : x ∈ G.kids p := List.count_pos_iff.mp (by omega)
    rw [honly p hp hx, hone] at htwo
    omega
  · exact hne ((honly p hp hxp).trans (honly q hq hxq).symm)

/-- A node below the start that is not shared has an only user. -/
theorem onlyUser_of_not_shared (h : G.Below r x) (hs : ¬ G.Shared r x) :
    ∃ p, G.OnlyUser r p x := by
  obtain ⟨p, hp, hx⟩ := h.holder
  refine ⟨p, hp, ?_, fun q hq hxq => ?_⟩
  · have hpos : 0 < (G.kids p).count x := List.count_pos_iff.mpr hx
    have hle : ¬ 2 ≤ (G.kids p).count x := fun hle => hs (.inl ⟨p, hp, hle⟩)
    omega
  · by_contra hne
    exact hs (.inr ⟨q, p, hne, hq, hp, hxq, hx⟩)

/-- What the place of a node in a table ought to be, seen from the start. -/
inductive Placed (G : Dag) (r x : String) : Placement → Prop
  | inline {p : String} : G.OnlyUser r p x → Placed G r x (.inline p)
  | referenced {a : String} : G.ImmediateDominator r a x → G.Shared r x →
      Placed G r x (.referenced a)

theorem Placed.unique {p q : Placement} (h : G.Placed r x p) (k : G.Placed r x q)
    (hx : G.Reaches r x) : p = q := by
  cases h with
  | inline h =>
    cases k with
    | inline k => rw [k.2.2 _ h.1 h.mem]
    | referenced _ k => exact absurd k h.not_shared
  | referenced h hs =>
    cases k with
    | inline k => exact absurd hs k.not_shared
    | referenced k _ => rw [h.unique k hx]

/-- All holders of a node are reached from every other dominator of the node. -/
theorem Dominates.holder (h : G.Dominates r b x) (hne : b ≠ x) (hp : G.Reaches r a)
    (hx : x ∈ G.kids a) : G.Reaches b a := by
  obtain ⟨i, p⟩ := hp
  obtain ⟨k, q, hm⟩ := p.append (.step hx (.here x))
  have hb : b ∈ i := by
    rcases (hm b).mp (h k q) with hb | hb
    · exact hb
    · simp only [List.mem_cons, List.not_mem_nil, or_false] at hb
      rcases hb with rfl | hb
      · exact p.end_mem
      · exact absurd hb hne
  obtain ⟨-, j, -, q, -⟩ := p.split hb
  exact ⟨j, q⟩

/-- Dominators stay dominators when the start moves down to another dominator. -/
theorem Dominates.below (h : G.Dominates r a x) (hb : G.Reaches r b) (hab : G.Dominates r b a) :
    G.Dominates b a x := by
  intro i p
  obtain ⟨j, q⟩ := hb
  obtain ⟨k, s, hm⟩ := q.append p
  rcases (hm a).mp (h k s) with ha | ha
  · -- on the way to `b`: `a` reaches `b` and `b` reaches `a`
    obtain ⟨j₁, j₂, hj₁, hj₂, -⟩ := q.split ha
    have := (hab.reaches ⟨j₁, hj₁⟩).2
    rw [Reaches.antisymm ⟨j₂, hj₂⟩ this]
    exact p.start_mem
  · exact ha

/-- Moving the start up to a node that reaches the old one through a dominator keeps dominators. -/
theorem Dominates.above (h : G.Dominates b a x) (hb : G.Dominates r b x) :
    G.Dominates r a x := by
  intro i p
  obtain ⟨-, k, -, q, -, hk⟩ := p.split (hb i p)
  exact hk a (h k q)

/-- A dominator of a node dominates whatever dominates the node below it. -/
theorem Dominates.chain (hb : G.Dominates r b x) (hx : G.Reaches b x) (ha : G.Dominates b a x) :
    G.Dominates r b a := by
  intro i p
  obtain ⟨hba, j, q⟩ := ha.reaches hx
  obtain ⟨k, s, hm⟩ := p.append q
  rcases (hm b).mp (hb k s) with h | h
  · exact h
  · -- past `a` the route comes back to `b`, so the two are one node
    obtain ⟨j₁, -, hj₁, -⟩ := q.split h
    rw [hba.antisymm ⟨j₁, hj₁⟩]
    exact p.end_mem

/-- The place of a node is the same from the start and from every dominator of the node. -/
theorem Placed.below {p : Placement} (h : G.Placed r x p) (hx : G.Reaches r x) (hne : b ≠ x)
    (hb : G.Dominates r b x) : G.Placed b x p := by
  obtain ⟨hrb, hbx⟩ := hb.reaches hx
  cases h with
  | inline h =>
    obtain ⟨hp, hone, honly⟩ := h
    have hmem : x ∈ G.kids _ := OnlyUser.mem ⟨hp, hone, honly⟩
    exact .inline ⟨hb.holder hne hp hmem, hone, fun q hq => honly q (hrb.trans hq)⟩
  | @referenced a h hs =>
    have hba := h.deepest b hne hb
    have hra := h.dominates.reaches hx
    refine .referenced ⟨h.ne, h.dominates.below hrb hba, fun e he hd => ?_⟩ ?_
    · have hea := h.deepest e he (hd.above hb)
      exact hea.below hrb (hb.chain hbx hd)
    · rcases hs with ⟨q, hq, htwo⟩ | ⟨q, s, hqs, hq, hs, hxq, hxs⟩
      · have hxq : x ∈ G.kids q := List.count_pos_iff.mp (by omega)
        exact .inl ⟨q, hb.holder hne hq hxq, htwo⟩
      · exact .inr ⟨q, s, hqs, hb.holder hne hq hxq, hb.holder hne hs hxs, hxq, hxs⟩

theorem immediateDominator_start (hne : x ≠ y) (h : ∀ b, b ≠ y → G.Dominates x b y → b = x) :
    G.ImmediateDominator x x y :=
  ⟨hne, dominates_start, fun b hb hd => h b hb hd ▸ dominates_start⟩

/-- Nothing stands between a node and one that it holds. -/
theorem Dominates.of_kid (h : G.Dominates x b y) (hy : y ∈ G.kids x) (hb : b ≠ y) : b = x := by
  have hroute := h _ (.step hy (.here y))
  simpa [hb] using hroute

theorem Below.of_kid (h : y ∈ G.kids x) (k : G.Below y z) : G.Below x z :=
  (Reaches.kid h).trans_below k

/-- Dominators of a node from above dominate it from below, unless they are the start. -/
theorem Dominates.of_start (h : G.Dominates x b y) (hi : a ∈ G.kids x) (hb : b ≠ x) :
    G.Dominates a b y := by
  intro i p
  exact (List.mem_cons.mp (h _ (.step hi p))).resolve_left hb

theorem Shared.of_kid (h : G.Shared a y) (ha : a ∈ G.kids x) : G.Shared x y := by
  have hup : ∀ {q}, G.Reaches a q → G.Reaches x q := fun hq => .step ha hq
  rcases h with ⟨q, hq, htwo⟩ | ⟨q, s, hne, hq, hs, hyq, hys⟩
  · exact .inl ⟨q, hup hq, htwo⟩
  · exact .inr ⟨q, s, hne, hup hq, hup hs, hyq, hys⟩

/-- A holder other than the start is reached from one of the nodes that the start holds. -/
theorem holder_below (hw : G.Reaches x w) (hne : x ≠ w) (hy : y ∈ G.kids w) :
    ∃ a ∈ G.kids x, G.Reaches a w ∧ G.Below a y := by
  obtain ⟨a, ha, haw⟩ := hw.below_of_ne hne
  exact ⟨a, ha, haw, haw.trans_below ⟨y, hy, .refl y⟩⟩

/-- A node that is held twice has its holder for anchor. -/
theorem Placed.of_twice (h : 2 ≤ (G.kids x).count y) : G.Placed x y (.referenced x) := by
  have hy : y ∈ G.kids x := List.count_pos_iff.mp (by omega)
  have hne : x ≠ y := Below.ne ⟨y, hy, .refl y⟩
  exact .referenced (immediateDominator_start hne fun b hb hd => hd.of_kid hy hb)
    (.inl ⟨x, .refl x, h⟩)

/-- A node that is held once, and stands further below too. -/
theorem Placed.of_once_above (hy : y ∈ G.kids x) (ha : a ∈ G.kids x) (h : G.Below a y) :
    G.Placed x y (.referenced x) := by
  have hne : x ≠ y := Below.ne ⟨y, hy, .refl y⟩
  obtain ⟨w, hw, hyw⟩ := h.holder
  have hxw : x ≠ w := Below.ne ⟨a, ha, hw⟩
  exact .referenced (immediateDominator_start hne fun b hb hd => hd.of_kid hy hb)
    (.inr ⟨x, w, hxw, .refl x, .step ha hw, hy, hyw⟩)

/-- A node that is held once and nowhere else. -/
theorem Placed.of_once (h : (G.kids x).count y = 1) (hno : ∀ a ∈ G.kids x, ¬ G.Below a y) :
    G.Placed x y (.inline x) := by
  refine .inline ⟨.refl x, h, fun q hq hy => ?_⟩
  by_contra hne
  obtain ⟨a, ha, -, hb⟩ := holder_below hq (Ne.symm hne) hy
  exact hno a ha hb

/-- Whatever stands on every route from each of the held nodes stands on every route from their holder. -/
theorem Dominates.of_kids (hne : x ≠ z)
    (h : ∀ a ∈ G.kids x, G.Reaches a z → G.Dominates a b z) : G.Dominates x b z := by
  intro i p
  cases p with
  | here => exact absurd rfl hne
  | @step _ a _ i ha p => exact List.mem_cons_of_mem _ (h a ha ⟨i, p⟩ i p)

theorem OnlyUser.of_kids {p : String} (hno : y ∉ G.kids x) (hb : G.Below x y)
    (h : ∀ a ∈ G.kids x, G.Below a y → G.OnlyUser a p y) : G.OnlyUser x p y := by
  have hvia : ∀ {w}, G.Reaches x w → y ∈ G.kids w → ∃ a ∈ G.kids x, G.Reaches a w ∧ G.Below a y :=
    fun hw hy => holder_below hw (by rintro rfl; exact hno hy) hy
  obtain ⟨w, hw, hyw⟩ := hb.holder
  obtain ⟨c, hc, -, hcy⟩ := hvia hw hyw
  obtain ⟨hp, hone, -⟩ := h c hc hcy
  refine ⟨.step hc hp, hone, fun s hs hys => ?_⟩
  obtain ⟨a, ha, has, hay⟩ := hvia hs hys
  exact (h a ha hay).2.2 s has hys

theorem ImmediateDominator.of_kids {q : String} (hno : y ∉ G.kids x) (ha : a ∈ G.kids x)
    (hay : G.Below a y) (h : ∀ a ∈ G.kids x, G.Below a y → G.ImmediateDominator a q y) :
    G.ImmediateDominator x q y := by
  have hq := h a ha hay
  obtain ⟨haq, hqy⟩ := hq.dominates.reaches hay.reaches
  have hxy : x ≠ y := (Below.of_kid ha hay).ne
  have hxq : x ≠ q := Below.ne ⟨a, ha, haq⟩
  refine ⟨hq.ne, .of_kids hxy fun e he hey => ?_, fun b hby hd => ?_⟩
  · have hbelow : G.Below e y := hey.below_of_ne (by rintro rfl; exact hno he)
    exact (h e he hbelow).dominates
  · by_cases hbx : b = x
    · subst hbx
      exact dominates_start
    · refine .of_kids hxq fun e he heq => ?_
      have hbelow : G.Below e y := heq.trans_below (hqy.below_of_ne hq.ne)
      exact (h e he hbelow).deepest b hby (hd.of_start he hbx)

/-- What all the held nodes say of a node further below is so. -/
theorem Placed.of_agree {p : Placement} (hno : y ∉ G.kids x) (hb : G.Below x y)
    (h : ∀ a ∈ G.kids x, G.Below a y → G.Placed a y p) : G.Placed x y p := by
  cases p with
  | inline q =>
    refine .inline (.of_kids hno hb fun a ha hay => ?_)
    cases h a ha hay with
    | inline honly => exact honly
  | referenced q =>
    have hdom : ∀ a ∈ G.kids x, G.Below a y → G.ImmediateDominator a q y ∧ G.Shared a y :=
      fun a ha hay => by
        cases h a ha hay with
        | referenced hd hs => exact ⟨hd, hs⟩
    obtain ⟨w, hw, hyw⟩ := hb.holder
    obtain ⟨c, hc, -, hcy⟩ := holder_below hw (by rintro rfl; exact hno hyw) hyw
    exact .referenced (.of_kids hno hc hcy fun a ha hay => (hdom a ha hay).1)
      ((hdom c hc hcy).2.of_kid hc)

/-- A node on whose place two held nodes disagree has their holder for anchor. -/
theorem Placed.of_differ {p q : Placement} (ha : a ∈ G.kids x) (hb : b ∈ G.kids x)
    (hay : G.Below a y) (hby : G.Below b y) (hp : G.Placed a y p)
    (hq : G.Placed b y q) (hne : p ≠ q) : G.Placed x y (.referenced x) := by
  have hxy := (Below.of_kid ha hay).ne
  refine .referenced (immediateDominator_start hxy fun e he hd => ?_) ?_
  · -- a dominator further down would see the same place from both
    by_contra hex
    have hae := hp.below hay.reaches he (hd.of_start ha hex)
    have hbe := hq.below hby.reaches he (hd.of_start hb hex)
    have hey := ((hd.of_start ha hex).reaches hay.reaches).2
    exact hne (hae.unique hbe hey)
  · by_contra hs
    obtain ⟨o, ho⟩ := onlyUser_of_not_shared (Below.of_kid ha hay) hs
    have hinline : ∀ {c u}, c ∈ G.kids x → G.Below c y → G.Placed c y u → u = .inline o := by
      intro c u hc hcy hu
      cases hu with
      | inline hu => rw [ho.2.2 _ (.step hc hu.1) hu.mem]
      | referenced _ hsh => exact absurd (hsh.of_kid hc) hs
    exact hne ((hinline ha hay hp).trans (hinline hb hby hq).symm)

end Dag
end AgentGraph
