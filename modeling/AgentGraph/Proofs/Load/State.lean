import AgentGraph.Load
import AgentGraph.Proofs.Load.Bag
/-!
# What is known while a document is loaded

Under each key that was resolved stands the one component that an id is read back as, and with it all
that it holds. A key in progress names an id that lies above the record at hand. So a record can be
loaded without meeting itself, and what was resolved stays.
-/
namespace AgentGraph

namespace Writer
variable {w : Writer} {root c d L M : Component} {l : Layout} {r : Records} {x y z key : String}
  {listed : List (String × Option String)} {s t u : LoadState}

/-- A key stands for an id: it is the id itself or the name that references use. -/
def Names (l : Layout) (key x : String) : Prop := key = x ∨ l.reference? x = some key

/-- Where the aliases are told apart, a key stands for one id. -/
theorem Planned.names_inj {h : w.Regular root} (P : w.Planned h listed l)
    (hapart : AliasesApart (h.dag.Reaches root.id) listed) (hx : h.dag.Reaches root.id x)
    (hy : h.dag.Reaches root.id y) (hkx : Names l key x) (hky : Names l key y) : x = y := by
  have hself : ∀ {x y}, h.dag.Reaches root.id x → l.reference? y = some x → x = y := by
    intro x y hx hy
    have hname := P.reference_name hy
    rcases referenceName_spec listed y with hown | halias
    · exact hname.trans hown
    · exact absurd hx (hapart.apart _ halias x (by rw [hname]))
  rcases hkx with rfl | hkx
  · rcases hky with rfl | hky
    · rfl
    · exact hself hx hky
  · rcases hky with rfl | hky
    · exact (hself hy hkx).symm
    · exact hapart.name_inj hx hy ((P.reference_name hkx).symm.trans (P.reference_name hky))

/-- A component is read back with the texts and the metadata of one component and the kind of another,
for the components of which it holds some of their ids. -/
structure ReadFrom (w : Writer) (c d L : Component) : Prop where
  name : L.name = c.name
  description : L.description = c.description
  metadata : L.metadata = c.metadata
  kind : w.Returned (fun a a' => a'.id = a.id) d.kind L.kind

/-- A component stands for the components of an id: it is read from their record, it equals each of
them, if they are of builtin kinds, but for what is not shown, and its inputs and outputs can be read
again. -/
structure Restores (w : Writer) (root : Component) (x : String) (L : Component) : Prop where
  id : L.id = x
  origin : ∃ c d, Component.Reaches Component.children root c ∧
    Component.Reaches Component.children root d ∧ c.id = x ∧ d.id = x ∧ w.ReadFrom c d L
  same : ∀ e, Component.Reaches Component.children root e → e.kind.isBuiltin = true → e.id = x →
    L.same (e.hide w.shows) = true
  readable : ∀ p ∈ L.inputs ++ L.outputs, p.schema.Readable

/-- What an id is read back as: a component from elsewhere, or one that was loaded. -/
def meaning (given : String → Option Component) (s : LoadState) (x : String) : Option Component :=
  (given x).or (s.resolved? x)

/-- The component stands for an id, and it and all that it holds are what their ids are read back as. -/
structure Sound (w : Writer) (root : Component) (given : String → Option Component)
    (s : LoadState) (x : String) (L : Component) : Prop where
  restores : w.Restores root x L
  closed : ∀ d, Component.Reaches Component.children L d → meaning given s d.id = some d

section State
variable (G : w.FullGraph root) (l : Layout) (given : String → Option Component)

/-- Every resolved key stands for an id that is loaded here or given, with the component of the id. -/
def Resolved (Local : String → Prop) (s : LoadState) : Prop :=
  ∀ key L, Dict.get? s.resolution key = some (.resolved L) →
    ∃ x, Names l key x ∧ G.regular.dag.Reaches root.id x ∧ (Local x ∨ given x = some L) ∧
      w.Sound root given s x L

/-- Keys in progress stand for ids of at least a rank. -/
def Pending (n : Nat) (s : LoadState) : Prop :=
  ∀ key, Dict.get? s.resolution key = some .inProgress →
    ∃ x, Names l key x ∧ G.regular.dag.Reaches root.id x ∧ n ≤ G.regular.dag.rank x

/-- Keys that were not resolved before may be now, for ids below a rank; nothing else changed. -/
def Extends (n : Nat) (s t : LoadState) : Prop :=
  ∀ key, Dict.get? t.resolution key = Dict.get? s.resolution key ∨
    (∃ x, Names l key x ∧ G.regular.dag.Reaches root.id x ∧ G.regular.dag.rank x < n) ∧
    s.resolved? key = none ∧ ∃ L, Dict.get? t.resolution key = some (.resolved L)

end State

variable {G : w.FullGraph root} {given : String → Option Component} {Local : String → Prop}
  {n m : Nat}

theorem Extends.refl (n : Nat) (s : LoadState) : Extends G l n s s := fun _ => .inl rfl

theorem Extends.mono (h : Extends G l n s t) (hnm : n ≤ m) : Extends G l m s t := by
  intro key
  rcases h key with hkey | ⟨⟨x, hx, hr, hn⟩, hrest⟩
  · exact .inl hkey
  · exact .inr ⟨⟨x, hx, hr, Nat.lt_of_lt_of_le hn hnm⟩, hrest⟩

theorem Extends.resolved (h : Extends G l n s t) (hL : s.resolved? key = some L) :
    t.resolved? key = some L := by
  rcases h key with heq | ⟨-, hnone, -⟩
  · rw [LoadState.resolved?_eq_some, heq, ← LoadState.resolved?_eq_some, hL]
  · rw [hnone] at hL
    cases hL

theorem Extends.trans (h : Extends G l n s t) (k : Extends G l n t u) : Extends G l n s u := by
  intro key
  rcases k key with heq | ⟨hnames, hnone, L, hL⟩
  · rcases h key with heq' | ⟨hnames, hnone, L, hL⟩
    · exact .inl (heq.trans heq')
    · exact .inr ⟨hnames, hnone, L, by rw [heq, hL]⟩
  · refine .inr ⟨hnames, ?_, L, hL⟩
    cases hs : s.resolved? key with
    | none => rfl
    | some M =>
      rw [h.resolved hs] at hnone
      cases hnone

theorem Extends.pending (h : Extends G l n s t) (hs : Pending G l m s) : Pending G l m t := by
  intro key hkey
  rcases h key with heq | ⟨-, -, L, hL⟩
  · exact hs key (by rw [← heq, hkey])
  · rw [hkey] at hL
    cases hL

theorem Extends.meaning (h : Extends G l n s t) (hd : meaning given s x = some d) :
    meaning given t x = some d := by
  unfold Writer.meaning at hd ⊢
  cases hg : given x with
  | some e => rwa [hg] at hd
  | none =>
    rw [hg, Option.none_or] at hd
    rw [Option.none_or, h.resolved hd]

theorem Sound.extends (h : w.Sound root given s x L) (k : Extends G l n s t) : w.Sound root given t x L :=
  ⟨h.restores, fun d hd => k.meaning (h.closed d hd)⟩

/-- Equal resolutions are as good as each other. -/
theorem Sound.congr (h : w.Sound root given s x L) (hst : s.resolution = t.resolution) :
    w.Sound root given t x L := by
  have hmeaning : meaning given t = meaning given s := by
    funext x
    rw [meaning, meaning, LoadState.resolved?, LoadState.resolved?, hst]
  exact ⟨h.restores, fun d hd => hmeaning ▸ h.closed d hd⟩

/-- A record is loaded with the keys in progress above a rank, and resolves keys below another. -/
def watch (G : w.FullGraph root) (l : Layout) (given : String → Option Component)
    (Local : String → Prop) (above below : Nat) : Watch where
  inv s := Resolved G l given Local s ∧ Pending G l above s
  step := Extends G l below
  refl := Extends.refl below
  trans := Extends.trans

/-- A run within narrower bounds. -/
theorem runs_widen {α : Type} {m : LoadM α} {Q : LoadState → α → Prop} {above below a b : Nat}
    (h : (watch G l given Local a b).Runs s m Q) (ha : a ≤ above) (hb : b ≤ below) :
    (watch G l given Local above below).Runs s m Q := by
  rintro ⟨hresolved, hpending⟩
  have hpending' : Pending G l a s := fun key hkey => by
    obtain ⟨x, hx, hr, hn⟩ := hpending key hkey
    exact ⟨x, hx, hr, Nat.le_trans ha hn⟩
  have hm := h ⟨hresolved, hpending'⟩
  split at hm
  · obtain ⟨⟨hresolved', -⟩, hext, hQ⟩ := hm
    have hext' : Extends G l below s _ := Extends.mono hext hb
    exact ⟨⟨hresolved', hext'.pending hpending⟩, hext', hQ⟩
  · exact hm

/-- The state in which a key was resolved. -/
def noted (key : String) (L : Component) (s : LoadState) : LoadState :=
  { s with resolution := s.resolution.put key (.resolved L) }

theorem get?_noted (key other : String) (L : Component) (s : LoadState) :
    Dict.get? (noted key L s).resolution other =
      if key = other then some (.resolved L) else Dict.get? s.resolution other :=
  Dict.get?_put _ _ _ _

/-- To resolve a key anew, to what it was resolved to if it was, takes nothing away. -/
theorem meaning_noted (hold : ∀ M, s.resolved? key = some M → M = L)
    (hd : meaning given s x = some d) : meaning given (noted key L s) x = some d := by
  unfold meaning at hd ⊢
  cases hg : given x with
  | some e => rwa [hg] at hd
  | none =>
    rw [hg, Option.none_or] at hd
    rw [Option.none_or, LoadState.resolved?_eq_some, get?_noted]
    split
    · rename_i hkey
      rw [hold d (hkey ▸ hd)]
    · exact LoadState.resolved?_eq_some.mp hd

theorem Resolved.noted (h : Resolved G l given Local s) (hkey : Names l key x)
    (hx : G.regular.dag.Reaches root.id x) (hside : Local x ∨ given x = some L)
    (hold : ∀ M, s.resolved? key = some M → M = L)
    (hL : w.Sound root given (noted key L s) x L) :
    Resolved G l given Local (Writer.noted key L s) := by
  intro other M hM
  rw [get?_noted] at hM
  split at hM
  · rename_i hother
    cases hM
    exact ⟨x, hother ▸ hkey, hx, hside, hL⟩
  · obtain ⟨y, hy, hreach, hsides, hsound⟩ := h other M hM
    exact ⟨y, hy, hreach, hsides, hsound.restores,
      fun d hd => meaning_noted hold (hsound.closed d hd)⟩

theorem extends_noted (hkey : Names l key x) (hx : G.regular.dag.Reaches root.id x)
    (hn : G.regular.dag.rank x < n) (hold : ∀ M, s.resolved? key = some M → M = L) :
    Extends G l n s (noted key L s) := by
  intro other
  rw [get?_noted]
  by_cases hother : key = other
  · subst hother
    rw [if_pos rfl]
    cases hs : s.resolved? key with
    | none => exact .inr ⟨⟨x, hkey, hx, hn⟩, rfl, L, rfl⟩
    | some M =>
      obtain rfl := hold M hs
      exact .inl (LoadState.resolved?_eq_some.mp hs).symm
  · rw [if_neg hother]
    exact .inl rfl

/-- The state in which a key is in progress. -/
def begun (key : String) (s : LoadState) : LoadState :=
  { s with resolution := s.resolution.put key .inProgress }

theorem get?_begun (key other : String) (s : LoadState) :
    Dict.get? (begun key s).resolution other =
      if key = other then some .inProgress else Dict.get? s.resolution other :=
  Dict.get?_put _ _ _ _

/-- To begin with a key that was unknown leaves all that is known. -/
theorem resolved?_begun (hnone : Dict.get? s.resolution key = none) (other : String) :
    (begun key s).resolved? other = s.resolved? other := by
  rw [LoadState.resolved?, LoadState.resolved?, get?_begun]
  by_cases hother : key = other
  · rw [if_pos hother, ← hother, hnone]
  · rw [if_neg hother]

theorem Resolved.begun (h : Resolved G l given Local s)
    (hnone : Dict.get? s.resolution key = none) :
    Resolved G l given Local (Writer.begun key s) := by
  have hmeaning : meaning given (Writer.begun key s) = meaning given s := by
    funext z
    rw [meaning, meaning, resolved?_begun hnone]
  intro other L hL
  rw [get?_begun] at hL
  split at hL
  · cases hL
  · obtain ⟨y, hy, hreach, hside, hsound⟩ := h other L hL
    exact ⟨y, hy, hreach, hside, hsound.restores, hmeaning ▸ hsound.closed⟩

theorem Pending.begun (h : Pending G l (G.regular.dag.rank x + 1) s) (hkey : Names l key x)
    (hx : G.regular.dag.Reaches root.id x) :
    Pending G l (G.regular.dag.rank x) (Writer.begun key s) := by
  intro other hother
  rw [get?_begun] at hother
  split at hother
  · rename_i heq
    exact ⟨x, heq ▸ hkey, hx, Nat.le_refl _⟩
  · obtain ⟨y, hy, hreach, hle⟩ := h other hother
    exact ⟨y, hy, hreach, by omega⟩

/-- What was begun and then resolved is resolved, as is what was resolved meanwhile. -/
theorem extends_begun (h : Extends G l n (begun key s) t) (hkey : Names l key x)
    (hx : G.regular.dag.Reaches root.id x) (hn : G.regular.dag.rank x < n)
    (hnone : Dict.get? s.resolution key = none) (L : Component) :
    Extends G l n s (noted key L t) := by
  intro other
  rw [get?_noted]
  by_cases hother : key = other
  · subst hother
    refine .inr ⟨⟨x, hkey, hx, hn⟩, ?_, L, if_pos rfl⟩
    rw [LoadState.resolved?, hnone]
  · rw [if_neg hother]
    rcases h other with heq | ⟨hnames, hno, M, hM⟩
    · rw [heq, get?_begun, if_neg hother]
      exact .inl rfl
    · exact .inr ⟨hnames, by rw [← resolved?_begun hnone, hno], M, hM⟩

/-- An id is read back as one component only. -/
theorem Sound.unique (h : w.Sound root given s x L) (k : w.Sound root given s x M) : L = M := by
  have hL := h.closed L (.refl L)
  have hM := k.closed M (.refl M)
  rw [h.restores.id] at hL
  rw [k.restores.id, hL] at hM
  exact Option.some.inj hM

variable (P : w.Planned G.regular listed l)
  (hapart : AliasesApart (G.regular.dag.Reaches root.id) listed)
include P hapart

/-- What stands under a key of an id stands for the id. -/
theorem Resolved.sound (h : Resolved G l given Local s) (hkey : Names l key x)
    (hx : G.regular.dag.Reaches root.id x) (hL : s.resolved? key = some L) :
    (Local x ∨ given x = some L) ∧ w.Sound root given s x L := by
  obtain ⟨y, hy, hreach, hside, hsound⟩ := h key L (LoadState.resolved?_eq_some.mp hL)
  obtain rfl := P.names_inj hapart hreach hx hy hkey
  exact ⟨hside, hsound⟩

theorem Pending.not_inProgress (h : Pending G l n s) (hkey : Names l key x)
    (hx : G.regular.dag.Reaches root.id x) (hn : G.regular.dag.rank x < n) :
    Dict.get? s.resolution key ≠ some .inProgress := by
  intro hpending
  obtain ⟨y, hy, hreach, hle⟩ := h key hpending
  obtain rfl := P.names_inj hapart hreach hx hy hkey
  omega

/-- An id stays unknown while what lies below it is resolved. -/
theorem Extends.unresolved (h : Extends G l (G.regular.dag.rank x) s t)
    (hx : G.regular.dag.Reaches root.id x) (hnone : s.resolved? x = none) :
    t.resolved? x = none := by
  rcases h x with heq | ⟨⟨z, hz, hreach, hlt⟩, -⟩
  · rw [LoadState.resolved?, heq]
    exact hnone
  · obtain rfl := P.names_inj hapart hreach hx hz (.inl rfl)
    exact absurd hlt (Nat.lt_irrefl _)

/-- A key that was unknown is in progress while the record of its id is loaded, and then resolved. -/
theorem runs_through {load : LoadM Component} (hkey : Names l key x)
    (hx : G.regular.dag.Reaches root.id x) (hlocal : Local x)
    (hnone : Dict.get? s.resolution key = none)
    (hload : ∀ u, (watch G l given Local (G.regular.dag.rank x) (G.regular.dag.rank x + 1)).Runs u
      load fun t L => w.Sound root given t x L) :
    (watch G l given Local (G.regular.dag.rank x + 1) (G.regular.dag.rank x + 1)).Runs s
      (do
        setResolution key .inProgress
        let c ← load
        setResolution key (.resolved c)
        return c)
      fun t L => w.Sound root given t x L := by
  rintro ⟨hresolved, hpending⟩
  have hrun : (do
        setResolution key .inProgress
        let c ← load
        setResolution key (.resolved c)
        return c : LoadM Component) s =
      (load (begun key s)).bind fun p => .ok (p.1, noted key p.1 p.2) := rfl
  have hm := hload (begun key s) ⟨hresolved.begun hnone, hpending.begun hkey hx⟩
  rw [hrun]
  cases hl : load (begun key s) with
  | error e =>
    rw [hl] at hm
    exact hm
  | ok p =>
    obtain ⟨L, t⟩ := p
    rw [hl] at hm
    obtain ⟨⟨ht, -⟩, hext, hL⟩ := hm
    have hold : ∀ M, t.resolved? key = some M → M = L := fun M hM =>
      (ht.sound P hapart hkey hx hM).2.unique hL
    have hLnoted : w.Sound root given (noted key L t) x L :=
      ⟨hL.restores, fun d hd => meaning_noted hold (hL.closed d hd)⟩
    have hextends : Extends G l (G.regular.dag.rank x + 1) s (noted key L t) :=
      extends_begun hext hkey hx (Nat.lt_succ_self _) hnone L
    exact ⟨⟨ht.noted hkey hx (.inl hlocal) hold hLnoted, hextends.pending hpending⟩, hextends,
      hLnoted⟩

end Writer
end AgentGraph
