import AgentGraph.Proofs.Run
import AgentGraph.Proofs.Placement.Merge
import AgentGraph.Proofs.Sidecar.Aliases
/-!
# Surveys of graphs of any shape

Nothing is asked here of the plugins or of the ids of a graph. A survey then still knows only components
of the graph, and every place that it gives is borne out by uses: an id that is placed with an anchor is
used more than once. It fails for a plugin, for two components of one id that differ, or at the limit.
-/
namespace AgentGraph

namespace Writer
section
variable (w : Writer)

/-- The fields of a component that are written; none if the component is refused. -/
def writtenFields (c : Component) : Dict Value := (w.visibleFields c).toOption.getD []

/-- The components that stand in what is written of a component. -/
def writtenChildren (c : Component) : List Component := heldComponents (w.writtenFields c)

variable (S : Component → Prop)

/-- A set of components that is closed under what is written of its members. -/
def Closed : Prop := ∀ c, S c → ∀ d ∈ w.writtenChildren c, S d

/-- Failures that are possible in a save of components of a set. -/
structure MayFail (F : SaveError → Prop) : Prop where
  depth : ∀ maxDepth, F (.depthExceeded maxDepth)
  refused : ∀ c e, S c → w.visibleFields c = .error e → F e
  conflict : ∀ c d, S c → S d → d.id = c.id → d.isSameObject c = false → d.same c = false →
    F (.conflictingId c.id)

/-- An id stands in what is written of a component with another id. -/
def UsedBy (user id : String) : Prop :=
  ∃ c, S c ∧ c.id = user ∧ id ∈ (w.writtenChildren c).map (·.id)

/-- An id has more than one use: two in one component, or one in each of two. -/
def Shared (id : String) : Prop :=
  (∃ c, S c ∧ 2 ≤ ((w.writtenChildren c).map (·.id)).count id) ∨
    ∃ a b, a ≠ b ∧ w.UsedBy S a id ∧ w.UsedBy S b id

/-- The place of an id is borne out by its uses. -/
def Warranted (entry : String × Placement) : Prop :=
  match entry.2 with
  | .inline user => w.UsedBy S user entry.1
  | .referenced _ => w.Shared S entry.1

end

/-- A survey that knows only components of a set, with the fields that are written of them, and places
them where they are used. -/
structure Within (w : Writer) (S : Component → Prop) (s : Survey) : Prop where
  found : ∀ x c fields, s.found.get? x = some (c, fields) →
    c.id = x ∧ S c ∧ fields = w.writtenFields c
  tables : ∀ x table, s.tables.get? x = some table → ∀ entry ∈ table, w.Warranted S entry

variable {w : Writer} {S : Component → Prop} {F : SaveError → Prop} {c : Component} {here : String}
  {places below : PlacementTable} {s : Survey}

theorem writtenFields_ok {fields : Dict Value} (h : w.visibleFields c = .ok fields) :
    w.writtenFields c = fields := by
  rw [writtenFields, h]
  rfl

theorem within_empty : w.Within S .empty where
  found x c fields h := by simp [Survey.empty] at h
  tables x table h := by simp [Survey.empty] at h

theorem Within.component? (h : w.Within S s) {id : String} (hc : s.component? id = some c) :
    S c := by
  obtain ⟨⟨d, fields⟩, hd, rfl⟩ := Option.map_eq_some_iff.mp hc
  exact (h.found _ _ _ hd).2.1

theorem Within.fields? (h : w.Within S s) {id : String} {fields : Dict Value}
    (hf : s.fields? id = some fields) : ∃ d, d.id = id ∧ S d ∧ fields = w.writtenFields d := by
  obtain ⟨⟨d, fields⟩, hd, rfl⟩ := Option.map_eq_some_iff.mp hf
  exact ⟨d, h.found _ _ _ hd⟩

theorem Within.table (h : w.Within S s) (id : String) :
    ∀ entry ∈ s.table id, w.Warranted S entry := by
  unfold Survey.table
  cases ht : s.tables.get? id with
  | none => exact fun _ hentry => nomatch hentry
  | some table => exact h.tables id table ht

theorem warranted_ofChildren (hc : S c) :
    ∀ entry ∈ PlacementTable.ofChildren c.id (w.writtenChildren c), w.Warranted S entry := by
  rintro ⟨x, place⟩ hentry
  obtain ⟨hnodup, hspec⟩ := PlacementTable.ofChildren_spec c.id (w.writtenChildren c)
  have hown := (hspec x).symm.trans (Dict.get?_of_mem hnodup hentry)
  generalize hcount : ((w.writtenChildren c).map (·.id)).count x = n at hown
  match n, hown with
  | 1, hown =>
    obtain rfl := Option.some.inj hown
    have hone : 0 < ((w.writtenChildren c).map (·.id)).count x := by omega
    exact ⟨c, hc, rfl, List.count_pos_iff.mp hone⟩
  | n + 2, hown =>
    obtain rfl := Option.some.inj hown
    have htwo : 2 ≤ ((w.writtenChildren c).map (·.id)).count x := by omega
    exact .inl ⟨c, hc, htwo⟩

/-- Where two places of an id differ, it has two uses. -/
theorem shared_of_ne {x : String} {p q : Placement} (hp : w.Warranted S (x, p))
    (hq : w.Warranted S (x, q)) (hne : p ≠ q) : w.Shared S x := by
  cases p with
  | referenced anchor => exact hp
  | inline a =>
    cases q with
    | referenced anchor => exact hq
    | inline b => exact .inr ⟨a, b, fun hab => hne (congrArg _ hab), hp, hq⟩

theorem warranted_mergeEntry {entry : String × Placement}
    (hplaces : ∀ e ∈ places, w.Warranted S e) (hentry : w.Warranted S entry) :
    ∀ e ∈ PlacementTable.mergeEntry here places entry, w.Warranted S e := by
  unfold PlacementTable.mergeEntry
  split
  · exact Dict.forall_mem_put hplaces hentry
  · rename_i existing hget
    have hexisting := hplaces _ (Dict.mem_of_get? hget)
    split
    · exact hplaces
    · rename_i hne
      exact Dict.forall_mem_put hplaces (shared_of_ne hexisting hentry hne)

theorem warranted_mergeChild (hplaces : ∀ e ∈ places, w.Warranted S e)
    (hbelow : ∀ e ∈ below, w.Warranted S e) :
    ∀ e ∈ PlacementTable.mergeChild here places below, w.Warranted S e := by
  unfold PlacementTable.mergeChild
  induction below generalizing places with
  | nil => exact hplaces
  | cons entry rest ih =>
    obtain ⟨hentry, hrest⟩ := List.forall_mem_cons.mp hbelow
    exact ih (warranted_mergeEntry hplaces hentry) hrest

section
variable (hclosed : w.Closed S) (hfail : w.MayFail S F)

include hfail in
theorem preserves_checkIdentity (hc : S c) :
    Preserves (w.Within S) F (checkIdentity c) fun _ => True := by
  refine Ends.get fun s hs => ?_
  cases hd : s.component? c.id with
  | none =>
    refine Ends.pure ?_
    rintro _ rfl
    exact ⟨trivial, hs⟩
  | some d =>
    simp only
    split
    · rename_i hconflict
      simp only [Bool.and_eq_true, Bool.not_eq_true'] at hconflict
      obtain ⟨⟨d', fields⟩, hfound, rfl⟩ := Option.map_eq_some_iff.mp hd
      obtain ⟨hid, hd', -⟩ := hs.found _ _ _ hfound
      exact Ends.throw (hfail.conflict c d' hc hd' hid hconflict.1 hconflict.2)
    · refine Ends.pure ?_
      rintro _ rfl
      exact ⟨trivial, hs⟩

include hfail in
theorem preserves_noteFields (hc : S c) : Preserves (w.Within S) F (w.noteFields c) fun fields =>
    ∃ d, d.id = c.id ∧ S d ∧ fields = w.writtenFields d := by
  refine Ends.get fun s hs => ?_
  cases hf : s.fields? c.id with
  | some fields =>
    refine Ends.pure ?_
    rintro _ rfl
    exact ⟨hs.fields? hf, hs⟩
  | none =>
    refine Ends.lift (fun e he => hfail.refused c e hc he) fun fields hfields => ?_
    have hwritten := writtenFields_ok hfields
    refine Ends.modify (J := w.Within S) ?_ (Preserves.pure ⟨c, rfl, hc, hwritten.symm⟩)
    rintro _ rfl
    refine ⟨fun x d fields' hx => ?_, hs.tables⟩
    rw [Dict.get?_put] at hx
    split at hx
    · cases hx
      exact ⟨‹_›, hc, hwritten.symm⟩
    · exact hs.found x d fields' hx

theorem preserves_mergeChildren {tableOf : Component → SurveyM PlacementTable} {cs : List Component}
    (htableOf : ∀ c ∈ cs,
      Preserves (w.Within S) F (tableOf c) fun table => ∀ e ∈ table, w.Warranted S e)
    (hplaces : ∀ e ∈ places, w.Warranted S e) :
    Preserves (w.Within S) F (mergeChildren here tableOf cs places) fun table =>
      ∀ e ∈ table, w.Warranted S e := by
  induction cs generalizing places with
  | nil => exact .pure hplaces
  | cons c rest ih =>
    obtain ⟨hc, hrest⟩ := List.forall_mem_cons.mp htableOf
    exact hc.bind fun below hbelow => ih hrest (warranted_mergeChild hplaces hbelow)

include hclosed hfail in
theorem preserves_survey (room : Nat) (hc : S c) :
    Preserves (w.Within S) F (w.survey room c) fun table => ∀ e ∈ table, w.Warranted S e := by
  induction room generalizing c with
  | zero => exact Ends.throw (hfail.depth _)
  | succ room ih =>
    refine (preserves_checkIdentity hfail hc).bind fun _ _ => Ends.get fun s hs => ?_
    cases htable : s.tables.get? c.id with
    | some table =>
      refine Ends.pure ?_
      rintro _ rfl
      exact ⟨hs.tables _ _ htable, hs⟩
    | none =>
      refine Ends.strengthen (I := w.Within S) ?_ (by rintro _ rfl; exact hs)
      refine (preserves_noteFields hfail hc).bind fun fields hfields => ?_
      obtain ⟨d, hid, hd, rfl⟩ := hfields
      have hkids : ∀ e ∈ firstOfEachId [] (w.writtenChildren d), S e :=
        fun e he => hclosed d hd e (mem_firstOfEachId he).1
      have hown := warranted_ofChildren (w := w) hd
      rw [hid] at hown
      refine (preserves_mergeChildren (fun e he => ih (hkids e he)) hown).bind fun table hmerged => ?_
      refine Ends.modify (J := w.Within S) (fun t ht => ⟨ht.found, fun x table' hx => ?_⟩)
        (Preserves.pure hmerged)
      rw [Dict.get?_put] at hx
      split at hx
      · exact Option.some.inj hx ▸ hmerged
      · exact ht.tables x table' hx

end

/-- A reference into the sidecar names an id that was listed or has more than one use, or it is an
alias. -/
theorem gives_aliases (hs : w.Within S s) {root : String} {listed : List (String × Option String)}
    (hforced : ∀ e, s.force root listed [] = .error e → F e) :
    Gives F (s.aliases root listed) fun aliases => ∀ entry ∈ aliases, w.Shared S entry.2 ∨
      ∃ id alias?, (id, alias?) ∈ listed ∧ entry.2 = alias?.getD id := by
  unfold Survey.aliases
  cases hforce : s.force root listed [] with
  | error e => exact .error (hforced e hforce)
  | ok forced =>
    refine Gives.ok ?_
    rintro ⟨id, name⟩ hentry
    obtain ⟨hget, hnodup, -⟩ := Survey.force_ok hforce
    obtain ⟨hkeep, hpulled⟩ := Survey.pullAlong_all s (s.table root) (Dict.keys forced) forced
    rcases (hpulled id name).mp (Dict.get?_of_mem (hkeep (hnodup List.nodup_nil)) hentry) with
      hname | ⟨-, rfl, source, -, place, hplace, halong⟩
    · rw [hget, Dict.get?_nil, Option.or_none] at hname
      obtain ⟨alias?, hlisted, rfl⟩ := forcedName?_spec hname
      exact .inr ⟨id, alias?, hlisted, rfl⟩
    · have hwarranted := hs.table root _ hplace
      cases place with
      | inline user => cases halong
      | referenced anchor => exact .inl hwarranted

end Writer
end AgentGraph
