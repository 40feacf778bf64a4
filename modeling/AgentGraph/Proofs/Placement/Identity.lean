import AgentGraph.Proofs.Equality.Keyed
import AgentGraph.Proofs.Placement.Survey
import AgentGraph.Save
/-!
# Which components of one id are compared

A survey compares a component with the one that it found first under the id, and by the equality of
the two it knows all that is below. Only a component that holds two others of one id looks at the
first of them and passes over the second. So a graph that is saved has no two different components
of one id, unless one component holds both.
-/
namespace AgentGraph

/-- An equal component was found under the id. -/
def Survey.Covers (s : Survey) (c : Component) : Prop :=
  ∃ f, s.component? c.id = some f ∧ f.same c = true

namespace Writer
variable {w : Writer} {root c d e f : Component} {s s' : Survey}

/-- Components of one id that a component of the graph holds are equal. -/
def SiblingsAgree (w : Writer) (root : Component) : Prop :=
  ∀ c, Component.Reaches w.children root c →
    ∀ d ∈ w.children c, ∀ e ∈ w.children c, d.id = e.id → d.same e = true

/-- A graph as it stands in memory: mappings have distinct keys, a handle names one object, and
plugins write the fields that the kinds list. -/
structure InMemory (w : Writer) (root : Component) : Prop where
  keyed : root.Keyed
  objects : ∀ c d, Component.Reaches w.children root c → Component.Reaches w.children root d →
    c.isSameObject d = true → c = d
  faithful : w.Faithful root

namespace InMemory
variable (M : w.InMemory root)
include M

theorem keyed_of_reaches (h : Component.Reaches w.children root c) : c.Keyed :=
  M.keyed.reaches (fun _ _ => mem_children) h

/-- What one of two equal components reaches, the other reaches an equal of. -/
theorem exists_reaches_same (hc : Component.Reaches w.children root c)
    (h : c.same d = true) (he : Component.Reaches w.children d e) :
    ∃ f, Component.Reaches w.children c f ∧ f.same e = true := by
  obtain ⟨i, p⟩ := he
  induction p generalizing c with
  | here d => exact ⟨c, .refl c, h⟩
  | @step d kid e i hkid _ ih =>
    obtain ⟨l, hl, hperm⟩ := children_paired (w := w) h (M.keyed_of_reaches hc).proper
    obtain ⟨a, ha, hab⟩ := exists_left hl (hperm.mem_iff.mpr hkid)
    obtain ⟨f, hf, hfe⟩ := ih (hc.kid ha) hab
    exact ⟨f, .step ha hf, hfe⟩

theorem covers_of_same (hc : Component.Reaches w.children root c) (h : c.same d = true)
    (hcover : ∀ e, Component.Reaches w.children c e → s.Covers e) :
    ∀ e, Component.Reaches w.children d e → s.Covers e := by
  intro e he
  obtain ⟨a, ha, hae⟩ := M.exists_reaches_same hc h he
  obtain ⟨f, hf, hfa⟩ := hcover a ha
  exact ⟨f, Component.same_id hae ▸ hf, Component.same_trans hfa hae⟩

end InMemory

/-- What a survey found is part of the graph, and below every finished id all is covered. -/
structure Compared (w : Writer) (root : Component) (s : Survey) : Prop where
  found : ∀ x c fields, s.found.get? x = some (c, fields) →
    c.id = x ∧ Component.Reaches w.children root c ∧ fields = w.shown c
  covered : ∀ x table, s.tables.get? x = some table →
    ∃ c, s.component? x = some c ∧ ∀ e, Component.Reaches w.children c e → s.Covers e

/-- What was found under an id stays there. -/
def Keeps (s s' : Survey) : Prop := ∀ x p, s.found.get? x = some p → s'.found.get? x = some p

namespace Keeps

theorem refl (s : Survey) : Keeps s s := fun _ _ h => h

/-- Nothing is lost where a new id is noted. -/
theorem put {s : Survey} {id : String} (hnone : s.fields? id = none) (p : Component × Dict Value) :
    Keeps s { s with found := s.found.put id p } := by
  intro x q hx
  have hne : id ≠ x := by
    rintro rfl
    simp [Survey.fields?, hx] at hnone
  exact (Dict.get?_put_of_ne _ _ hne).trans hx

theorem trans {s t u : Survey} (h : Keeps s t) (k : Keeps t u) : Keeps s u :=
  fun x p hx => k x p (h x p hx)

theorem component? {x : String} (h : Keeps s s') (hx : s.component? x = some c) :
    s'.component? x = some c := by
  obtain ⟨p, hp, rfl⟩ := Option.map_eq_some_iff.mp hx
  exact Option.map_eq_some_iff.mpr ⟨p, h x p hp, rfl⟩

theorem covers (h : Keeps s s') (hs : s.Covers c) : s'.Covers c := by
  obtain ⟨f, hf, hfc⟩ := hs
  exact ⟨f, h.component? hf, hfc⟩

end Keeps

theorem compared_empty : w.Compared root .empty := by
  constructor
  · intro x c fields hx
    simp [Survey.empty] at hx
  · intro x table hx
    simp [Survey.empty] at hx

theorem Compared.component? (h : w.Compared root s) {x : String}
    (hx : s.component? x = some c) : c.id = x ∧ Component.Reaches w.children root c := by
  obtain ⟨⟨d, fields⟩, hd, rfl⟩ := Option.map_eq_some_iff.mp hx
  obtain ⟨hid, hreach, -⟩ := h.found x d fields hd
  exact ⟨hid, hreach⟩

/-- What stands under the id of a component that passed equals it. -/
theorem same_of_passed (M : w.InMemory root) (hs : w.Compared root s)
    (hc : Component.Reaches w.children root c) (hid : checkIdentity c s = .ok ((), s))
    (hf : s.component? c.id = some f) : f.same c = true := by
  rcases (checkIdentity_ok hid).2 f hf with hobject | hsame
  · obtain rfl := M.objects f c (hs.component? hf).2 hc hobject
    exact (M.keyed_of_reaches hc).same_refl
  · exact hsame

/-- Once the fields of a component are noted, the one that they are of is found under its id. -/
theorem noteFields_compared (M : w.InMemory root) (hs : w.Compared root s)
    (hc : Component.Reaches w.children root c) (hid : checkIdentity c s = .ok ((), s))
    {fields : Dict Value} (hrun : w.noteFields c s = .ok (fields, s')) :
    w.Compared root s' ∧ Keeps s s' ∧ ∃ f, s'.component? c.id = some f ∧ f.same c = true ∧
      fields = w.shown f := by
  rcases noteFields_cases hrun with ⟨hf, rfl⟩ | ⟨hnone, hv, rfl⟩
  · obtain ⟨⟨f, shown⟩, hget, rfl⟩ := Option.map_eq_some_iff.mp hf
    have hfound : s'.component? c.id = some f := Option.map_eq_some_iff.mpr ⟨_, hget, rfl⟩
    exact ⟨hs, .refl _, f, hfound, same_of_passed M hs hc hid hfound, (hs.found _ _ _ hget).2.2⟩
  · have hshown := M.faithful c _ hc hv
    have hkeeps : Keeps s { s with found := s.found.put c.id (c, fields) } := .put hnone (c, fields)
    refine ⟨⟨fun x d shown hx => ?_, fun x table hx => ?_⟩, hkeeps, c, ?_, ?_, hshown⟩
    · rw [Dict.get?_put] at hx
      split at hx
      · cases hx
        exact ⟨‹_›, hc, hshown⟩
      · exact hs.found x d shown hx
    · obtain ⟨d, hd, hcover⟩ := hs.covered x table hx
      exact ⟨d, hkeeps.component? hd, fun e he => hkeeps.covers (hcover e he)⟩
    · simp [Survey.component?, Dict.get?_put_self]
    · exact (M.keyed_of_reaches hc).same_refl

theorem mergeChildren_compared {here : String} {tableOf : Component → SurveyM PlacementTable}
    {cs : List Component}
    (htableOf : ∀ c ∈ cs, ∀ s table s', w.Compared root s → tableOf c s = .ok (table, s') →
      w.Compared root s' ∧ Keeps s s' ∧ ∀ e, Component.Reaches w.children c e → s'.Covers e)
    {start table : PlacementTable} (hs : w.Compared root s)
    (hrun : mergeChildren here tableOf cs start s = .ok (table, s')) :
    w.Compared root s' ∧ Keeps s s' ∧
      ∀ c ∈ cs, ∀ e, Component.Reaches w.children c e → s'.Covers e := by
  induction cs generalizing start s with
  | nil =>
    obtain ⟨rfl, rfl⟩ := run_pure_ok hrun
    exact ⟨hs, .refl _, by simp⟩
  | cons c rest ih =>
    obtain ⟨below, t, hc, hrest⟩ := run_bind_ok hrun
    obtain ⟨ht, hkeeps, hcover⟩ := htableOf c List.mem_cons_self _ _ _ hs hc
    obtain ⟨hs', hkeeps', hcovers⟩ := ih (fun d hd => htableOf d (List.mem_cons_of_mem _ hd)) ht hrest
    refine ⟨hs', hkeeps.trans hkeeps', List.forall_mem_cons.mpr ⟨?_, hcovers⟩⟩
    exact fun e he => hkeeps'.covers (hcover e he)

/-- A survey that ends has covered all below the component that it started from. -/
theorem survey_compared (M : w.InMemory root) (hsiblings : w.SiblingsAgree root) {room : Nat}
    (hc : Component.Reaches w.children root c) (hs : w.Compared root s) {table : PlacementTable}
    (hrun : w.survey room c s = .ok (table, s')) :
    w.Compared root s' ∧ Keeps s s' ∧ ∀ e, Component.Reaches w.children c e → s'.Covers e := by
  induction room generalizing c s table s' with
  | zero => exact (run_throw_ok hrun).elim
  | succ room ih =>
    obtain ⟨hid, ⟨hk, rfl⟩ | ⟨-, fields, t, u, hf, hm, rfl⟩⟩ := survey_cases hrun
    · obtain ⟨f, hfound, hcover⟩ := hs.covered _ _ hk
      have hreach := (hs.component? hfound).2
      exact ⟨hs, .refl _, M.covers_of_same hreach (same_of_passed M hs hc hid hfound) hcover⟩
    · obtain ⟨ht, hkeeps, f, hfound, hfc, rfl⟩ := noteFields_compared M hs hc hid hf
      have hreach := (ht.component? hfound).2
      have hkid : ∀ d ∈ firstOfEachId [] (w.children f), d ∈ w.children f :=
        fun d hd => (mem_firstOfEachId hd).1
      obtain ⟨hu, hkeeps', hfirst⟩ := mergeChildren_compared
        (fun d hd s table s' hs hrun => ih (hreach.kid (hkid d hd)) hs hrun) ht hm
      -- a child that was passed over equals the first of its id, which was not
      have hall : ∀ d ∈ w.children f, ∀ e, Component.Reaches w.children d e → u.Covers e := by
        intro d hd
        obtain ⟨a, ha, had⟩ := exists_firstOfEachId hd List.not_mem_nil
        exact M.covers_of_same (hreach.kid (hkid a ha))
          (hsiblings f hreach a (hkid a ha) d hd had) (hfirst a ha)
      have hbelow : ∀ e, Component.Reaches w.children f e → u.Covers e := by
        intro e he
        rcases Component.reaches_iff.mp he with rfl | ⟨d, hd, hde⟩
        · refine ⟨f, ?_, (M.keyed_of_reaches hreach).same_refl⟩
          rw [Component.same_id hfc]
          exact hkeeps'.component? hfound
        · exact hall d hd e hde
      refine ⟨⟨hu.found, fun x table hx => ?_⟩, hkeeps.trans hkeeps',
        M.covers_of_same hreach hfc hbelow⟩
      rw [Dict.get?_put] at hx
      split at hx
      · subst x
        exact ⟨f, hkeeps'.component? hfound, hbelow⟩
      · exact hu.covered x table hx

theorem coherent_of_covers (M : w.InMemory root) (hs : w.Compared root s)
    (h : ∀ e, Component.Reaches w.children root e → s.Covers e) :
    Component.Coherent w.children root := by
  intro c d hc hd hcd
  obtain ⟨f, hf, hfc⟩ := h c hc
  obtain ⟨g, hg, hgd⟩ := h d hd
  obtain rfl : f = g := Option.some.inj (hf.symm.trans (hcd ▸ hg))
  have hkeyed := M.keyed_of_reaches (hs.component? hf).2
  exact Component.same_trans (hkeyed.same_symm hfc) hgd

end Writer

/-- In a graph that was saved, components of one id are equal if those that one component holds
are. -/
theorem save_coherent_iff {registry : Registry} {policy : Policy} {options : SaveOptions}
    {root : Component} {saved : Saved} (hregistry : registry.ListsFields) (hkeyed : root.Keyed)
    (hobjects : ∀ c d, Component.Reaches (options.writer registry policy).children root c →
      Component.Reaches (options.writer registry policy).children root d →
      c.isSameObject d = true → c = d)
    (hsave : save registry policy options root = .ok saved) :
    Component.Coherent (options.writer registry policy).children root ↔
      (options.writer registry policy).SiblingsAgree root := by
  have M : (options.writer registry policy).InMemory root :=
    ⟨hkeyed, hobjects, Writer.faithful_of_listsFields hregistry root⟩
  constructor
  · intro hcoherent c hc d hd e he
    exact hcoherent d e (hc.kid hd) (hc.kid he)
  · intro hsiblings
    obtain ⟨⟨table, survey⟩, hsurvey, -⟩ := bind_ok hsave
    obtain ⟨hs, -, hcovers⟩ :=
      Writer.survey_compared M hsiblings (.refl root) Writer.compared_empty hsurvey
    exact Writer.coherent_of_covers M hs hcovers

namespace Sample

theorem keyed_team : team.Keyed := by
  have hempty : (Tree.map []).Proper := ⟨List.nodup_nil, trivial⟩
  have hslots : Slots.empty.Proper := by simp [Slots.Proper, Slots.empty, Property.ProperList]
  have hmodel : model.Keyed := ⟨hempty, fun _ hd => by cases hd⟩
  have hsearch : search.Keyed := ⟨hempty, Tool.Keyed.mk (fun _ he => by cases he) hslots⟩
  have halice : alice.Keyed := ⟨hempty, hmodel, ⟨hsearch, trivial⟩, hslots⟩
  have hbob : bob.Keyed := ⟨hempty, hmodel, trivial, hslots⟩
  exact ⟨hempty, halice, halice, hbob, trivial⟩

theorem objects_team {c d : Component} (hc : Component.Reaches Component.children team c)
    (hd : Component.Reaches Component.children team d) (h : c.isSameObject d = true) : c = d := by
  have hall : ∀ c ∈ [team, alice, bob, model, search], ∀ d ∈ [team, alice, bob, model, search],
      c.isSameObject d = true → c = d := by
    simp [Component.isSameObject, Component.handle, team, alice, bob, model, search]
  exact hall c (mem_team hc) d (mem_team hd) h

def first : Component :=
  .mk 6 "t" "First" none []
    (.tool { site := .server, slots := .empty, requiresConfirmation := false })

def second : Component :=
  .mk 7 "t" "Second" none []
    (.tool { site := .server, slots := .empty, requiresConfirmation := false })

def crowded : Component :=
  .mk 8 "crowded" "Crowded" none [] (.agent model "Help." [first, second] true .empty)

end Sample

theorem save_coherent_iff_team :
    ∃ saved, save .builtin .builtin .default Sample.team = .ok saved ∧
      Component.Coherent (SaveOptions.default.writer .builtin .builtin).children Sample.team := by
  have hsaves : (save .builtin .builtin .default Sample.team).isOk = true := by decide +kernel
  obtain ⟨saved, hsave⟩ := exists_of_isOk hsaves
  have hall {c : Component} (h : Component.Reaches
      (SaveOptions.default.writer .builtin .builtin).children Sample.team c) :
      Component.Reaches Component.children Sample.team c :=
    h.mono fun _ _ => Writer.mem_children
  have hiff := save_coherent_iff (fun plugin hp => absurd hp List.not_mem_nil) Sample.keyed_team
    (fun c d hc hd => Sample.objects_team (hall hc) (hall hd)) hsave
  refine ⟨saved, hsave, hiff.mpr fun c hc d hd e he hid => ?_⟩
  exact Sample.coherent d e (hall (hc.kid hd)) (hall (hc.kid he)) hid

/-- Of two tools of one id that an agent holds, the second is written as the first. -/
theorem save_merges_siblings :
    ∃ saved, save .builtin .builtin .default Sample.crowded = .ok saved ∧
      ∃ c d, Component.Reaches (SaveOptions.default.writer .builtin .builtin).children
          Sample.crowded c ∧
        Component.Reaches (SaveOptions.default.writer .builtin .builtin).children
          Sample.crowded d ∧ c.id = d.id ∧ c.same d = false := by
  have hsaves : (save .builtin .builtin .default Sample.crowded).isOk = true := by decide +kernel
  obtain ⟨saved, hsave⟩ := exists_of_isOk hsaves
  have hkids : (SaveOptions.default.writer .builtin .builtin).children Sample.crowded =
      [Sample.model, Sample.first, Sample.second] := rfl
  have hdiffer : Sample.first.same Sample.second = false := by decide +kernel
  refine ⟨saved, hsave, Sample.first, Sample.second, ?_, ?_, rfl, hdiffer⟩
  · exact .step (by simp [hkids]) (.refl _)
  · exact .step (by simp [hkids]) (.refl _)

end AgentGraph
