import AgentGraph.Proofs.Load.Kinds
import AgentGraph.Proofs.Load.State
/-!
# Loading the records of a graph

Where all that the records refer to has its home, in the document or among the components given, the
record of every id is read back as a component that stands for the id. The induction is on the room for
levels; a record is loaded with the ids above it in progress, and none of them is met.
-/
namespace AgentGraph

/-- No field of a builtin kind is null. -/
theorem Kind.present_fields {k : Kind} (h : k.isBuiltin = true) :
    ∀ f ∈ k.fields, f.2 ≠ .data .null := by
  have htext : ∀ field (text : Option String), ∀ f ∈ optionalText field text,
      f.2 ≠ .data .null := by
    intro field text
    cases text <;> simp [optionalText, Value.text]
  have hslots : ∀ s : Slots, ∀ f ∈ s.fields, f.2 ≠ .data .null := by
    simp [Slots.fields, Value.propertyList]
  cases k with
  | modelConfig c =>
    refine List.forall_mem_append.mpr ⟨List.forall_mem_append.mpr ⟨List.forall_mem_append.mpr
      ⟨List.forall_mem_append.mpr ⟨htext _ _, ?_⟩, htext _ _⟩, htext _ _⟩, ?_⟩
    · simp [Value.text]
    · cases c.parameters <;> simp [Value.mapping]
  | tool t =>
    refine List.forall_mem_append.mpr ⟨List.forall_mem_append.mpr ⟨hslots _, ?_⟩, ?_⟩
    · cases t.site <;> simp [Endpoint.fields, Value.text, Value.mapping]
    · simp [Value.bool]
  | agent c p ts hu s =>
    refine List.forall_mem_append.mpr ⟨hslots s, ?_⟩
    simp [Value.text, Value.bool, Value.componentList]
  | flow n ns cs ds s =>
    refine List.forall_mem_append.mpr ⟨hslots s, ?_⟩
    simp [Value.componentList]
  | node role s =>
    refine List.forall_mem_append.mpr ⟨hslots s, ?_⟩
    cases role with
    | finish b => exact htext _ b
    | _ => simp [NodeRole.fields, Value.text, Value.mapping]
  | controlFlowEdge f b t => cases b <;> simp [fields, optionalText, Value.text]
  | extension t fs => cases h
  | _ => simp [fields, Value.text, Value.componentList]

namespace Writer
variable {w : Writer} {root c d L : Component} {l : Layout} {r : Records} {x y key field : String}
  {record : Dict Tree} {listed : List (String × Option String)} {exportSidecar : Bool}
  {saved : Saved} {G : w.FullGraph root} {s t u : LoadState}
  {given : String → Option Component} {Local : String → Prop} {ctx : Load.Context}

theorem isNull_render {v : Value} (h : v ≠ .data .null) : (w.render l r v).isNull = false := by
  cases v with
  | data t => cases t <;> first | exact absurd rfl h | rfl
  | component c =>
    rw [render, useOf]
    cases l.reference? c.id <;> rfl
  | property p =>
    obtain ⟨schema⟩ := p
    cases schema
    rw [render, Property.toTree, Schema.toTree]
    rfl
  | list items => rfl
  | map entries => rfl

/-- A field is found in a record if it is shown, as the writer wrote it. -/
theorem RecordOf.get? (h : w.RecordOf l r c d record) (hd : w.InFull d)
    (hb : d.kind.isBuiltin = true) {type : String}
    (hf : field ∈ Builtin.fieldNames d.componentType) :
    Record.get? ⟨record, w.target.naming, type⟩ field =
      if w.shows d.componentType field then
        (Dict.get? d.kind.fields field).map (w.render l r)
      else none := by
  have hfilter : Dict.get? (w.shown d) field =
      if w.shows d.componentType field then Dict.get? d.kind.fields field else none := by
    rw [hd.shown_eq]
    exact Dict.get?_filter _ _ _
  have hname : field ∈ d.kind.names := by
    rw [Kind.names_builtin hb]
    exact hf
  rw [Record.get?, h.field field hname, hfilter]
  split
  · cases hv : Dict.get? d.kind.fields field with
    | none => rfl
    | some v =>
      have hnull := Kind.present_fields hb _ (Dict.mem_of_get? hv)
      simp [Option.filter, isNull_render (w := w) (l := l) (r := r) hnull]
  · rfl

/-- The base fields are spelled alike in both spellings. -/
theorem toDocument_base (naming : NamingMode) (h : field ∈ Record.baseFields) :
    naming.toDocument field = field := by
  have hall : ∀ field ∈ Record.baseFields, naming.toDocument field = field := by
    cases naming <;> decide +kernel
  exact hall field h

section Base
variable (h : w.RecordOf l r c d record) (type : String)
include h

theorem RecordOf.readId :
    Record.optionalText ⟨record, w.target.naming, type⟩ "id" = .ok (some c.id) := by
  refine Record.optionalText_ok ?_
  rw [Record.get?, toDocument_base _ (by decide), h.id]
  rfl

theorem RecordOf.readName :
    Record.requiredText ⟨record, w.target.naming, type⟩ "name" = .ok c.name := by
  refine Record.requiredText_ok ?_
  rw [Record.get?, toDocument_base _ (by decide), h.name]
  rfl

theorem RecordOf.readDescription :
    Record.optionalText ⟨record, w.target.naming, type⟩ "description" = .ok c.description := by
  refine Record.optionalText_ok ?_
  rw [Record.get?, toDocument_base _ (by decide), h.description]
  cases c.description <;> rfl

theorem RecordOf.readMetadata (hplain : (Tree.map c.metadata).Plain w.target.naming) :
    Record.mapping ⟨record, w.target.naming, type⟩ "metadata" = .ok c.metadata := by
  have hget : Record.get? ⟨record, w.target.naming, type⟩ "metadata" =
      (if c.metadata.isEmpty then none else some c.metadata).map .map := by
    rw [Record.get?, toDocument_base _ (by decide), h.metadata, hplain.unreserved.strip_eq]
    split <;> rfl
  rw [Record.mapping_ok hget]
  split
  · rename_i hempty
    rw [List.isEmpty_iff.mp hempty]
    rfl
  · rfl

end Base

/-- Everything that a part of the graph refers to has its home: it is loaded here, where the sidecar
entries of the document or the uses themselves hold its record, or it is given. -/
structure Home (G : w.FullGraph root) (l : Layout) (r : Records)
    (given : String → Option Component) (Local : String → Prop) (ctx : Load.Context) : Prop where
  naming : ctx.naming = w.target.naming
  registry : ctx.registry = w.registry
  apart : ∀ x, G.regular.dag.Reaches root.id x → Local x → given x = none
  sub : ∀ x y, G.regular.dag.Reaches root.id x → Local x → y ∈ l.sub x → Local y
  referenced : ∀ x y name, G.regular.dag.Reaches root.id x → Local x →
    y ∈ G.regular.dag.kids x → l.reference? y = some name →
    (Local y ∧ Dict.get? ctx.supplied name = none ∧
      Dict.get? ctx.sidecar name = some (r.at y)) ∨
    ∃ L, Dict.get? ctx.supplied name = some L ∧ given y = some L
  given : ∀ x L, G.regular.dag.Reaches root.id x → given x = some L → w.Restores root x L ∧
    ∀ d, Component.Reaches Component.children L d → given d.id = some d

/-- What stands for a component of the graph while its user is read. -/
def Stand (w : Writer) (root : Component) (given : String → Option Component) (s : LoadState)
    (c c' : Component) : Prop :=
  Component.Reaches Component.children root c ∧ w.Sound root given s c.id c'

theorem readBack_stand (s : LoadState) :
    ReadBack w.shows fun c c' => c.kind.isBuiltin = true ∧ w.Stand root given s c c' where
  same c _ h := h.2.2.restores.same c h.2.1 h.1 rfl
  readable _ _ h := h.2.2.restores.readable

/-- A component from elsewhere is taken under the name by which it is referred to. -/
theorem runs_given (P : w.Planned G.regular listed l)
    (hapart : AliasesApart (G.regular.dag.Reaches root.id) listed) (hkey : Names l key x)
    (hx : G.regular.dag.Reaches root.id x) (hgiven : given x = some L)
    (hL : w.Restores root x L)
    (hclosed : ∀ d, Component.Reaches Component.children L d → given d.id = some d) :
    (watch G l given Local (G.regular.dag.rank x + 1) (G.regular.dag.rank x + 1)).Runs s
      (do
        setResolution key (.resolved L)
        return L)
      fun t M => w.Sound root given t x M := by
  rintro ⟨hresolved, hpending⟩
  have hsound : ∀ u, w.Sound root given u x L := fun u =>
    ⟨hL, fun d hd => by rw [meaning, hclosed d hd, Option.some_or]⟩
  have hold : ∀ M, s.resolved? key = some M → M = L := fun M hM =>
    (hresolved.sound P hapart hkey hx hM).2.unique (hsound s)
  have hextends := extends_noted (G := G) hkey hx (Nat.lt_succ_self _) hold
  exact ⟨⟨hresolved.noted hkey hx (.inr hgiven) hold (hsound _), hextends.pending hpending⟩,
    hextends, hsound _⟩

/-- A reference is followed to a component that stands for its id. -/
theorem Home.runs_follow (H : Home G l r given Local ctx) (P : w.Planned G.regular listed l)
    (hapart : AliasesApart (G.regular.dag.Reaches root.id) listed)
    {load : Dict Tree → LoadM Component} (hkey : Names l key y)
    (hy : G.regular.dag.Reaches root.id y)
    (hhome : (Local y ∧ Dict.get? ctx.supplied key = none ∧
        Dict.get? ctx.sidecar key = some (r.at y)) ∨
      ∃ L, Dict.get? ctx.supplied key = some L ∧ given y = some L)
    (hload : Local y → ∀ u, (watch G l given Local (G.regular.dag.rank y)
      (G.regular.dag.rank y + 1)).Runs u (load (r.at y)) fun t L => w.Sound root given t y L) :
    (watch G l given Local (G.regular.dag.rank y + 1) (G.regular.dag.rank y + 1)).Runs s
      (Load.follow ctx load key) fun t L => w.Sound root given t y L := by
  intro hs
  unfold Load.follow
  refine Watch.Runs.get ?_ hs
  cases hget : Dict.get? s.resolution key with
  | some resolution =>
    cases resolution with
    | inProgress =>
      exact absurd hget (hs.2.not_inProgress P hapart hkey hy (Nat.lt_succ_self _))
    | resolved L => exact .pure (hs.1.sound P hapart hkey hy (LoadState.resolved?_eq_some.mpr hget)).2
  | none =>
    rcases hhome with ⟨hlocal, hsupplied, hsidecar⟩ | ⟨L, hsupplied, hgiven⟩
    · rw [hsupplied, hsidecar]
      exact runs_through P hapart hkey hy hlocal hget (hload hlocal)
    · rw [hsupplied]
      obtain ⟨hrestores, hclosed⟩ := H.given y L hy hgiven
      exact runs_given P hapart hkey hy hgiven hrestores hclosed

/-- Once its kind is read, a component gets its handle and stands for its id. -/
theorem runs_finish {k k' : Kind} {name : String} {description : Option String}
    {metadata : Dict Tree} (hx : G.regular.dag.Reaches root.id x) (hlocal : Local x)
    (hgiven : given x = none) (hnone : s.resolved? x = none)
    (hk : w.Returned (w.Stand root given s) k k')
    (hL : ∀ handle, w.Restores root x (.mk handle x name description metadata k')) :
    (watch G l given Local (G.regular.dag.rank x) (G.regular.dag.rank x + 1)).Runs s
      (do
        let c : Component := .mk (← freshHandle) x name description metadata k'
        setResolution x (.resolved c)
        return c)
      fun t L => w.Sound root given t x L := by
  rintro ⟨hresolved, hpending⟩
  let c : Component := .mk s.supply.nextHandle x name description metadata k'
  let s' : LoadState := ⟨s.resolution, s.supply.freshHandle.2⟩
  have hrun : (do
        let c : Component := .mk (← freshHandle) x name description metadata k'
        setResolution x (.resolved c)
        return c : LoadM Component) s = .ok (c, noted x c s') := rfl
  have hresolved' : Resolved G l given Local s' := fun key L hkey => by
    obtain ⟨y, hy, hreach, hside, hsound⟩ := hresolved key L hkey
    exact ⟨y, hy, hreach, hside, hsound.congr rfl⟩
  have hold : ∀ M, s'.resolved? x = some M → M = c := fun M hM => by
    have hM' : s.resolved? x = some M := hM
    rw [hnone] at hM'
    cases hM'
  have hself : meaning given (noted x c s') x = some c := by
    rw [meaning, hgiven, Option.none_or, LoadState.resolved?_eq_some, get?_noted, if_pos rfl]
  have hsound : w.Sound root given (noted x c s') x c := by
    refine ⟨hL _, fun d hd => ?_⟩
    rcases Component.reaches_iff.mp hd with rfl | ⟨a, ha, had⟩
    · exact hself
    · obtain ⟨e, -, -, hae⟩ := exists_left hk.held ha
      have hmeaning : meaning given s' d.id = some d := hae.closed d had
      exact meaning_noted hold hmeaning
  have hextends : Extends G l (G.regular.dag.rank x + 1) s' (noted x c s') :=
    extends_noted (.inl rfl) hx (Nat.lt_succ_self _) hold
  rw [hrun]
  exact ⟨⟨hresolved'.noted (.inl rfl) hx (.inl hlocal) hold hsound, hextends.pending hpending⟩,
    hextends, hsound⟩

/-- A kind that was read back makes a component that stands for the id, with the texts of one component
of the id and the fields of another. -/
theorem restores_of_returned (hlegible : w.LegibleGraph root)
    (hc : Component.Reaches Component.children root c)
    (hd : Component.Reaches Component.children root d) (hid : d.id = c.id) {k' : Kind}
    (hk : w.Returned (w.Stand root given s) d.kind k') (handle : Nat) :
    w.Restores root c.id (.mk handle c.id c.name c.description c.metadata k') where
  id := rfl
  origin := ⟨c, d, hc, hd, rfl, hid, rfl, rfl, rfl, hk.mono fun _ _ h => h.2.restores.id⟩
  same e he hb heid := by
    obtain ⟨-, hname, hdescription, hmetadata, -⟩ :=
      Component.same_iff.mp (hlegible.coherent c e hc he heid.symm)
    have hkind := (Component.same_iff.mp (hlegible.coherent d e hd he (hid.trans heid.symm))).2.2.2.2
    have hcarries : Carries w.shows (w.Stand root given s) (heldComponents e.kind.fields) := by
      intro a a' b hb' ha hab
      have hbuiltin := ((hlegible.kinds e he).built hb).held_builtin b hb'
      exact ha.2.restores.same b (he.kid hb') hbuiltin (Component.same_id hab).symm
    refine Component.same_iff.mpr ⟨?_, ?_, ?_, ?_, ?_⟩
    · rw [Component.id_hide, heid]
      rfl
    · rw [Component.name_hide, ← hname]
      rfl
    · rw [Component.description_hide, ← hdescription]
      rfl
    · rw [Component.metadata_hide]
      exact hmetadata
    · rw [Component.kind_hide]
      exact hk.same hb hcarries hkind
  readable := Component.forall_mem_slots fun slots hslots p hp => by
    have hsame : d.kind.slots? = some slots := hk.slots.symm.trans hslots
    exact (((hlegible.kinds d hd).slots hsame).read p hp).readable

/-- A function loads every record of an id that is loaded here as a component that stands for the id. -/
def Loads (G : w.FullGraph root) (l : Layout) (r : Records)
    (given : String → Option Component) (Local : String → Prop)
    (load : Dict Tree → LoadM Component) : Prop :=
  ∀ x record s, G.regular.dag.Reaches root.id x → Local x → w.Laid root l r x record →
    (watch G l given Local (G.regular.dag.rank x) (G.regular.dag.rank x + 1)).Runs s (load record)
      fun t L => w.Sound root given t x L

/-- What is used in a record of an id looks like a component. -/
theorem Outcome.shaped_use (O : Outcome G listed exportSidecar l r saved)
    (hx : G.regular.dag.Reaches root.id c.id) : w.Shaped l r c := by
  unfold Shaped written useOf
  cases l.reference? c.id with
  | some name =>
    refine ⟨_, rfl, ?_⟩
    simp [Reader.looksLikeComponent, Dict.has]
  | none =>
    obtain ⟨a, b, -, -, -, hrecord⟩ := O.stands hx
    have htype : Dict.has (r.at c.id) w.target.naming.protocol.componentType = true :=
      Dict.has_iff.mpr (Dict.mem_keys_iff.mpr ⟨_, hrecord.type⟩)
    refine ⟨_, rfl, ?_⟩
    rw [Reader.looksLikeComponent, htype, Bool.true_or]

namespace Outcome
variable (O : Outcome G listed exportSidecar l r saved) (H : Home G l r given Local ctx)
  (hapart : AliasesApart (G.regular.dag.Reaches root.id) listed)
  {load : Dict Tree → LoadM Component} (hload : Loads G l r given Local load)
include O H hapart hload

/-- What is used in a record of an id is read as a component that stands for it. -/
theorem runs_use (hx : G.regular.dag.Reaches root.id x) (hlocal : Local x)
    (hy : y ∈ G.regular.dag.kids x) (release : Release) (record : Record) (field : String)
    (s : LoadState) :
    (watch G l given Local (G.regular.dag.rank x) (G.regular.dag.rank x)).Runs s
      (Reader.componentOf ⟨release, ctx.naming, load, Load.follow ctx load⟩ record field
        (w.written l r y))
      fun t L => w.Sound root given t y L := by
  have hreach : G.regular.dag.Reaches root.id y := hx.trans (.kid hy)
  have hrank : G.regular.dag.rank y < G.regular.dag.rank x := G.regular.dag.rank_lt hy
  have hown : Local y → ∀ u, (watch G l given Local (G.regular.dag.rank y)
      (G.regular.dag.rank y + 1)).Runs u (load (r.at y)) fun t L => w.Sound root given t y L :=
    fun hly u => hload y (r.at y) u hreach hly (O.laid hreach)
  unfold Reader.componentOf written useOf
  cases href : l.reference? y with
  | none =>
    have hno : Dict.get? (r.at y) ctx.naming.protocol.componentRef = none := by
      rw [H.naming]
      exact (O.stands hreach).reference_none
    have hkid : y ∈ l.survey.kidsAt x := (O.planned.surveyed.kidsAt_perm hx).mem_iff.mpr hy
    have hly : Local y := H.sub x y hx hlocal (Layout.mem_sub_of_inline hkid href)
    simp only [hno]
    exact runs_widen (hown hly s) (Nat.le_of_lt hrank) hrank
  | some name =>
    have hfollow : (watch G l given Local (G.regular.dag.rank y + 1)
        (G.regular.dag.rank y + 1)).Runs s (Load.follow ctx load name)
        fun t L => w.Sound root given t y L :=
      H.runs_follow O.planned hapart (.inr href) hreach (H.referenced x y name hx hlocal hy href) hown
    simp only [referenceTo, H.naming, Dict.get?, if_true]
    exact runs_widen hfollow hrank hrank

/-- A component held by a component of the graph is used under the id of its user. -/
theorem runs_held (hc : Component.Reaches Component.children root c)
    (hd : Component.Reaches Component.children root d) (hid : d.id = c.id) (hlocal : Local c.id)
    (release : Release) {e : Component} (he : e ∈ heldComponents d.kind.fields) (own : Record)
    (field : String) (u : LoadState) :
    (watch G l given Local (G.regular.dag.rank c.id) (G.regular.dag.rank c.id)).Runs u
      (Reader.componentOf ⟨release, ctx.naming, load, Load.follow ctx load⟩ own field
        (w.written l r e.id))
      fun t e' => w.Stand root given t e e' := by
  have hkid : e.id ∈ G.regular.dag.kids c.id := by
    rw [← hid]
    exact (G.regular.mem_kidsOf (G.reaches_iff.mpr hd)).mpr ⟨e, G.children_eq hd ▸ he, rfl⟩
  have hx := G.regular.reaches_root (G.reaches_iff.mpr hc)
  exact (O.runs_use H hapart hload hx hlocal hkid release own field u).mono fun t L _ hL =>
    ⟨hd.kid he, hL⟩

/-- The record of an extension gives its components back. -/
theorem giving (hc : Component.Reaches Component.children root c)
    (hd : Component.Reaches Component.children root d) (hid : d.id = c.id) (hlocal : Local c.id)
    (release : Release) (own : Record) :
    w.Giving l r (watch G l given Local (G.regular.dag.rank c.id) (G.regular.dag.rank c.id))
      ⟨release, ctx.naming, load, Load.follow ctx load⟩ own (w.Stand root given)
      (heldComponents d.kind.fields) where
  naming := H.naming
  shaped e he := O.shaped_use (G.regular.reaches_root (G.reaches_iff.mpr (hd.kid he)))
  component u field e he := O.runs_held H hapart hload hc hd hid hlocal release he own field u
  stays {t u a a'} hstep hR := by
    have hext : Extends G l (G.regular.dag.rank c.id) t u := hstep
    exact ⟨hR.1, hR.2.extends hext⟩

variable (hlegible : w.LegibleGraph root)
include hlegible

/-- The record of a component of a builtin kind lets the kind be read back. -/
theorem reading (hc : Component.Reaches Component.children root c)
    (hd : Component.Reaches Component.children root d) (hid : d.id = c.id)
    (hb : d.kind.isBuiltin = true) (hrecord : w.RecordOf l r c d record) (hlocal : Local c.id)
    (release : Release) :
    w.Reading l r w.shows (watch G l given Local (G.regular.dag.rank c.id) (G.regular.dag.rank c.id))
      ⟨release, ctx.naming, load, Load.follow ctx load⟩
      ⟨record, ctx.naming, c.componentType⟩ d.kind
      fun t e e' => e.kind.isBuiltin = true ∧ w.Stand root given t e e' where
  type := Component.same_type (G.coherent c d hc hd hid.symm)
  get field hf := by
    rw [H.naming]
    exact hrecord.get? (G.component d hd) hb hf
  shown field hf hno := by
    rw [Writer.shows, hlegible.policy]
    exact Builtin.shown_of_not_hideable (Kind.type_mem hb) hf hno _
  component field e he := by
    have hbuiltin := ((hlegible.kinds d hd).built hb).held_builtin e he
    refine ⟨Component.forall_mem_slots fun slots hslots p hp => ?_, fun u =>
      (O.runs_held H hapart hload hc hd hid hlocal release he _ field u).mono
        fun t L _ hL => ⟨hbuiltin, hL⟩⟩
    exact (((hlegible.kinds e (hd.kid he)).slots hslots).read p hp).readable.namesOnce
  stays t u a a' hstep hR := by
    have hext : Extends G l (G.regular.dag.rank c.id) t u := hstep
    exact ⟨hR.1, hR.2.1, hR.2.2.extends hext⟩
  readBack := readBack_stand
  built := (hlegible.kinds d hd).built hb
  plain f hf hshown := by
    refine hlegible.fields d hd f ?_
    rw [(G.component d hd).shown_eq]
    exact List.mem_filter.mpr ⟨hf, hshown⟩

/-- The owner of its type reads the kind of a record back. -/
theorem runs_read {front : Dict Tree} (hc : Component.Reaches Component.children root c)
    (hd : Component.Reaches Component.children root d) (hid : d.id = c.id)
    (hfront : w.IsFront c front) (hrecord : record =
      front ++ w.fieldEntries l r (w.shown d) ++ w.carried l r c.id)
    (hlocal : Local c.id) (release : Release) (u : LoadState) :
    ∃ owner, w.registry.owner? c.componentType = some owner ∧
      (watch G l given Local (G.regular.dag.rank c.id) (G.regular.dag.rank c.id)).Runs u
        (owner.plugin.read ⟨release, ctx.naming, load, Load.follow ctx load⟩
          ⟨record, ctx.naming, c.componentType⟩)
        fun t k' => w.Returned (w.Stand root given t) d.kind k' := by
  have htype : c.componentType = d.componentType :=
    Component.same_type (G.coherent c d hc hd hid.symm)
  have hfull := G.component d hd
  cases hb : d.kind.isBuiltin with
  | true =>
    refine ⟨_, hlegible.owned _ (htype ▸ Kind.type_mem hb), ?_⟩
    have hreading := O.reading H hapart hload hlegible hc hd hid hb
      (hrecord ▸ hfront.recordOf hfull) hlocal release
    exact hreading.read.mono fun t k' _ hk => .builtin (hk.mono fun _ _ h => h.2)
  | false =>
    have hgiving := O.giving H hapart hload hc hd hid hlocal release
      ⟨record, ctx.naming, c.componentType⟩
    have hplain := hlegible.fields d hd
    obtain ⟨type, fields, hk, hbag⟩ := (hlegible.kinds d hd).extension_of hb
    have hdtype : d.componentType = type := by
      rw [Component.componentType, hk]
      rfl
    have hshown := hlegible.shown_extension hd hk hbag
    rw [hshown] at hplain
    rw [hk] at hgiving ⊢
    rw [htype, hdtype] at hgiving ⊢
    exact runs_readBag hbag hfront hfull hshown hrecord H.naming rfl hplain hgiving u

/-- A record is built into a component that stands for its id, if nothing does yet. -/
theorem runs_build {front : Dict Tree} (hc : Component.Reaches Component.children root c)
    (hd : Component.Reaches Component.children root d) (hid : d.id = c.id)
    (hfront : w.IsFront c front) (hrecord : record =
      front ++ w.fieldEntries l r (w.shown d) ++ w.carried l r c.id)
    (hlocal : Local c.id) (release : Release) {s : LoadState}
    (hnone : s.resolved? c.id = none) :
    ∃ owner, w.registry.owner? c.componentType = some owner ∧
      (watch G l given Local (G.regular.dag.rank c.id) (G.regular.dag.rank c.id + 1)).Runs s
        (Load.build owner.plugin ⟨release, ctx.naming, load, Load.follow ctx load⟩
          ⟨record, ctx.naming, c.componentType⟩ c.id)
        fun t L => w.Sound root given t c.id L := by
  have hx := G.regular.reaches_root (G.reaches_iff.mpr hc)
  have hof : w.RecordOf l r c d record := hrecord ▸ hfront.recordOf (G.component d hd)
  obtain ⟨owner, howner, hread⟩ := O.runs_read H hapart hload hlegible hc hd hid hfront hrecord
    hlocal release s
  refine ⟨owner, howner, ?_⟩
  unfold Load.build
  rw [H.naming] at hread ⊢
  refine .lift (hof.readName _) (.lift (hof.readDescription _)
    (.lift (hof.readMetadata _ (hlegible.metadata c hc)) ?_))
  have hkind := hread.mono fun t k' hstep hk => by
    have hext : Extends G l (G.regular.dag.rank c.id) s t := hstep
    exact And.intro hk (hext.unresolved O.planned hapart hx hnone)
  refine (runs_widen hkind (Nat.le_refl _) (Nat.le_succ _)).bind fun t k' _ hk => ?_
  exact runs_finish hx hlocal (H.apart _ hx hlocal) hk.2 hk.1 fun handle =>
    restores_of_returned hlegible hc hd hid hk.1 handle

end Outcome

/-- The records of a graph are loaded as components that stand for their ids. -/
theorem Outcome.loads (O : Outcome G listed exportSidecar l r saved)
    (H : Home G l r given Local ctx)
    (hapart : AliasesApart (G.regular.dag.Reaches root.id) listed)
    (hlegible : w.LegibleGraph root) (room : Nat) :
    Loads G l r given Local (Load.record ctx room) := by
  induction room with
  | zero => exact fun _ _ _ _ _ _ => .tooDeep _
  | succ room ih =>
    intro x record s hx hlocal hlaid
    obtain ⟨c, d, front, rfl, hcw, hfound, hfront, hrecord⟩ := hlaid
    obtain ⟨hid, hdw, -⟩ := O.planned.surveyed.known.found _ _ _ hfound
    have hc := G.reaches_iff.mp hcw
    have hd := G.reaches_iff.mp hdw
    have hof : w.RecordOf l r c d record := hrecord ▸ hfront.recordOf (G.component d hd)
    have htype : Load.typeOf ctx.naming record = .ok c.componentType := by
      rw [Load.typeOf, H.naming, hof.type]
    have hown : Record.optionalText ⟨record, ctx.naming, c.componentType⟩ "id" =
        .ok (some c.id) := by
      rw [H.naming]
      exact hof.readId _
    obtain ⟨owner, howner, -⟩ := O.runs_read H hapart ih hlegible hc hd hid hfront hrecord hlocal
      ctx.release s
    have hplugin : Load.pluginOf ctx.registry c.componentType = .ok owner.plugin := by
      rw [Load.pluginOf, H.registry, howner]
    unfold Load.record
    refine .lift htype (.lift hplugin (.lift hown ?_))
    simp only [pure_bind]
    refine .get ?_
    cases hresolved : s.resolved? c.id with
    | some L =>
      rintro ⟨hinv, hpending⟩
      have hsound := (hinv.sound O.planned hapart (.inl rfl) hx hresolved).2
      exact ⟨⟨hinv, hpending⟩, Extends.refl (G := G) _ s, hsound⟩
    | none =>
      obtain ⟨other, hother, hbuild⟩ := O.runs_build H hapart ih hlegible hc hd hid hfront hrecord
        hlocal ctx.release hresolved
      obtain rfl := Option.some.inj (howner.symm.trans hother)
      exact hbuild

end Writer
end AgentGraph
