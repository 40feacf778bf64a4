import AgentGraph.Proofs.BuiltinGraph
import AgentGraph.Proofs.Load.Built
/-!
# Graphs that can be read back

A component can be read back if all its own data is plain and its kind is of the builtin catalog, as
its constructor leaves it, or an extension that a plugin keeps as a bag of fields. Of an extension
nothing is known but its record, so its fields have to be told apart there, and none of its data may
look like a component.
-/
namespace AgentGraph

/-- A plugin keeps a type as a bag of fields, and some names are declared to it. -/
def Registry.KeepsBags (r : Registry) (type : String) (declared : List String) : Prop :=
  ∃ name version types, r.owner? type = some ⟨.generic name version types declared, false⟩

/-- The name of a field once it was written and read again, where some names are declared. -/
def NamingMode.readAs (naming : NamingMode) (declared : List String) (field : String) : String :=
  (declared.find? (naming.toDocument · == naming.toDocument field)).getD
    (naming.fromDocument (naming.toDocument field))

/-- A declared name comes back as it is, if no other is spelled like it. -/
theorem NamingMode.readAs_declared {naming : NamingMode} {declared : List String} {field : String}
    (h : field ∈ declared)
    (hapart : ∀ other ∈ declared, naming.toDocument other = naming.toDocument field → other = field) :
    naming.readAs declared field = field := by
  rw [readAs]
  cases hfind : declared.find? (naming.toDocument · == naming.toDocument field) with
  | none => simpa using List.find?_eq_none.mp hfind field h
  | some other =>
    exact hapart other (List.mem_of_find?_eq_some hfind) (by simpa using List.find?_some hfind)

/-- A plugin that keeps bags is told by how it reads: a field that stands alone in a record shows the
name it is read as, whichever names are said to be declared. -/
theorem Registry.KeepsBags.readAs_eq {r : Registry} {naming : NamingMode} {type field : String}
    {declared declared' : List String} (h : r.KeepsBags type declared)
    (h' : r.KeepsBags type declared') (hprotocol : naming.toDocument field ∉ naming.protocol.names)
    (hbase : naming.toDocument field ∉ Record.baseFields) :
    naming.readAs declared field = naming.readAs declared' field := by
  obtain ⟨name, version, types, howner⟩ := h
  obtain ⟨name', version', types', howner'⟩ := h'
  have hplugin : Plugin.generic name version types declared =
      Plugin.generic name' version' types' declared' :=
    congrArg Owner.plugin (Option.some.inj (howner.symm.trans howner'))
  let reader : Reader := ⟨.current, naming, fun _ => throw (.tooDeep 0), fun _ => throw (.tooDeep 0)⟩
  let record : Record := ⟨[(naming.toDocument field, .null)], naming, type⟩
  have hbag : ∀ names, reader.bag record names =
      (pure [(naming.readAs names field, .data .null)] : LoadM (Dict Value)) := by
    intro names
    simp [record, Reader.bag, Record.ownFields, Record.isOwnKey, NamingMode.isProtocol, hprotocol,
      hbase, Reader.bagOf, Reader.valueOf, Record.internalName, NamingMode.readAs, Dict.put]
  have hread : ∀ name version types names,
      (Plugin.generic name version types names).read reader record ⟨[], ⟨0, 0⟩⟩ =
        .ok (.extension type [(naming.readAs names field, .data .null)], ⟨[], ⟨0, 0⟩⟩) := by
    intro name version types names
    simp only [Plugin.generic, hbag]
    rfl
  have hsame := (hread name version types declared).symm.trans
    ((congrFun (congrFun (congrFun (congrArg Plugin.read hplugin) reader) record) _).trans
      (hread name' version' types' declared'))
  simp only [Except.ok.injEq, Prod.mk.injEq, Kind.extension.injEq, List.cons.injEq] at hsame
  exact hsame.1.2.1.1

section Unlabelled
variable (naming : NamingMode)

/-- No mapping in a tree has the discriminator of components for a key. -/
def Tree.Unlabelled (t : Tree) : Prop := t.KeysAll (· ≠ naming.protocol.componentType)

mutual
/-- Nothing in a value has the discriminator of components for a key; the components that the value
holds are not looked into. -/
def Value.Unlabelled : Value → Prop
  | .data t => t.Unlabelled naming
  | .component _ => True
  | .property p => p.toTree.Unlabelled naming
  | .list items => unlabelledItems items
  | .map entries => unlabelledEntries entries
/-- Nothing in the values of a list has the discriminator for a key. -/
def unlabelledItems : List Value → Prop
  | [] => True
  | v :: rest => v.Unlabelled ∧ unlabelledItems rest
/-- Neither a mapping nor its values have the discriminator for a key. -/
def unlabelledEntries : List (String × Value) → Prop
  | [] => True
  | (key, v) :: rest => key ≠ naming.protocol.componentType ∧ v.Unlabelled ∧ unlabelledEntries rest
end

end Unlabelled

/-- The fields of an extension can be read back from its record. -/
structure Registry.ReadsBag (r : Registry) (naming : NamingMode) (type : String)
    (fields : Dict Value) : Prop where
  kept : ∃ declared, r.KeepsBags type declared ∧
    ((Dict.keys fields).map (naming.readAs declared)).Nodup
  apart : ((Dict.keys fields).map naming.toDocument ++ naming.protocol.names ++
    Record.baseFields).Nodup
  unreserved : ∀ field ∈ Dict.keys fields, isReservedKey (naming.toDocument field) = false
  unlabelled : ∀ f ∈ fields, f.2.Unlabelled naming
  proper : properEntries fields

/-- A kind can be read back. -/
inductive Kind.Legible (r : Registry) (naming : NamingMode) : Kind → Prop
  | builtin {k : Kind} : k.Built → Legible r naming k
  | extension {type : String} {fields : Dict Value} : r.ReadsBag naming type fields →
      Legible r naming (.extension type fields)

theorem Kind.Legible.built {r : Registry} {naming : NamingMode} {k : Kind}
    (h : k.Legible r naming) (hb : k.isBuiltin = true) : k.Built := by
  cases h with
  | builtin h => exact h
  | extension _ => cases hb

theorem Kind.Legible.extension_of {r : Registry} {naming : NamingMode} {k : Kind}
    (h : k.Legible r naming) (hb : k.isBuiltin = false) :
    ∃ type fields, k = .extension type fields ∧ r.ReadsBag naming type fields := by
  cases h with
  | builtin h =>
    rw [h.isBuiltin] at hb
    cases hb
  | extension h => exact ⟨_, _, rfl, h⟩

theorem Kind.Legible.slots {r : Registry} {naming : NamingMode} {k : Kind} {s : Slots}
    (h : k.Legible r naming) (hs : k.slots? = some s) : s.Made := by
  cases h with
  | builtin h => exact h.slots hs
  | extension _ => cases hs

/-- No key under which a field of the kind may be written is reserved. -/
theorem Kind.Legible.unreserved {r : Registry} {naming : NamingMode} {k : Kind}
    (h : k.Legible r naming) {field : String} (hf : field ∈ k.names) :
    isReservedKey (naming.toDocument field) = false := by
  cases h with
  | extension h => exact h.unreserved field hf
  | builtin h =>
    rw [Kind.names_builtin h.isBuiltin] at hf
    refine Builtin.unreserved_recordKeys naming (Kind.type_mem h.isBuiltin) ?_
    exact List.mem_append_left _ (List.mem_append_left _ (List.mem_map_of_mem hf))

mutual
theorem Value.Plain.keysKept {naming : NamingMode} {v : Value} (h : v.Plain naming) :
    v.KeysKept := by
  match v with
  | .data _ => trivial
  | .component _ => trivial
  | .property _ => trivial
  | .list items => exact plainItems_keysKept h
  | .map entries => exact plainEntries_keysKept h
theorem plainItems_keysKept {naming : NamingMode} {items : List Value}
    (h : plainItems naming items) : keysKeptItems items := by
  match items with
  | [] => trivial
  | v :: rest => exact ⟨h.1.keysKept, plainItems_keysKept h.2⟩
theorem plainEntries_keysKept {naming : NamingMode} {entries : List (String × Value)}
    (h : plainEntries naming entries) : keysKeptEntries entries := by
  match entries with
  | [] => trivial
  | (key, v) :: rest => exact ⟨h.1.unreserved, h.2.1.keysKept, plainEntries_keysKept h.2.2⟩
end

/-- The builtin policy is about the types of the builtin catalog only. -/
theorem Policy.builtin_shows {type : String} (h : type ∉ Builtin.types) (release : Release)
    (field : String) : Policy.builtin.shows release type field = true := by
  have hgates : Policy.builtin.fieldGates.lookup (type, field) = none := by
    have hall : ∀ gate ∈ Policy.builtin.fieldGates, gate.1.1 ∈ Builtin.types := by decide
    refine List.lookup_eq_none_iff.mpr fun gate hgate => ?_
    have hne : (type, field) ≠ gate.1 := by
      rintro heq
      exact h (by simpa [← heq] using hall gate hgate)
    simpa using hne
  have hsensitive : Policy.builtin.isSensitive type field = false := by
    have hall : ∀ secret ∈ Policy.builtin.sensitive, secret.1 ∈ Builtin.types := by decide
    rw [Policy.isSensitive, ← Bool.not_eq_true, List.contains_iff_mem]
    exact fun hmem => h (hall _ hmem)
  rw [Policy.shows, Policy.fieldAllowed, hgates, hsensitive]
  rfl

namespace Writer
variable {w : Writer} {root c : Component}

/-- A graph under the builtin policy in which all components can be read back. What is written of
them is plain, and so are the ids under which records are kept for several users. -/
structure LegibleGraph (w : Writer) (root : Component) : Prop where
  owned : ∀ type ∈ Builtin.types, w.registry.owner? type = some ⟨Plugin.builtin, true⟩
  policy : w.policy = Policy.builtin
  allowed : ∀ c, Component.Reaches Component.children root c →
    Policy.builtin.kindAllowed c.componentType w.target.release = true
  kinds : ∀ c, Component.Reaches Component.children root c →
    c.kind.Legible w.registry w.target.naming
  metadata : ∀ c, Component.Reaches Component.children root c →
    (Tree.map c.metadata).Plain w.target.naming
  fields : ∀ c, Component.Reaches Component.children root c →
    ∀ f ∈ w.shown c, f.2.Plain w.target.naming
  ids : ∀ c, Component.Reaches Component.children root c → 2 ≤ w.occurrences root c.id →
    w.target.naming.IsPlain c.id
  coherent : Component.Coherent Component.children root

namespace LegibleGraph
variable (H : w.LegibleGraph root)
include H

/-- A type that is kept as bags is none of the builtin catalog. -/
theorem not_builtin {type : String} {declared : List String}
    (h : w.registry.KeepsBags type declared) : type ∉ Builtin.types := by
  obtain ⟨name, version, types, howner⟩ := h
  intro hmem
  rw [H.owned type hmem] at howner
  exact Bool.noConfusion (congrArg Owner.builtin (Option.some.inj howner))

/-- All fields of an extension are shown. -/
theorem shown_extension {type : String} {fields : Dict Value}
    (hc : Component.Reaches Component.children root c) (hk : c.kind = .extension type fields)
    (h : w.registry.ReadsBag w.target.naming type fields) : w.shown c = fields := by
  obtain ⟨declared, hkept, -⟩ := h.kept
  have htype : c.componentType = type := by
    rw [Component.componentType, hk]
    rfl
  have hallowed : w.policy.kindAllowed c.componentType w.target.release = true := by
    rw [H.policy]
    exact H.allowed c hc
  have hfields : c.kind.fields = fields := by
    rw [hk]
    rfl
  rw [shown, if_pos hallowed, hfields, htype, List.filter_eq_self]
  intro f _
  rw [shows, H.policy]
  exact Policy.builtin_shows (H.not_builtin hkept) _ f.1

theorem full : w.FullGraph root where
  component c hc := by
    have hallowed := H.allowed c hc
    cases hb : c.kind.isBuiltin with
    | true => exact inFull_of_builtin H.owned H.policy hb hallowed
    | false =>
      obtain ⟨type, fields, hk, h⟩ := (H.kinds c hc).extension_of hb
      have hshown := H.shown_extension hc hk h
      obtain ⟨declared, ⟨plugin, version, types, howner⟩, -⟩ := h.kept
      have htype : c.componentType = type := by
        rw [Component.componentType, hk]
        rfl
      have hfields : c.kind.fields = fields := by
        rw [hk]
        rfl
      refine ⟨⟨_, htype ▸ howner, Plugin.writeBag_of_extension hb⟩, by rwa [H.policy],
        fun f hf => .inl ?_, hfields ▸ h.proper, fun f hf => ?_, ?_⟩
      · rw [hfields, ← hshown, shown] at hf
        split at hf
        · exact (List.mem_filter.mp hf).2
        · cases hf
      · exact (H.fields c hc f (hshown ▸ hfields ▸ hf)).keysKept
      · rw [hk]
        exact h.apart
  coherent := H.coherent

end LegibleGraph
end Writer

/-- With a registry that was put together without a conflict. -/
theorem Writer.legibleGraph {extensions : List Plugin} {registry : Registry} {options : SaveOptions}
    {root : Component} (hregistry : Registry.ofPlugins extensions = .ok registry)
    (hallowed : ∀ c, Component.Reaches Component.children root c →
      Policy.builtin.kindAllowed c.componentType options.release = true)
    (hkinds : ∀ c, Component.Reaches Component.children root c →
      c.kind.Legible registry options.naming)
    (hplain : ∀ c, Component.Reaches Component.children root c → c.Plain options.naming)
    (hsame : Component.Coherent Component.children root) :
    (options.writer registry .builtin).LegibleGraph root where
  owned _ ht := Registry.owner?_builtin hregistry ht
  policy := rfl
  allowed := hallowed
  kinds := hkinds
  metadata c hc := (hplain c hc).metadata
  fields c hc f hf := (hplain c hc).fields f (mem_shown hf)
  ids c hc _ := (hplain c hc).id
  coherent := hsame

end AgentGraph
