import AgentGraph.Proofs.BuiltinGraph
import AgentGraph.Proofs.Record.Keys
import AgentGraph.Proofs.Schema.Readable
/-!
# Reserved keys of saved documents

Data and the entries of mappings are written without reserved keys, but some keys are written as they
come: ids under which records are kept, names of fields of extensions, and the keys of schemas that were
put together by hand. A reserved key in a saved document or in its sidecar is one of these.
-/
namespace AgentGraph

namespace Writer

/-- A component that is written somewhere below a root, or the root. -/
def Writes (w : Writer) (root c : Component) : Prop := Component.Reaches w.writtenChildren root c

/-- Keys that come into a document as they are. -/
inductive RawKey (w : Writer) (root : Component) (listed : List (String × Option String)) :
    String → Prop
  /-- The id of a component that is used more than once. -/
  | shared {id : String} (h : w.Shared (w.Writes root) id) : RawKey w root listed id
  /-- The alias, or else the id, of a component that was listed for the sidecar. -/
  | listed {id : String} {alias? : Option String} (h : (id, alias?) ∈ listed) :
    RawKey w root listed (alias?.getD id)
  /-- The name of a field of an extension, as it is spelled. -/
  | field {c : Component} {f : String × Value} (hc : w.Writes root c)
    (hextension : c.kind.isBuiltin = false) (hf : f ∈ w.writtenFields c) :
    RawKey w root listed (w.target.naming.toDocument f.1)
  /-- A key of a schema that is not like one that was read. -/
  | schema {c : Component} {f : String × Value} {p : Property} {key : String}
    (hc : w.Writes root c) (hf : f ∈ w.writtenFields c) (hp : p ∈ f.2.properties)
    (hbuilt : ¬ p.schema.Readable) (hkey : ¬ p.toTree.KeysAll (· ≠ key)) : RawKey w root listed key

variable {w : Writer} {root c : Component} {listed : List (String × Option String)}

/-- What the builtin plugin writes of a component are some of its fields. -/
theorem mem_fields_of_written
    (howned : w.registry.owner? c.componentType = some ⟨Plugin.builtin, true⟩) {f : String × Value}
    (hf : f ∈ w.writtenFields c) : f ∈ c.kind.fields := by
  cases hv : w.visibleFields c with
  | error e =>
    rw [writtenFields, hv] at hf
    cases hf
  | ok fields =>
    have hshown := visibleFields_ok howned (fun _ => Builtin.write_ok) hv
    rw [writtenFields_ok hv, hshown] at hf
    exact mem_shown hf

theorem keyed_rawKey
    (howned : ∀ type ∈ Builtin.types, w.registry.owner? type = some ⟨Plugin.builtin, true⟩) :
    w.Keyed (w.Writes root) fun key => isReservedKey key = true → w.RawKey root listed key where
  free key hfree hkey := by
    rw [hfree] at hkey
    cases hkey
  shared id hshared _ := .shared hshared
  fields c hc f hf hkey := by
    cases hkind : c.kind.isBuiltin with
    | false => exact .field hc hkind hf
    | true =>
      have htype := Kind.type_mem hkind
      have hfield := mem_fields_of_written (howned _ htype) hf
      have hname := (Kind.keys_fields hkind).subset (Dict.mem_keys_of_mem hfield)
      have hspelled : w.target.naming.toDocument f.1 ∈
          Builtin.recordKeys w.target.naming c.componentType :=
        List.mem_append_left _ (List.mem_append_left _ (List.mem_map_of_mem hname))
      rw [Builtin.unreserved_recordKeys _ htype hspelled] at hkey
      cases hkey
  schemas c hc f hf p hp := by
    by_cases hread : p.schema.Readable
    · refine hread.unreserved.mono fun key hfree hkey => ?_
      rw [hfree] at hkey
      cases hkey
    · exact Tree.keysAll_of_each fun key hkey _ => .schema hc hf hp hread hkey

end Writer

/-- A reserved key in a saved document or its sidecar is the id of a component that is used more than
once or was listed, an alias, a spelled field name of an extension, or a key of a schema that was not
read. -/
theorem save_reserved_keys {extensions : List Plugin} {registry : Registry} {policy : Policy}
    {options : SaveOptions} {root : Component} {saved : Saved}
    (hregistry : Registry.ofPlugins extensions = .ok registry)
    (hsave : save registry policy options root = .ok saved) :
    ∀ t, t = saved.document ∨ saved.sidecar = some t → t.KeysAll fun key =>
      isReservedKey key = true →
        (options.writer registry policy).RawKey root options.disaggregated key := by
  have hgives := save_gives (S := (options.writer registry policy).Writes root) (F := fun _ => True)
    (fun c hc d hd => hc.kid hd)
    (Writer.keyed_rawKey fun type htype => Registry.owner?_builtin hregistry htype)
    ⟨fun _ => trivial, fun _ _ _ _ => trivial, fun _ _ _ _ _ _ _ => trivial⟩
    (fun id alias? hlisted _ => .listed hlisted) (fun _ _ _ => trivial) (.refl root)
  obtain ⟨hdocument, hsidecar⟩ := hgives.of_ok hsave
  rintro t (rfl | ht)
  · exact hdocument
  · exact hsidecar t ht

/-! A team whose shared model has a reserved key for its id. -/
namespace Sample

def reservedModel : Component := .mk 1 "constructor" "Model" none [] model.kind

def reservedUser (handle : Nat) (id : String) : Component :=
  .mk handle id id none [] (.agent reservedModel "Help." [] true .empty)

def reservedTeam : Component :=
  .mk 5 "team" "Team" none []
    (.swarm (reservedUser 3 "alice") [(reservedUser 3 "alice", reservedUser 4 "bob")])

end Sample

theorem save_reserved_keys_team : ∃ saved key,
    save .builtin .builtin .default Sample.reservedTeam = .ok saved ∧ isReservedKey key = true ∧
      (SaveOptions.default.writer .builtin .builtin).RawKey Sample.reservedTeam [] key := by
  have hregistry : Registry.ofPlugins [] = .ok .builtin := rfl
  have hcounts : (save .builtin .builtin .default Sample.reservedTeam).toOption.any
      (·.document.reservedCount != 0) = true := by decide +kernel
  obtain ⟨saved, hsave, hcount⟩ := exists_of_any hcounts
  have hkeys := save_reserved_keys hregistry hsave _ (.inl rfl)
  -- if no reserved key were named, the document would have none
  by_contra hnone
  have hfree : saved.document.Unreserved := hkeys.mono fun key hkey => by
    by_contra hreserved
    have hreserved : isReservedKey key = true := by simpa using hreserved
    exact hnone ⟨saved, key, hsave, hreserved, hkey hreserved⟩
  rw [Tree.unreserved_iff.mp hfree] at hcount
  cases hcount

/-- A document that holds a reserved key. -/
theorem save_writes_reserved_id : ∃ root saved,
    save .builtin .builtin .default root = .ok saved ∧ ¬ saved.document.Unreserved := by
  have hcounts : (save .builtin .builtin .default Sample.reservedTeam).toOption.any
      (·.document.reservedCount != 0) = true := by decide +kernel
  obtain ⟨saved, hsave, hcount⟩ := exists_of_any hcounts
  refine ⟨Sample.reservedTeam, saved, hsave, fun hfree => ?_⟩
  rw [Tree.unreserved_iff.mp hfree] at hcount
  cases hcount

end AgentGraph
