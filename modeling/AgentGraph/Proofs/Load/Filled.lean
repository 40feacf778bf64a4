import AgentGraph.Proofs.Load.Paired
import AgentGraph.Proofs.OneObject
/-!
# Records and the components read from them

A component that was built goes back to a record: it has the type, the name and the other texts of
the record, the id that the record declares, and its fields were filled by what the uses of the
record gave.
-/
namespace AgentGraph.Load
open List (Forall₂)
variable {naming : NamingMode} {G G' : Dict Tree → Component → Prop} {f : Dict Tree} {k : Kind}

/-- The fields of a kind were filled by what was given for the uses of a record. -/
inductive Filled (naming : NamingMode) (G : Dict Tree → Component → Prop) (f : Dict Tree) :
    Kind → Prop
  | builtin {k : Kind} : k.isBuiltin = true → Forall₂ G (uses naming f) (heldComponents k.fields) →
      Filled naming G f k
  /-- In a bag, of two fields of one name what was read for the later one stays. -/
  | bag {type : String} {declared : List String} {values : List (String × Value)} :
      Forall₂ (Reader.ReadField naming G) (Record.ownFields ⟨f, naming, type⟩ declared) values →
      Filled naming G f (.extension type (Dict.ofPairs values))

/-- A component was read from a record. -/
structure ReadFrom (naming : NamingMode) (G : Dict Tree → Component → Prop) (f : Dict Tree)
    (c : Component) : Prop where
  type : typeOf naming f = .ok c.componentType
  id : ∀ x, declaredId? f = some x → c.id = x
  name : Record.requiredText ⟨f, naming, c.componentType⟩ "name" = .ok c.name
  description : Record.optionalText ⟨f, naming, c.componentType⟩ "description" = .ok c.description
  metadata : Record.mapping ⟨f, naming, c.componentType⟩ "metadata" = .ok c.metadata
  filled : Filled naming G f c.kind

theorem Filled.mono (h : Filled naming G f k) (himp : ∀ use c, G use c → G' use c) :
    Filled naming G' f k := by
  cases h with
  | builtin hk hheld => exact .builtin hk (hheld.imp himp)
  | bag hvalues => exact .bag (hvalues.imp fun _ _ h => ⟨h.1, h.2.imp himp⟩)

theorem ReadFrom.mono {c : Component} (h : ReadFrom naming G f c)
    (himp : ∀ use c, G use c → G' use c) : ReadFrom naming G' f c :=
  { h with filled := h.filled.mono himp }

/-- All components that a kind holds were given for something. -/
theorem Filled.held {A : Component → Prop} (h : Filled naming G f k)
    (himp : ∀ use c, G use c → A c) : ∀ c ∈ heldComponents k.fields, A c := by
  have hgiven {uses : List (Dict Tree)} {cs : List Component} (hcs : Forall₂ G uses cs) :
      ∀ c ∈ cs, A c := by
    intro c hc
    obtain ⟨use, -, huse⟩ := exists_left hcs hc
    exact himp use c huse
  cases h with
  | builtin hk hheld => exact hgiven hheld
  | @bag type declared values hvalues =>
    refine forall_held_merge (fun _ hc => nomatch hc) fun c hc => ?_
    rw [heldComponents, Value.componentsOfEntries_eq] at hc
    obtain ⟨p, hp, hc⟩ := List.mem_flatMap.mp hc
    obtain ⟨own, -, -, hread⟩ := exists_left hvalues hp
    exact hgiven hread c hc

/-- The uses of a record of a builtin type are those in its component fields. -/
theorem uses_builtin {type : String} (htype : typeOf naming f = .ok type)
    (hbuiltin : type ∈ Builtin.types) :
    uses naming f = Builtin.usesIn naming ⟨f, naming, type⟩ (Builtin.componentFields type) := by
  have htrees : componentTrees naming f =
      (Builtin.componentFields type).filterMap (Record.get? ⟨f, naming, type⟩) := by
    simp only [componentTrees, typeOf_ok htype, List.contains_iff_mem.mpr hbuiltin, if_true]
  rw [uses, htrees, Builtin.usesIn]
  induction Builtin.componentFields type with
  | nil => rfl
  | cons field rest ih =>
    rw [List.flatMap_cons, ← ih, Reader.usesAt, List.filterMap_cons]
    cases Record.get? ⟨f, naming, type⟩ field <;> rfl

/-- Whichever plugin reads a record, it fills the fields of the kind with what is given for the uses
of the record. -/
theorem delivers_pluginRead {I : LoadState → Prop} {registry : Registry} {reader : Reader}
    {type : String} {plugin : Plugin} (hplugins : KnownPlugins registry)
    (htype : typeOf reader.naming f = .ok type)
    (hplugin : pluginOf registry type = .ok plugin)
    (hr : reader.Pairs I G (· ∈ uses reader.naming f)) :
    Delivers I (plugin.read reader ⟨f, reader.naming, type⟩) fun k =>
      k.componentType = type ∧ Filled reader.naming G f k := by
  rcases hplugins type plugin hplugin with
    ⟨hbuiltin, rfl⟩ | ⟨hother, name, version, types, declared, rfl⟩
  · have huses := uses_builtin htype hbuiltin
    rw [huses] at hr
    refine (Builtin.pairs_read hr fun use huse => huse).mono fun k hk => ⟨hk.type, ?_⟩
    exact .builtin hk.builtin (huses ▸ hk.held)
  · have hasked : ∀ own ∈ Record.ownFields ⟨f, reader.naming, type⟩ declared,
        ∀ use ∈ Reader.outermost reader.naming own.2, use ∈ uses reader.naming f := by
      intro own hown use huse
      obtain ⟨pair, hpair, rfl⟩ := List.mem_map.mp hown
      refine List.mem_flatMap.mpr ⟨pair.2, ?_, huse⟩
      have hfalse : ¬ Builtin.types.contains type = true := by simpa using hother
      simp only [componentTrees, typeOf_ok htype, if_neg hfalse]
      exact List.mem_map.mpr ⟨pair, hpair, rfl⟩
    refine (Reader.pairs_bagOf hr hasked).bind fun fields hfields => .pure ⟨rfl, ?_⟩
    obtain ⟨values, hvalues, rfl⟩ := hfields
    exact .bag hvalues

end AgentGraph.Load
