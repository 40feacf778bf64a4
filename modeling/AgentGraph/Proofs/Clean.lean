import AgentGraph.Load.Record
import AgentGraph.Component.Fields
import AgentGraph.Proofs.Letters
import AgentGraph.Proofs.Schema.Nodes
/-!
# Components without reserved keys

A component is clean if no mapping in its data has a reserved key: not its metadata, the parameters of a
model, the headers and data of a tool, the branches of a node, the fields of an extension, nor the
schemas of its inputs and outputs. Recovering the name of a field from the key of a document never gives
a reserved name, unless the key was one.
-/
namespace AgentGraph

/-- A property whose schema has no reserved key. -/
def Property.Clean (p : Property) : Prop := ∀ n ∈ p.schema.nodes, n.Clean

/-- Inputs and outputs without reserved keys. -/
def Slots.Clean (s : Slots) : Prop := ∀ p ∈ s.inputs ++ s.outputs, p.Clean

namespace Value

mutual
/-- The data in a value has no reserved key, and no mapping has one. A component that stands in the
value is not looked into. -/
def Clean : Value → Prop
  | .data t => t.Unreserved
  | .component _ => True
  | .property p => p.Clean
  | .list items => cleanItems items
  | .map entries => cleanEntries entries
/-- The values of a list are clean. -/
def cleanItems : List Value → Prop
  | [] => True
  | v :: rest => v.Clean ∧ cleanItems rest
/-- The values of a mapping are clean, and no key is reserved. -/
def cleanEntries : List (String × Value) → Prop
  | [] => True
  | (key, v) :: rest => isReservedKey key = false ∧ v.Clean ∧ cleanEntries rest
end

theorem cleanEntries_iff {fields : Dict Value} :
    cleanEntries fields ↔ ∀ f ∈ fields, isReservedKey f.1 = false ∧ f.2.Clean := by
  induction fields with
  | nil => simp [cleanEntries]
  | cons f rest ih => simp [cleanEntries, ih, and_assoc]

end Value

/-- What a remote tool sends has no reserved key. -/
structure Endpoint.Clean (e : Endpoint) : Prop where
  apiHeaders : (Tree.map e.apiHeaders).Unreserved
  sensitiveHeaders : (Tree.map e.sensitiveHeaders).Unreserved
  data : (Tree.map e.data).Unreserved

def ToolSite.Clean : ToolSite → Prop
  | .remote endpoint => endpoint.Clean
  | .server | .client => True

/-- No branch of a node is named by a reserved key. -/
def NodeRole.Clean : NodeRole → Prop
  | .branching mapping => ∀ key ∈ Dict.keys mapping, isReservedKey key = false
  | _ => True

/-- The data of a kind has no reserved key. -/
def Kind.Clean : Kind → Prop
  | .modelConfig c => ∀ entries, c.parameters = some entries → (Tree.map entries).Unreserved
  | .tool t => t.site.Clean ∧ t.slots.Clean
  | .agent _ _ _ _ slots => slots.Clean
  | .flow _ _ _ _ slots => slots.Clean
  | .node role slots => role.Clean ∧ slots.Clean
  | .extension _ fields => Value.cleanEntries fields
  | .swarm .. | .managerWorkers .. | .controlFlowEdge .. | .dataFlowEdge .. => True

/-- No mapping in the data of a component has a reserved key. The components that it uses are not looked
into. -/
structure Component.Clean (c : Component) : Prop where
  metadata : (Tree.map c.metadata).Unreserved
  kind : c.kind.Clean

theorem Property.Sound.clean {p : Property} (h : p.Sound) : p.Clean :=
  fun n hn => (h.nodes n hn).clean

namespace Naming

/-- An underscore that is not the first character of a key comes through only at the end. -/
theorem alternateFrom_underscore {raise : Bool} {cs ds : List Char}
    (h : alternateFrom raise cs = '_' :: ds) : ds = [] := by
  induction cs generalizing raise with
  | nil =>
    unfold alternateFrom at h
    split at h
    · exact (List.cons.inj h).2.symm
    · cases h
  | cons c rest ih =>
    unfold alternateFrom at h
    split at h
    · exact ih h
    · rename_i hc
      have hhead := (List.cons.inj h).1
      split at hhead
      · exact absurd (eq_underscore_of_toUpper hhead) hc
      · exact absurd hhead hc

/-- After an underscore something comes that is no small letter. -/
theorem alternateFrom_raised (cs : List Char) :
    ∃ d ∈ alternateFrom true cs, d.isLower = false := by
  induction cs with
  | nil => exact ⟨'_', List.mem_cons_self, by decide⟩
  | cons c rest ih =>
    unfold alternateFrom
    split
    · exact ih
    · exact ⟨c.toUpper, List.mem_cons_self, not_isLower_toUpper c⟩

/-- What comes out in small letters was not changed. -/
theorem alternateFrom_lower {cs : List Char}
    (h : ∀ d ∈ alternateFrom false cs, d.isLower = true) : alternateFrom false cs = cs := by
  induction cs with
  | nil => rfl
  | cons c rest ih =>
    unfold alternateFrom at h ⊢
    split at h
    · obtain ⟨d, hd, hlower⟩ := alternateFrom_raised rest
      simp [h d hd] at hlower
    · rename_i hc
      rw [if_neg hc, ih (List.forall_mem_cons.mp h).2]
      rfl

/-- No other key is turned into a reserved one. -/
theorem reserved_of_toAlternate {key : String} (h : isReservedKey (toAlternate key) = true) :
    isReservedKey key = true := by
  have hlist : ∀ {name : String}, toAlternate key = name → alternateChars key.toList = name.toList :=
    fun hname => by rw [← hname, toAlternate, String.toList_ofList]
  cases hkey : key.toList with
  | nil =>
    have hempty : key = "" := String.toList_inj.mp hkey
    subst hempty
    exact absurd h (by decide)
  | cons c rest =>
    have hcases : toAlternate key = "__proto__" ∨ toAlternate key = "constructor" ∨
        toAlternate key = "prototype" := by simpa [isReservedKey, reservedKeys] using h
    simp only [hkey, alternateChars] at hlist
    have hlower {name : String} {head : Char} {tail : List Char} (hname : toAlternate key = name)
        (hchars : name.toList = head :: tail) (htail : ∀ d ∈ tail, d.isLower = true) :
        isReservedKey key = true := by
      obtain ⟨hhead, hrest⟩ := List.cons.inj ((hlist hname).trans hchars)
      have hsame : alternateFrom false rest = rest := alternateFrom_lower (hrest ▸ htail)
      have hback : key = toAlternate key := by
        rw [hname, ← String.toList_inj, hkey, hchars, hhead, ← hsame, hrest]
      rwa [hback]
    rcases hcases with hname | hname | hname
    · -- the second underscore would be the last character
      have hchars := (List.cons.inj (hlist hname)).2
      exact absurd (alternateFrom_underscore hchars) (by decide)
    · have hchars : "constructor".toList = ['c', 'o', 'n', 's', 't', 'r', 'u', 'c', 't', 'o', 'r'] := by
        decide
      exact hlower hname hchars (by simp)
    · have hchars : "prototype".toList = ['p', 'r', 'o', 't', 'o', 't', 'y', 'p', 'e'] := by decide
      exact hlower hname hchars (by simp)

end Naming

namespace Record
variable {r : Record} {declared : List String} {field key : String}

/-- Reserved names are spelled as they are, in either style. -/
theorem toDocument_reserved {naming : NamingMode} (h : isReservedKey key = true) :
    naming.toDocument key = key := by
  have hall : ∀ name ∈ reservedKeys, naming.toDocument name = name := by cases naming <;> decide
  exact hall key (List.contains_iff_mem.mp h)

/-- A key that is not reserved stands for a field that is not, whatever names are declared. -/
theorem internalName_unreserved (h : isReservedKey key = false) :
    isReservedKey (r.internalName declared key) = false := by
  by_contra hreserved
  rw [Bool.not_eq_false] at hreserved
  unfold internalName at hreserved
  cases hfind : declared.find? (r.naming.toDocument · == key) with
  | some name =>
    rw [hfind, Option.getD_some] at hreserved
    have hname := List.find?_some hfind
    simp only [toDocument_reserved hreserved, beq_iff_eq] at hname
    rw [hname, h] at hreserved
    cases hreserved
  | none =>
    rw [hfind, Option.getD_none] at hreserved
    have hkey : isReservedKey key = true := by
      cases hnaming : r.naming with
      | canonical =>
        rw [hnaming] at hreserved
        exact Naming.reserved_of_toAlternate hreserved
      | alternate =>
        rw [hnaming] at hreserved
        exact hreserved
    rw [h] at hkey
    cases hkey

theorem texts_keys {entries : Dict Tree} {found : Dict String}
    (hfound : r.texts field entries = .ok found) : Dict.keys found = Dict.keys entries := by
  induction entries generalizing found with
  | nil =>
    obtain rfl := Except.ok.inj hfound
    rfl
  | cons pair rest ih =>
    unfold texts at hfound
    split at hfound
    · obtain ⟨others, hothers, hfound⟩ := bind_ok hfound
      obtain rfl := Except.ok.inj hfound
      exact congrArg _ (ih hothers)
    · cases hfound

section
variable (h : (Tree.map r.fields).Unreserved)
include h

theorem unreserved_get? {value : Tree} (hvalue : r.get? field = some value) :
    value.Unreserved := by
  obtain ⟨hget, -⟩ := Option.filter_eq_some_iff.mp hvalue
  exact (Tree.keysAll_map.mp h _ (Dict.mem_of_get? hget)).2

theorem unreserved_mapping? {entries : Dict Tree} (hentries : r.mapping? field = .ok (some entries)) :
    (Tree.map entries).Unreserved := by
  unfold mapping? at hentries
  split at hentries
  · cases hentries
  · rename_i found hget
    cases hentries
    exact unreserved_get? h hget
  · cases hentries

theorem unreserved_mapping {entries : Dict Tree} (hentries : r.mapping field = .ok entries) :
    (Tree.map entries).Unreserved := by
  obtain ⟨found, hfound, hentries⟩ := bind_ok hentries
  obtain rfl := Except.ok.inj hentries
  cases found with
  | none => exact Tree.keysAll_empty
  | some entries => exact unreserved_mapping? h hfound

theorem unreserved_textMapping {found : Dict String} (hfound : r.textMapping field = .ok found) :
    ∀ key ∈ Dict.keys found, isReservedKey key = false := by
  obtain ⟨entries, hentries, hfound⟩ := bind_ok hfound
  rw [texts_keys hfound]
  have hkeys := Tree.keysAll_map.mp (unreserved_mapping h hentries)
  intro key hkey
  obtain ⟨pair, hpair, rfl⟩ := List.mem_map.mp hkey
  exact (hkeys pair hpair).1

/-- The own fields of a record have no reserved names and hold no reserved keys. -/
theorem unreserved_ownFields : ∀ f ∈ r.ownFields declared,
    isReservedKey f.1 = false ∧ f.2.Unreserved := by
  intro f hf
  obtain ⟨pair, hpair, rfl⟩ := List.mem_map.mp hf
  obtain ⟨hkey, ht⟩ := Tree.keysAll_map.mp h pair (List.mem_of_mem_filter hpair)
  exact ⟨internalName_unreserved hkey, ht⟩

end
end Record
end AgentGraph
