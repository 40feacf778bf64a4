import Mathlib.Logic.Relation
import AgentGraph.Load
import AgentGraph.Proofs.Catalog
/-!
# The records that a load comes to

Which records a record makes a load come to can be told from the document alone: those that stand
where its kind has components, and the sidecar entries that references there name. A record is
untangled if none that it leads to, however far, declares the id of another that led there.
-/
namespace AgentGraph
open Relation (ReflTransGen TransGen)

namespace Reader
section
variable (naming : NamingMode)

mutual
/-- The mappings in a tree that look like components; what stands in these is left alone. -/
def outermost : Tree → List (Dict Tree)
  | .map entries =>
    if looksLikeComponent naming entries then [entries] else outermostInEntries entries
  | .list items => outermostInItems items
  | _ => []
/-- The mappings in the trees of a list that look like components. -/
def outermostInItems : List Tree → List (Dict Tree)
  | [] => []
  | t :: rest => outermost t ++ outermostInItems rest
/-- The mappings in the values of a mapping that look like components. -/
def outermostInEntries : List (String × Tree) → List (Dict Tree)
  | [] => []
  | (_, t) :: rest => outermost t ++ outermostInEntries rest
end

theorem outermost_list (items : List Tree) :
    outermost naming (.list items) = items.flatMap (outermost naming) := by
  rw [outermost]
  induction items with
  | nil => rfl
  | cons t rest ih => rw [outermostInItems, ih, List.flatMap_cons]

end
end Reader

namespace Load

/-- The trees in which the kind of a record may have components: the component fields of a builtin
kind, and all the own fields of another. -/
def componentTrees (naming : NamingMode) (fields : Dict Tree) : List Tree :=
  match Dict.get? fields naming.protocol.componentType with
  | some (.string type) =>
    let record : Record := ⟨fields, naming, type⟩
    if Builtin.types.contains type then (Builtin.componentFields type).filterMap record.get?
    else (fields.filter fun pair => record.isOwnKey pair.1).map (·.2)
  | _ => []

/-- The places at which a record uses components, each a record or a reference. -/
def uses (naming : NamingMode) (fields : Dict Tree) : List (Dict Tree) :=
  (componentTrees naming fields).flatMap (Reader.outermost naming)

/-- The record that a use stands for: the one that stands there, or the entry of a reference. -/
def target? (naming : NamingMode) (sidecar : Dict (Dict Tree)) (use : Dict Tree) :
    Option (Dict Tree) :=
  match Dict.get? use naming.protocol.componentRef with
  | none => some use
  | some (.string id) => Dict.get? sidecar id
  | some _ => none

/-- The first record makes a load come to the second. -/
def LeadsTo (naming : NamingMode) (sidecar : Dict (Dict Tree)) (f g : Dict Tree) : Prop :=
  g ∈ (uses naming f).filterMap (target? naming sidecar)

def declaredId? (fields : Dict Tree) : Option String :=
  (Dict.get? fields "id").bind Tree.string?

/-- The sidecar entries of a document, wherever they stand. -/
def definedIn (naming : NamingMode) (document : Tree) : Dict (Dict Tree) :=
  match Scan.walk naming.protocol [document] .empty with
  | .ok s => s.defined
  | .error _ => []

/-- The records that a load begins with: the root, or all entries if there is no root. -/
def starts (naming : NamingMode) (document : Tree) : List (Dict Tree) :=
  let fields := document.entries?.getD []
  if Dict.has fields naming.protocol.componentType then [fields]
  else
    match Dict.get? fields naming.protocol.referencedComponents with
    | some sidecar =>
      (Dict.keys (sidecar.entries?.getD [])).filterMap (Dict.get? (definedIn naming document))
    | none => []

/-- No record that a record leads to declares the id of one that leads to it in turn, and none
declares an id that may yet be made up. -/
structure Untangled (naming : NamingMode) (sidecar : Dict (Dict Tree)) (nextId : Nat)
    (f : Dict Tree) : Prop where
  apart : ∀ g h x, ReflTransGen (LeadsTo naming sidecar) f g →
    TransGen (LeadsTo naming sidecar) g h → declaredId? g = some x → declaredId? h ≠ some x
  fresh : ∀ g x, ReflTransGen (LeadsTo naming sidecar) f g → declaredId? g = some x →
    ∀ n, nextId ≤ n → x ≠ Supply.idOf n

/-- The ids declared by a record and by those that it leads to. -/
def IdsFrom (naming : NamingMode) (sidecar : Dict (Dict Tree)) (f : Dict Tree) (x : String) :
    Prop :=
  ∃ g, ReflTransGen (LeadsTo naming sidecar) f g ∧ declaredId? g = some x

/-- The ids declared by the records that a record leads to. -/
def IdsBelow (naming : NamingMode) (sidecar : Dict (Dict Tree)) (f : Dict Tree) (x : String) :
    Prop :=
  ∃ g, TransGen (LeadsTo naming sidecar) f g ∧ declaredId? g = some x

variable {naming : NamingMode} {sidecar : Dict (Dict Tree)} {nextId : Nat} {f g : Dict Tree}
  {x : String}

theorem Untangled.step (h : Untangled naming sidecar nextId f) (hfg : LeadsTo naming sidecar f g) :
    Untangled naming sidecar nextId g where
  apart a b x ha := h.apart a b x (.head hfg ha)
  fresh a x ha := h.fresh a x (.head hfg ha)

theorem IdsFrom.below (h : IdsFrom naming sidecar g x) (hfg : LeadsTo naming sidecar f g) :
    IdsBelow naming sidecar f x := by
  obtain ⟨a, ha, hx⟩ := h
  exact ⟨a, .head' hfg ha, hx⟩

theorem IdsBelow.from (h : IdsBelow naming sidecar f x) : IdsFrom naming sidecar f x := by
  obtain ⟨a, ha, hx⟩ := h
  exact ⟨a, ha.to_reflTransGen, hx⟩

theorem idsFrom_iff :
    IdsFrom naming sidecar f x ↔ declaredId? f = some x ∨ IdsBelow naming sidecar f x := by
  constructor
  · rintro ⟨g, hg, hx⟩
    rcases Relation.reflTransGen_iff_eq_or_transGen.mp hg with rfl | hg
    · exact .inl hx
    · exact .inr ⟨g, hg, hx⟩
  · rintro (hx | hx)
    · exact ⟨f, .refl, hx⟩
    · exact hx.from

theorem idsBelow_iff :
    IdsBelow naming sidecar f x ↔ ∃ g, LeadsTo naming sidecar f g ∧ IdsFrom naming sidecar g x := by
  constructor
  · rintro ⟨g, hg, hx⟩
    obtain ⟨h, hfh, hhg⟩ := TransGen.head'_iff.mp hg
    exact ⟨h, hfh, g, hhg, hx⟩
  · rintro ⟨g, hfg, hx⟩
    exact hx.below hfg

/-- A record is untangled if what it leads to is, and declares other ids. -/
theorem Untangled.intro
    (hbelow : ∀ g, LeadsTo naming sidecar f g → Untangled naming sidecar nextId g)
    (hapart : ∀ x, declaredId? f = some x → ¬ IdsBelow naming sidecar f x)
    (hfresh : ∀ x, declaredId? f = some x → ∀ n, nextId ≤ n → x ≠ Supply.idOf n) :
    Untangled naming sidecar nextId f where
  apart g h x hg hh hx hx' := by
    rcases ReflTransGen.cases_head hg with rfl | ⟨a, hfa, hag⟩
    · exact hapart x hx ⟨h, hh, hx'⟩
    · exact (hbelow a hfa).apart g h x hag hh hx hx'
  fresh g x hg hx := by
    rcases ReflTransGen.cases_head hg with rfl | ⟨a, hfa, hag⟩
    · exact hfresh x hx
    · exact (hbelow a hfa).fresh g x hag hx

theorem leadsTo_nested {use : Dict Tree} (hu : use ∈ uses naming f)
    (href : Dict.get? use naming.protocol.componentRef = none) :
    LeadsTo naming sidecar f use := by
  refine List.mem_filterMap.mpr ⟨use, hu, ?_⟩
  rw [target?, href]

theorem leadsTo_referenced {use : Dict Tree} {id : String} (hu : use ∈ uses naming f)
    (href : Dict.get? use naming.protocol.componentRef = some (.string id))
    (hg : Dict.get? sidecar id = some g) : LeadsTo naming sidecar f g := by
  refine List.mem_filterMap.mpr ⟨use, hu, ?_⟩
  rw [target?, href]
  exact hg

theorem definedIn_of_ofDocument {supplied : Dict Component} {document : Tree} {scan : Scan}
    (h : Scan.ofDocument naming.protocol supplied document = .ok scan) :
    scan.defined = definedIn naming document := by
  obtain ⟨found, hwalk, hfound⟩ := bind_ok h
  rw [definedIn, hwalk]
  simp only at hfound
  split at hfound
  · rw [Except.ok.inj hfound]
  · cases hfound

theorem optionalText_id {type : String} {id? : Option String}
    (h : Record.optionalText ⟨f, naming, type⟩ "id" = .ok id?) : declaredId? f = id? := by
  have hkey : naming.toDocument "id" = "id" := by cases naming <;> decide
  rw [Record.optionalText, Record.get?, hkey] at h
  rw [declaredId?]
  cases hid : Dict.get? f "id" with
  | none =>
    rw [hid] at h
    exact Except.ok.inj h
  | some t =>
    rw [hid] at h
    cases t <;> simp_all [Option.filter, Tree.isNull, Tree.string?]

end Load
end AgentGraph
