import Mathlib.Logic.Relation
import AgentGraph.Proofs.Load.Scan
/-!
# The findings of a document

What a document says about references can be read off by plain recursion: each mapping says what it
refers to, then which entries it has for others, and then what stands in it says its own. The scan
walks the same document with a worklist. It comes to the verdict that these findings give.
-/
namespace AgentGraph

/-- One thing that a document says about references. -/
inductive Finding where
  | reference (id : String)
  | entry (id : String) (record : Dict Tree)
  | fault (error : LoadError)

namespace Finding

/-- What a mapping refers to. -/
def ofReference (protocol : Protocol) (entries : Dict Tree) : List Finding :=
  match Dict.get? entries protocol.componentRef with
  | none => []
  | some (.string id) => [.reference id]
  | some other =>
    [.fault (.malformedReference
      (protocol.componentRef ++ " must be a string, got " ++ other.kindName))]

def ofEntry (pair : String × Tree) : Finding :=
  match pair.2 with
  | .map fields => .entry pair.1 fields
  | other =>
    .fault (.malformedSidecar ("entry " ++ pair.1 ++ " is " ++ other.kindName ++ ", not a mapping"))

/-- The entries that a mapping has for others. -/
def ofSidecar (protocol : Protocol) (entries : Dict Tree) : List Finding :=
  match Dict.get? entries protocol.referencedComponents with
  | none => []
  | some (.map records) => records.map ofEntry
  | some other =>
    [.fault (.malformedSidecar
      (protocol.referencedComponents ++ " must be a mapping, got " ++ other.kindName))]

mutual
/-- All that a tree says, a mapping before what stands in it, in the order of keys. -/
def visit (protocol : Protocol) : Tree → List Finding
  | .map entries =>
    ofReference protocol entries ++ ofSidecar protocol entries ++ visitEntries protocol entries
  | .list items => visitItems protocol items
  | _ => []
/-- All that the trees of a list say. -/
def visitItems (protocol : Protocol) : List Tree → List Finding
  | [] => []
  | t :: rest => visit protocol t ++ visitItems protocol rest
/-- All that the values of a mapping say. -/
def visitEntries (protocol : Protocol) : List (String × Tree) → List Finding
  | [] => []
  | (_, t) :: rest => visit protocol t ++ visitEntries protocol rest
end

/-- The ids that are referred to, as often as they are. -/
def references : List Finding → List String
  | [] => []
  | .reference id :: rest => id :: references rest
  | _ :: rest => references rest

/-- The entries that are defined. -/
def entries : List Finding → Dict (Dict Tree)
  | [] => []
  | .entry id record :: rest => (id, record) :: entries rest
  | _ :: rest => entries rest

/-- The first fault: one that a tree shows by itself, or an entry of an id that had one before. -/
def firstFault : List String → List Finding → Option LoadError
  | _, [] => none
  | _, .fault e :: _ => some e
  | defined, .entry id _ :: rest =>
    if id ∈ defined then some (.duplicateEntry id) else firstFault (defined ++ [id]) rest
  | defined, .reference _ :: rest => firstFault defined rest

/-- The ids that are referred to but neither defined nor supplied, each once, in the order in which
they are first referred to. -/
def missing (supplied : Dict Component) (findings : List Finding) : List String :=
  (references findings).eraseDups.filter fun id =>
    !(Dict.keys (entries findings)).contains id && !(Dict.keys supplied).contains id

/-- What comes of the findings: the first fault, else all that is missing, else what was found. -/
def verdict (supplied : Dict Component) (findings : List Finding) : Except LoadError Scan :=
  match firstFault [] findings with
  | some e => .error e
  | none =>
    if missing supplied findings = [] then
      .ok ⟨entries findings, (references findings).eraseDups⟩
    else .error (.missingReferences (missing supplied findings))

/-- What a tree itself says. -/
def own (protocol : Protocol) : Tree → List Finding
  | .map entries => ofReference protocol entries ++ ofSidecar protocol entries
  | _ => []

variable {protocol : Protocol}

theorem visitItems_eq (ts : List Tree) : visitItems protocol ts = ts.flatMap (visit protocol) := by
  induction ts with
  | nil => rfl
  | cons t rest ih => rw [visitItems, ih, List.flatMap_cons]

theorem visitEntries_eq (d : Dict Tree) :
    visitEntries protocol d = (Dict.values d).flatMap (visit protocol) := by
  induction d with
  | nil => rfl
  | cons pair rest ih =>
    have hvalues : Dict.values (pair :: rest) = pair.2 :: Dict.values rest := rfl
    rw [visitEntries, ih, hvalues, List.flatMap_cons]

theorem visit_eq (t : Tree) :
    visit protocol t = own protocol t ++ t.children.flatMap (visit protocol) := by
  cases t with
  | map entries => simp [visit, own, Tree.children, visitEntries_eq]
  | list items => simp [visit, own, Tree.children, visitItems_eq]
  | _ => rfl

end Finding

namespace Scan
variable {protocol : Protocol} {s : Scan}

/-- Takes in one finding. -/
def take (s : Scan) : Finding → Except LoadError Scan
  | .reference id => .ok (s.use id)
  | .entry id record =>
    if Dict.has s.defined id then .error (.duplicateEntry id)
    else .ok { s with defined := s.defined ++ [(id, record)] }
  | .fault e => .error e

theorem noteReference_eq (entries : Dict Tree) :
    noteReference protocol entries s = (Finding.ofReference protocol entries).foldlM take s := by
  unfold noteReference Finding.ofReference
  cases Dict.get? entries protocol.componentRef with
  | none => rfl
  | some target => cases target <;> rfl

theorem noteEntries_eq (records : Dict Tree) :
    noteEntries records s = (records.map Finding.ofEntry).foldlM take s := by
  induction records generalizing s with
  | nil => rfl
  | cons pair rest ih =>
    obtain ⟨id, record⟩ := pair
    rw [List.map_cons, List.foldlM_cons]
    cases record with
    | map fields =>
      simp only [noteEntries, Finding.ofEntry, take]
      by_cases hhas : Dict.has s.defined id = true
      · rw [if_pos hhas, if_pos hhas]
        rfl
      · rw [if_neg hhas, if_neg hhas]
        exact ih
    | _ => rfl

theorem noteSidecar_eq (entries : Dict Tree) :
    noteSidecar protocol entries s = (Finding.ofSidecar protocol entries).foldlM take s := by
  unfold noteSidecar Finding.ofSidecar
  cases Dict.get? entries protocol.referencedComponents with
  | none => rfl
  | some sidecar =>
    cases sidecar with
    | map records => exact noteEntries_eq records
    | _ => rfl

theorem note_eq (t : Tree) : note protocol t s = (Finding.own protocol t).foldlM take s := by
  cases t with
  | map entries =>
    simp only [note, Finding.own, List.foldlM_append, noteReference_eq, noteSidecar_eq]
  | _ => rfl

/-- The worklist takes the findings in the order of the recursion. -/
theorem walk_eq (stack : List Tree) (s : Scan) :
    walk protocol stack s = (stack.flatMap (Finding.visit protocol)).foldlM take s := by
  fun_induction walk protocol stack s with
  | case1 s => rfl
  | case2 s t rest e hnote =>
    rw [note_eq] at hnote
    rw [List.flatMap_cons, Finding.visit_eq, List.append_assoc, List.foldlM_append, hnote]
    rfl
  | case3 s t rest s' hnote ih =>
    rw [note_eq] at hnote
    rw [List.flatMap_cons, Finding.visit_eq, List.append_assoc, List.foldlM_append, hnote, ih,
      List.flatMap_append]
    rfl

theorem eraseDups_concat (ids : List String) (id : String) :
    (ids ++ [id]).eraseDups =
      if ids.eraseDups.contains id then ids.eraseDups else ids.eraseDups ++ [id] := by
  have hmem : id ∈ ids.eraseDups ↔ id ∈ ids := List.mem_eraseDups
  rw [List.eraseDups_append]
  by_cases h : id ∈ ids
  · simp [List.removeAll, h, hmem]
  · simp [List.removeAll, h, hmem, List.eraseDups_cons]

/-- Findings are taken in until the first fault; the uses are those taken so far, each once. -/
theorem foldlM_take {findings : List Finding} {defined : Dict (Dict Tree)} {ids : List String} :
    findings.foldlM take ⟨defined, ids.eraseDups⟩ =
      match Finding.firstFault (Dict.keys defined) findings with
      | some e => .error e
      | none => .ok ⟨defined ++ Finding.entries findings,
          (ids ++ Finding.references findings).eraseDups⟩ := by
  induction findings generalizing defined ids with
  | nil => simp [Finding.firstFault, Finding.entries, Finding.references]; rfl
  | cons finding rest ih =>
    rw [List.foldlM_cons]
    cases finding with
    | reference id =>
      have huse : use ⟨defined, ids.eraseDups⟩ id = ⟨defined, (ids ++ [id]).eraseDups⟩ := by
        rw [use, eraseDups_concat]
        split <;> rfl
      simp only [take, huse, Finding.firstFault, Finding.entries, Finding.references]
      have hrest : rest.foldlM take ⟨defined, (ids ++ [id]).eraseDups⟩ = _ := ih
      rw [List.append_assoc, List.singleton_append] at hrest
      exact hrest
    | entry id record =>
      simp only [take, Finding.firstFault, Finding.entries, Finding.references, ← Dict.has_iff]
      by_cases hhas : Dict.has defined id = true
      · rw [if_pos hhas, if_pos hhas]
        rfl
      · rw [if_neg hhas, if_neg hhas]
        have hkeys : Dict.keys defined ++ [id] = Dict.keys (defined ++ [(id, record)]) := by simp
        have hrest : rest.foldlM take ⟨defined ++ [(id, record)], ids.eraseDups⟩ = _ := ih
        rw [List.append_assoc, List.singleton_append] at hrest
        rw [hkeys]
        exact hrest
    | fault e => rfl

theorem has_eq_contains {α : Type} (d : Dict α) (key : String) :
    Dict.has d key = (Dict.keys d).contains key := by
  rw [Bool.eq_iff_iff, Dict.has_iff, List.contains_iff_mem]

/-- The scan comes to the verdict that the findings of the document give. -/
theorem ofDocument_eq (protocol : Protocol) (supplied : Dict Component) (document : Tree) :
    ofDocument protocol supplied document =
      Finding.verdict supplied (Finding.visit protocol document) := by
  have hwalk : walk protocol [document] empty =
      match Finding.firstFault [] (Finding.visit protocol document) with
      | some e => .error e
      | none => .ok ⟨Finding.entries (Finding.visit protocol document),
          (Finding.references (Finding.visit protocol document)).eraseDups⟩ := by
    rw [walk_eq, List.flatMap_singleton]
    exact @foldlM_take _ [] []
  unfold ofDocument Finding.verdict
  rw [hwalk]
  cases Finding.firstFault [] (Finding.visit protocol document) with
  | some e => rfl
  | none =>
    have hmissing : Scan.missing supplied ⟨Finding.entries (Finding.visit protocol document),
        (Finding.references (Finding.visit protocol document)).eraseDups⟩ =
        Finding.missing supplied (Finding.visit protocol document) := by
      unfold Scan.missing Finding.missing
      refine List.filter_congr fun id _ => ?_
      rw [has_eq_contains, has_eq_contains]
    simp only [Bind.bind, Except.bind, hmissing, List.isEmpty_iff]
    split <;> rfl

end Scan

/-- A tree and all that stands in it, however deep. -/
def Tree.Below (t u : Tree) : Prop := Relation.ReflTransGen (fun a b => b ∈ a.children) t u

namespace Finding
variable {protocol : Protocol} {findings : List Finding} {t u : Tree} {finding : Finding}
  {id : String} {record : Dict Tree}

theorem mem_references (h : .reference id ∈ findings) : id ∈ references findings := by
  induction findings with
  | nil => cases h
  | cons first rest ih =>
    rcases List.mem_cons.mp h with rfl | hrest
    · exact List.mem_cons_self
    · cases first with
      | reference other => exact List.mem_cons_of_mem _ (ih hrest)
      | entry other record => exact ih hrest
      | fault e => exact ih hrest

theorem mem_of_mem_entries (h : (id, record) ∈ entries findings) :
    .entry id record ∈ findings := by
  induction findings with
  | nil => cases h
  | cons first rest ih =>
    cases first with
    | reference other => exact List.mem_cons_of_mem _ (ih h)
    | entry other record' =>
      rcases List.mem_cons.mp h with heq | h
      · cases heq
        exact List.mem_cons_self
      · exact List.mem_cons_of_mem _ (ih h)
    | fault e => exact List.mem_cons_of_mem _ (ih h)

theorem mem_keys_entries (h : .entry id record ∈ findings) : id ∈ Dict.keys (entries findings) := by
  induction findings with
  | nil => cases h
  | cons first rest ih =>
    rcases List.mem_cons.mp h with rfl | hrest
    · exact List.mem_cons_self
    · cases first with
      | reference other => exact ih hrest
      | entry other record' => exact List.mem_cons_of_mem _ (ih hrest)
      | fault e => exact ih hrest

theorem faultless {defined : List String} (h : firstFault defined findings = none)
    (e : LoadError) : .fault e ∉ findings := by
  induction findings generalizing defined with
  | nil => exact List.not_mem_nil
  | cons first rest ih =>
    cases first with
    | reference id => simpa using ih h
    | entry id record =>
      rw [firstFault] at h
      split at h
      · cases h
      · simpa using ih h
    | fault e => cases h

theorem mem_visit_of_own (h : finding ∈ own protocol t) : finding ∈ visit protocol t := by
  rw [visit_eq]
  exact List.mem_append_left _ h

theorem mem_visit_of_below (htu : t.Below u) (h : finding ∈ visit protocol u) :
    finding ∈ visit protocol t := by
  induction htu using Relation.ReflTransGen.head_induction_on with
  | refl => exact h
  | head hstep _ ih =>
    rw [visit_eq]
    exact List.mem_append_right _ (List.mem_flatMap.mpr ⟨_, hstep, ih⟩)

/-- An entry that a mapping has for others stands in it. -/
theorem below_of_own (h : .entry id record ∈ own protocol t) : t.Below (.map record) := by
  cases t with
  | map fields =>
    rcases List.mem_append.mp h with h | h
    · unfold ofReference at h
      split at h <;> simp at h
    · unfold ofSidecar at h
      split at h
      · cases h
      · rename_i records hget
        obtain ⟨⟨key, value⟩, hpair, hentry⟩ := List.mem_map.mp h
        have hsidecar : Tree.map records ∈ (Tree.map fields).children :=
          List.mem_map.mpr ⟨_, Dict.mem_of_get? hget, rfl⟩
        cases value with
        | map entries =>
          cases hentry
          have hrecord : Tree.map record ∈ (Tree.map records).children :=
            List.mem_map.mpr ⟨_, hpair, rfl⟩
          exact .tail (.single hsidecar) hrecord
        | _ => cases hentry
      · simp at h
  | _ => cases h

mutual
theorem below_of_visit {t : Tree} (h : .entry id record ∈ visit protocol t) :
    t.Below (.map record) := by
  match t with
  | .map fields =>
    rcases List.mem_append.mp h with h | h
    · exact below_of_own h
    · obtain ⟨u, hu, hbelow⟩ := below_of_visitEntries h
      exact .head hu hbelow
  | .list items =>
    obtain ⟨u, hu, hbelow⟩ := below_of_visitItems h
    exact .head hu hbelow
  | .null | .bool _ | .number _ | .string _ => cases h
theorem below_of_visitItems {ts : List Tree} (h : .entry id record ∈ visitItems protocol ts) :
    ∃ u ∈ ts, u.Below (.map record) := by
  match ts with
  | [] => cases h
  | t :: rest =>
    rcases List.mem_append.mp h with h | h
    · exact ⟨t, List.mem_cons_self, below_of_visit h⟩
    · obtain ⟨u, hu, hbelow⟩ := below_of_visitItems h
      exact ⟨u, List.mem_cons_of_mem _ hu, hbelow⟩
theorem below_of_visitEntries {d : List (String × Tree)}
    (h : .entry id record ∈ visitEntries protocol d) :
    ∃ u ∈ Dict.values d, u.Below (.map record) := by
  match d with
  | [] => cases h
  | (key, t) :: rest =>
    rcases List.mem_append.mp h with h | h
    · exact ⟨t, List.mem_cons_self, below_of_visit h⟩
    · obtain ⟨u, hu, hbelow⟩ := below_of_visitEntries h
      exact ⟨u, List.mem_cons_of_mem _ hu, hbelow⟩
end

end Finding

namespace Scan
variable {protocol : Protocol} {supplied : Dict Component} {document : Tree} {scan : Scan}

theorem verdict_ok {findings : List Finding} (h : Finding.verdict supplied findings = .ok scan) :
    Finding.firstFault [] findings = none ∧ Finding.missing supplied findings = [] ∧
      scan = ⟨Finding.entries findings, (Finding.references findings).eraseDups⟩ := by
  unfold Finding.verdict at h
  split at h
  · cases h
  · rename_i hfault
    split at h
    · rename_i hmissing
      exact ⟨hfault, hmissing, (Except.ok.inj h).symm⟩
    · cases h

/-- The entries that a scan found stand in the document. -/
theorem below_of_defined (h : ofDocument protocol supplied document = .ok scan) {id : String}
    {record : Dict Tree} (hid : Dict.get? scan.defined id = some record) :
    document.Below (.map record) := by
  rw [ofDocument_eq] at h
  obtain ⟨-, -, rfl⟩ := verdict_ok h
  exact Finding.below_of_visit (Finding.mem_of_mem_entries (Dict.mem_of_get? hid))

/-- After a scan that ended well, what stands under the key of references is a text, and it names an
entry or a component that was supplied. -/
theorem known_of_reference (h : ofDocument protocol supplied document = .ok scan)
    {entries : Dict Tree} (hbelow : document.Below (.map entries)) {target : Tree}
    (htarget : Dict.get? entries protocol.componentRef = some target) :
    ∃ id, target = .string id ∧ (id ∈ Dict.keys scan.defined ∨ id ∈ Dict.keys supplied) := by
  rw [ofDocument_eq] at h
  obtain ⟨hfault, hmissing, rfl⟩ := verdict_ok h
  have hvisited (finding : Finding) (hfinding : finding ∈ Finding.ofReference protocol entries) :
      finding ∈ Finding.visit protocol document :=
    Finding.mem_visit_of_below hbelow (Finding.mem_visit_of_own (List.mem_append_left _ hfinding))
  rw [Finding.ofReference, htarget] at hvisited
  cases target with
  | string id =>
    have hreference := Finding.mem_references (hvisited _ List.mem_cons_self)
    have hknown := List.filter_eq_nil_iff.mp hmissing id (List.mem_eraseDups.mpr hreference)
    exact ⟨id, rfl, by simpa [or_iff_not_imp_left] using hknown⟩
  | _ => exact absurd (hvisited _ List.mem_cons_self) (Finding.faultless hfault _)

/-- After a scan that ended well, what stands under the key of the sidecar is a mapping, and all its
entries were found. -/
theorem defined_of_sidecar (h : ofDocument protocol supplied document = .ok scan)
    {fields : Dict Tree} (hbelow : document.Below (.map fields)) {sidecar : Tree}
    (hsidecar : Dict.get? fields protocol.referencedComponents = some sidecar) :
    ∃ records, sidecar = .map records ∧ ∀ id ∈ Dict.keys records, id ∈ Dict.keys scan.defined := by
  rw [ofDocument_eq] at h
  obtain ⟨hfault, -, rfl⟩ := verdict_ok h
  have hvisited (finding : Finding) (hfinding : finding ∈ Finding.ofSidecar protocol fields) :
      finding ∈ Finding.visit protocol document :=
    Finding.mem_visit_of_below hbelow (Finding.mem_visit_of_own (List.mem_append_right _ hfinding))
  rw [Finding.ofSidecar, hsidecar] at hvisited
  cases sidecar with
  | map records =>
    refine ⟨records, rfl, fun id hid => ?_⟩
    obtain ⟨⟨key, record⟩, hpair, rfl⟩ := List.mem_map.mp hid
    have hentry := hvisited _ (List.mem_map.mpr ⟨_, hpair, rfl⟩)
    cases record with
    | map entries => exact Finding.mem_keys_entries hentry
    | _ => exact absurd hentry (Finding.faultless hfault _)
  | _ => exact absurd (hvisited _ List.mem_cons_self) (Finding.faultless hfault _)

theorem noteReference_not_circular {s : Scan} {entries : Dict Tree} {x : String} :
    noteReference protocol entries s ≠ .error (.circularReference x) := by
  unfold noteReference
  split <;> rintro ⟨⟩

theorem noteEntries_not_circular {s : Scan} {records : Dict Tree} {x : String} :
    noteEntries records s ≠ .error (.circularReference x) := by
  induction records generalizing s with
  | nil => rintro ⟨⟩
  | cons pair rest ih =>
    unfold noteEntries
    split
    · split
      · rintro ⟨⟩
      · exact ih
    · rintro ⟨⟩

theorem noteSidecar_not_circular {s : Scan} {entries : Dict Tree} {x : String} :
    noteSidecar protocol entries s ≠ .error (.circularReference x) := by
  unfold noteSidecar
  split
  · rintro ⟨⟩
  · exact noteEntries_not_circular
  · rintro ⟨⟩

theorem note_not_circular {s : Scan} {t : Tree} {x : String} :
    note protocol t s ≠ .error (.circularReference x) := by
  cases t with
  | map entries =>
    intro h
    rcases bind_error h with h | ⟨s', -, h⟩
    · exact noteReference_not_circular h
    · exact noteSidecar_not_circular h
  | _ => rintro ⟨⟩

/-- The scan follows no reference, so it meets no cycle. -/
theorem ofDocument_not_circular {x : String} :
    ofDocument protocol supplied document ≠ .error (.circularReference x) := by
  have hwalk (stack : List Tree) (s : Scan) :
      walk protocol stack s ≠ .error (.circularReference x) := by
    fun_induction walk protocol stack s with
    | case1 s => rintro ⟨⟩
    | case2 s t rest e hnote =>
      rintro ⟨⟩
      exact note_not_circular hnote
    | case3 s t rest s' hnote ih => exact ih
  intro h
  rcases bind_error h with h | ⟨s, -, h⟩
  · exact hwalk _ _ h
  · simp only at h
    split at h <;> cases h

end Scan
end AgentGraph
