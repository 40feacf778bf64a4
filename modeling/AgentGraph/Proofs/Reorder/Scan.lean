import AgentGraph.Proofs.Load.Findings
import AgentGraph.Proofs.Reorder.Runs
import AgentGraph.Proofs.Reorder.Tree
/-!
# The scan does not depend on the order of keys

Trees that differ in the order of keys say the same about references, in another order. Whether the scan
ends well depends on what is said and not on the order, and under each id it finds the same entry, up to
the order of keys.
-/
namespace AgentGraph
open List (Forall₂)

namespace Finding

/-- Two findings say the same: entries may differ in the order of keys, and faults in their texts. -/
inductive Reordered : Finding → Finding → Prop
  | reference (id : String) : Reordered (.reference id) (.reference id)
  | entry (id : String) {f g : Dict Tree} : Dict.Reordered Tree.Reordered f g →
      Reordered (.entry id f) (.entry id g)
  | fault (e e' : LoadError) : Reordered (.fault e) (.fault e')

variable {protocol : Protocol} {findings others : List Finding} {d e : Dict Tree} {t u : Tree}

theorem ofReference_reordered (h : Dict.Reordered Tree.Reordered d e) (hd : d.keys.Nodup) :
    Shuffled Reordered (ofReference protocol d) (ofReference protocol e) := by
  have hrel := h.get? hd protocol.componentRef
  unfold ofReference
  generalize Dict.get? d protocol.componentRef = target at hrel
  generalize Dict.get? e protocol.componentRef = target' at hrel
  cases hrel with
  | none => exact .nil
  | @some t u htarget =>
    cases t with
    | list ts =>
      obtain ⟨us, rfl, -⟩ := Tree.reordered_list.mp htarget
      exact .singleton (.fault _ _)
    | map f =>
      obtain ⟨g, rfl, -⟩ := Tree.reordered_map.mp htarget
      exact .singleton (.fault _ _)
    | string id =>
      obtain rfl := (Tree.reordered_scalar rfl).mp htarget
      exact .singleton (.reference id)
    | _ =>
      obtain rfl := (Tree.reordered_scalar rfl).mp htarget
      exact .singleton (.fault _ _)

theorem ofEntry_reordered {f g : String × Tree} (hkey : f.1 = g.1) (h : f.2.Reordered g.2) :
    Reordered (ofEntry f) (ofEntry g) := by
  obtain ⟨key, t⟩ := f
  obtain ⟨other, u⟩ := g
  obtain rfl : key = other := hkey
  cases t with
  | map d =>
    obtain ⟨e, rfl, hde⟩ := Tree.reordered_map.mp h
    exact .entry key hde
  | list ts =>
    obtain ⟨us, rfl, -⟩ := Tree.reordered_list.mp h
    exact .fault _ _
  | _ =>
    obtain rfl := (Tree.reordered_scalar rfl).mp h
    exact .fault _ _

theorem ofSidecar_reordered (h : Dict.Reordered Tree.Reordered d e) (hd : d.keys.Nodup) :
    Shuffled Reordered (ofSidecar protocol d) (ofSidecar protocol e) := by
  have hrel := h.get? hd protocol.referencedComponents
  unfold ofSidecar
  generalize Dict.get? d protocol.referencedComponents = sidecar at hrel
  generalize Dict.get? e protocol.referencedComponents = sidecar' at hrel
  cases hrel with
  | none => exact .nil
  | @some t u htu =>
    cases t with
    | map records =>
      obtain ⟨records', rfl, hrecords⟩ := Tree.reordered_map.mp htu
      exact Shuffled.map hrecords fun f _ g hfg => ofEntry_reordered hfg.1 hfg.2
    | list ts =>
      obtain ⟨us, rfl, -⟩ := Tree.reordered_list.mp htu
      exact .singleton (.fault _ _)
    | _ =>
      obtain rfl := (Tree.reordered_scalar rfl).mp htu
      exact .singleton (.fault _ _)

/-- Trees that differ in the order of keys say the same, in another order. -/
theorem visit_reordered (h : t.Reordered u) (ht : t.Proper) :
    Shuffled Reordered (visit protocol t) (visit protocol u) := by
  induction t using Tree.induction_on generalizing u with
  | scalar t hscalar =>
    rw [Tree.reordered_scalar hscalar] at h
    subst h
    cases u with
    | list _ => cases hscalar
    | map _ => cases hscalar
    | _ => exact .nil
  | list ts ih =>
    obtain ⟨us, rfl, hts⟩ := Tree.reordered_list.mp h
    rw [visit, visit, visitItems_eq, visitItems_eq]
    exact (Shuffled.of_forall₂ hts).flatMap fun t hmem u htu =>
      ih t hmem htu (Tree.proper_list.mp ht t hmem)
  | map d ih =>
    obtain ⟨e, rfl, hd⟩ := Tree.reordered_map.mp h
    obtain ⟨hnodup, hvalues⟩ := Tree.proper_map.mp ht
    rw [visit, visit, visitEntries_eq, visitEntries_eq, Dict.values, Dict.values,
      List.flatMap_map, List.flatMap_map]
    refine ((ofReference_reordered hd hnodup).append (ofSidecar_reordered hd hnodup)).append ?_
    exact Shuffled.flatMap hd fun f hf g hfg => ih f hf hfg.2 (hvalues f hf)

/-- The entry that a finding is, if it is one. -/
def entry? : Finding → Dict (Dict Tree)
  | .entry id record => [(id, record)]
  | _ => []

/-- The id to which a finding refers, if it does. -/
def reference? : Finding → List String
  | .reference id => [id]
  | _ => []

theorem entries_eq (findings : List Finding) : entries findings = findings.flatMap entry? := by
  induction findings with
  | nil => rfl
  | cons finding rest ih => cases finding <;> simp [entries, entry?, ih]

theorem references_eq (findings : List Finding) :
    references findings = findings.flatMap reference? := by
  induction findings with
  | nil => rfl
  | cons finding rest ih => cases finding <;> simp [references, reference?, ih]

theorem entries_reordered (h : Shuffled Reordered findings others) :
    Dict.Reordered (Dict.Reordered Tree.Reordered) (entries findings) (entries others) := by
  rw [entries_eq, entries_eq]
  refine h.flatMap fun finding _ other hsame => ?_
  cases hsame with
  | reference id => exact .nil
  | entry id hrecord => exact .singleton ⟨rfl, hrecord⟩
  | fault _ _ => exact .nil

theorem references_perm (h : Shuffled Reordered findings others) :
    (references findings).Perm (references others) := by
  rw [references_eq, references_eq]
  have hids : Shuffled (· = ·) (findings.flatMap reference?) (others.flatMap reference?) := by
    refine h.flatMap fun finding _ other hsame => ?_
    cases hsame with
    | reference id => exact .singleton rfl
    | entry id _ => exact .nil
    | fault _ _ => exact .nil
  have hperm := hids.map_perm (f := id) (g := id) fun _ _ _ heq => heq
  rwa [List.map_id, List.map_id] at hperm

/-- There is no fault just if no finding is one and no id is defined twice. -/
theorem firstFault_eq_none_iff {defined : List String} : firstFault defined findings = none ↔
    (∀ e, .fault e ∉ findings) ∧ (Dict.keys (entries findings)).Nodup ∧
      ∀ id ∈ Dict.keys (entries findings), id ∉ defined := by
  induction findings generalizing defined with
  | nil => simp [firstFault, entries]
  | cons finding rest ih =>
    cases finding with
    | reference id => simp [firstFault, entries, ih]
    | fault e =>
      refine iff_of_false (Option.some_ne_none e) fun h => ?_
      exact h.1 e List.mem_cons_self
    | entry id record =>
      rw [firstFault, entries, Dict.keys_cons, List.nodup_cons, List.forall_mem_cons]
      split
      · simp [*]
      · rename_i hfresh
        simp only [ih, List.mem_cons, reduceCtorEq, false_or, List.mem_append, List.not_mem_nil,
          or_false, not_or, hfresh, not_false_eq_true, true_and]
        refine and_congr_right fun _ => ⟨fun h => ⟨⟨fun hmem => ?_, h.1⟩, fun x hx => (h.2 x hx).1⟩,
          fun h => ⟨h.1.2, fun x hx => ⟨h.2 x hx, ?_⟩⟩⟩
        · exact (h.2 id hmem).2 rfl
        · rintro rfl
          exact h.1.1 hx

theorem missing_eq_nil_iff {supplied : Dict Component} : missing supplied findings = [] ↔
    ∀ id ∈ references findings, id ∈ Dict.keys (entries findings) ∨ id ∈ Dict.keys supplied := by
  simp only [missing, List.filter_eq_nil_iff, List.mem_eraseDups, Bool.and_eq_true,
    Bool.not_eq_true', not_and_or, Bool.not_eq_false, List.contains_iff_mem]

end Finding

namespace Scan
variable {protocol : Protocol} {supplied : Dict Component} {t u : Tree}

theorem proper_of_below (ht : t.Proper) (hu : t.Below u) : u.Proper := by
  induction hu with
  | refl => exact ht
  | @tail b c _ hc ih =>
    cases b with
    | list items => exact Tree.proper_list.mp ih c hc
    | map entries =>
      obtain ⟨f, hf, rfl⟩ := List.mem_map.mp hc
      exact (Tree.proper_map.mp ih).2 f hf
    | _ => cases hc

/-- A scan that ends well still does so with the keys in another order, and under each id it finds the
same entry. -/
theorem carried_ofDocument (h : t.Reordered u) (ht : t.Proper) :
    Carried (fun scan scan' => ∀ id, Option.Rel
        (fun f g => (Tree.map f).Proper ∧ Dict.Reordered Tree.Reordered f g)
        (Dict.get? scan.defined id) (Dict.get? scan'.defined id))
      (ofDocument protocol supplied t) (ofDocument protocol supplied u) := by
  intro scan hscan
  have hproper (id : String) (f : Dict Tree) (hf : Dict.get? scan.defined id = some f) :
      (Tree.map f).Proper := proper_of_below ht (below_of_defined hscan hf)
  rw [ofDocument_eq] at hscan
  obtain ⟨hfault, hmissing, rfl⟩ := verdict_ok hscan
  have hvisit : Shuffled Finding.Reordered (Finding.visit protocol t) (Finding.visit protocol u) :=
    Finding.visit_reordered h ht
  have hentries := Finding.entries_reordered hvisit
  obtain ⟨hsound, hnodup, -⟩ := Finding.firstFault_eq_none_iff.mp hfault
  have hfault' : Finding.firstFault [] (Finding.visit protocol u) = none := by
    refine Finding.firstFault_eq_none_iff.mpr ⟨fun e he => ?_, hentries.nodup hnodup, by simp⟩
    obtain ⟨finding, hmem, hsame⟩ := hvisit.exists_left he
    cases hsame with
    | fault e' _ => exact hsound e' hmem
  have hmissing' : Finding.missing supplied (Finding.visit protocol u) = [] := by
    rw [Finding.missing_eq_nil_iff] at hmissing ⊢
    intro id hid
    rw [← hentries.keys_perm.mem_iff]
    exact hmissing id ((Finding.references_perm hvisit).mem_iff.mpr hid)
  refine ⟨⟨Finding.entries (Finding.visit protocol u),
    (Finding.references (Finding.visit protocol u)).eraseDups⟩, ?_, fun id => ?_⟩
  · rw [ofDocument_eq, Finding.verdict, hfault']
    exact if_pos hmissing'
  · have hrel := hentries.get? hnodup id
    have hproper := hproper id
    generalize Dict.get? (Finding.entries (Finding.visit protocol t)) id = found at hrel hproper
    generalize Dict.get? (Finding.entries (Finding.visit protocol u)) id = found' at hrel
    cases hrel with
    | none => exact .none
    | some hfg => exact .some ⟨hproper _ rfl, hfg⟩

end Scan
end AgentGraph
