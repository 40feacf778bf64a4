import AgentGraph.Proofs.Load.Makes
import AgentGraph.Proofs.Load.Stock
import AgentGraph.Proofs.Load.Values
/-!
# What a reading holds

A reader that is asked only for what stands at the places of a record where components are used
hands objects out that were built. Then all that the kind read from the record holds was built,
whichever plugin reads it.
-/
namespace AgentGraph
open Load

/-- A reader that, asked for a use that passes a test, gives an object that was built. -/
structure Reader.Serves (first : Nat) (A : String → Prop) (H : Dict Tree → Prop)
    (reader : Reader) : Prop where
  nested : ∀ use U s, (Reader.looksLikeComponent reader.naming use = true → H use) →
    Dict.get? use reader.naming.protocol.componentRef = none →
    Gains first A U s (reader.nested use) fun V c => V c
  referenced : ∀ use id U s, H use →
    Dict.get? use reader.naming.protocol.componentRef = some (.string id) →
    Gains first A U s (reader.referenced id) fun V c => V c

namespace Reader
variable {first : Nat} {A : String → Prop} {H : Dict Tree → Prop} {reader : Reader}
  {U : Component → Prop} {s : LoadState} {r : Record} {field : String}

section Component
variable (hr : reader.Serves first A H)
include hr

theorem gains_componentOf {value : Tree} (h : ∀ use ∈ outermost reader.naming value, H use) :
    Gains first A U s (reader.componentOf r field value) fun V c => V c := by
  cases value with
  | map entries =>
    have huse : looksLikeComponent reader.naming entries = true → H entries := by
      intro hlooks
      exact h entries (by simp [outermost, hlooks])
    simp only [componentOf]
    cases href : Dict.get? entries reader.naming.protocol.componentRef with
    | none => exact hr.nested entries U s huse href
    | some target =>
      have hlooks : looksLikeComponent reader.naming entries = true := by
        have hkey := Dict.mem_keys_iff.mpr ⟨target, href⟩
        simp [looksLikeComponent, Dict.has_iff.mpr hkey]
      simp only
      split
      · exact .throw _
      · cases target with
        | string id => exact hr.referenced entries id U s (huse hlooks) href
        | _ => exact .throw _
  | _ => exact .throw _

end Component

/-- If each single question is answered by an object that was built, all answers were built. -/
theorem gains_askFor {questions : List (String × List Tree)}
    (h : ∀ q ∈ questions, ∀ value ∈ q.2, ∀ U s,
      Gains first A U s (reader.componentOf r q.1 value) fun V c => V c) :
    Gains first A U s (reader.askFor r questions) fun V answers => ∀ c ∈ answers.flatten, V c := by
  have hvalues {field : String} {values : List Tree} {U : Component → Prop} {s : LoadState}
      (h : ∀ value ∈ values, ∀ U s,
        Gains first A U s (reader.componentOf r field value) fun V c => V c) :
      Gains first A U s (reader.componentsOf r field values) fun V cs => ∀ c ∈ cs, V c := by
    induction values generalizing U s with
    | nil => exact .pure (by simp)
    | cons value rest ih =>
      obtain ⟨hvalue, hrest⟩ := List.forall_mem_cons.mp h
      refine (hvalue U s).bind fun V t c _ hc => (ih hrest).bind fun W u cs hVW hcs => ?_
      exact .pure (List.forall_mem_cons.mpr ⟨hVW.kept c hc, hcs⟩)
  induction questions generalizing U s with
  | nil => exact .pure (by simp)
  | cons q rest ih =>
    obtain ⟨hq, hrest⟩ := List.forall_mem_cons.mp h
    refine (hvalues hq).bind fun V t found _ hfound => ?_
    refine (ih hrest).bind fun W u later hVW hlater => ?_
    exact .pure (List.forall_mem_append.mpr ⟨fun c hc => hVW.kept c (hfound c hc), hlater⟩)

theorem Asks.gains {α : Type} {questions : List (String × List Tree)} {m : LoadM α}
    {P : List (List Component) → α → Prop} (hm : reader.Asks r questions m P)
    (h : ∀ q ∈ questions, ∀ value ∈ q.2, ∀ U s,
      Gains first A U s (reader.componentOf r q.1 value) fun V c => V c) :
    Gains first A U s m fun V a => ∃ answers, P answers a ∧ ∀ c ∈ answers.flatten, V c := by
  intro hs a t hrun
  obtain ⟨answers, hasked, ha⟩ := hm.ok s a t hrun
  obtain ⟨V, hV, hUV, hanswers⟩ := gains_askFor h hs answers t hasked
  exact ⟨V, hV, hUV, answers, ha, hanswers⟩

theorem gains_bagOf (hr : reader.Serves first A H) {fields : List (String × Tree)}
    {bag : Dict Value}
    (h : ∀ pair ∈ fields, ∀ use ∈ outermost reader.naming pair.2, H use)
    (hbag : ∀ c ∈ heldComponents bag, U c) :
    Gains first A U s (reader.bagOf r fields bag) fun V fs => ∀ c ∈ heldComponents fs, V c := by
  have hasked := forall_bagQuestions h
  intro hs result t hrun
  obtain ⟨V, hV, hUV, answers, ⟨values, hvalues, rfl⟩, hanswers⟩ :=
    (asks_bagOf fields bag).gains (fun q hq value hvalue U s =>
      gains_componentOf hr (hasked q hq value hvalue)) hs result t hrun
  refine ⟨V, hV, hUV, forall_held_merge (fun c hc => hUV.kept c (hbag c hc)) ?_⟩
  rwa [hvalues.held]

end Reader

namespace Builtin
variable {first : Nat} {A : String → Prop} {H : Dict Tree → Prop} {reader : Reader}
  {U : Component → Prop} {s : LoadState} {r : Record}

/-- What is used in some fields of a record passes a test. -/
def UsesIn (H : Dict Tree → Prop) (naming : NamingMode) (r : Record) (fields : List String) :
    Prop :=
  ∀ field ∈ fields, ∀ value, r.get? field = some value →
    ∀ use ∈ Reader.outermost naming value, H use

/-- A kind holds only objects that were built. -/
abbrev Holds (V : Component → Prop) (k : Kind) : Prop := ∀ c ∈ heldComponents k.fields, V c

theorem gains_read (hr : reader.Serves first A H)
    (h : UsesIn H reader.naming r (componentFields r.componentType)) :
    Gains first A U s (read reader r) Holds := by
  have hasked := Record.forall_parts (Reader.outermost_list reader.naming) h
  refine (asks_read.gains fun q hq value hvalue U s =>
    Reader.gains_componentOf hr (hasked q hq value hvalue)).mono (fun _ hx => hx) ?_
  rintro V k ⟨answers, hk, hanswers⟩
  rwa [Holds, hk.held]

end Builtin
end AgentGraph
