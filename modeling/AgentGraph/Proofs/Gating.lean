import AgentGraph.Proofs.Gating.Record
import AgentGraph.Proofs.Registry
/-!
# What an older release leaves out

Saving a graph of builtin kinds at an older release, at which all its kinds may be written, fails as
saving it at a newer one does, and otherwise gives the same document and sidecar with the stamp of the
release replaced and the fields left out, in every record, that the release does not have yet.
-/
namespace AgentGraph

/-- The release decides which fields are there and nothing else. -/
theorem save_asOf {extensions : List Plugin} {registry : Registry} {options : SaveOptions}
    {older newer : Release} {root : Component}
    (hregistry : Registry.ofPlugins extensions = .ok registry)
    (hle : older.atMost newer = true)
    (hbuiltin : ∀ c, Component.Reaches Component.children root c → c.kind.isBuiltin = true)
    (hallowed : ∀ c, Component.Reaches Component.children root c →
      Policy.builtin.kindAllowed c.componentType older = true)
    (hobjects : ∀ c d, Component.Reaches Component.children root c →
      Component.Reaches Component.children root d → c.isSameObject d = true → c = d) :
    save registry .builtin { options with release := older } root =
      (save registry .builtin { options with release := newer } root).map
        (Saved.asOf options.naming older) := by
  let w : Writer := { options with release := newer }.writer registry .builtin
  have hS : w.Spans older (Component.Reaches Component.children root) :=
    { owned := fun _ ht => Registry.owner?_builtin hregistry ht
      policy := rfl
      le := hle
      closed := fun _ hc _ hd => hc.kid hd
      builtin := hbuiltin
      allowed := hallowed
      objects := hobjects }
  have hroot : Component.Reaches Component.children root root := .refl root
  refine Matched.map_eq ?_
  have hsurvey := Writer.survey_inStep hS (options.maxDepth + 1) hroot _ _ Writer.Trimmed.empty
  refine hsurvey.result.bind ?_
  rintro ⟨table, s⟩ ⟨table', t⟩ ⟨⟨rfl, hst⟩, hrun⟩
  obtain ⟨hentered, -, hvouched⟩ := Writer.survey_enters hS hroot Writer.entered_empty hrun
  have haliases := (hst.parallel hS).aliases_eq root.id options.disaggregated
  simp only [haliases]
  cases t.aliases root.id options.disaggregated with
  | error e => exact .error e
  | ok aliases =>
    have hl : w.LaidOut older (Component.Reaches Component.children root) ⟨s, table, aliases⟩
        ⟨t, table, aliases⟩ := ⟨hst, hentered, rfl, rfl⟩
    have hdocuments := Writer.documents_inStep hS hl hvouched options.exportSidecar [] []
      NamingMode.abreast_empty
    exact hdocuments.bind fun p q hpq => .ok hpq

/-- An agent with a tool that is written to the sidecar, at the first release. -/
theorem save_asOf_alice : ∃ saved,
    save .builtin .builtin { Sample.tooled with release := .current } Sample.alice = .ok saved ∧
      save .builtin .builtin { Sample.tooled with release := .v25_4_1 } Sample.alice =
        .ok (saved.asOf .canonical .v25_4_1) ∧
      (saved.document.field? "human_in_the_loop").isSome = true ∧
      ((saved.asOf .canonical .v25_4_1).document.field? "human_in_the_loop").isNone = true := by
  have hrun : (save .builtin .builtin { Sample.tooled with release := .current }
      Sample.alice).toOption.any (fun saved =>
        (saved.document.field? "human_in_the_loop").isSome &&
          ((saved.asOf .canonical .v25_4_1).document.field? "human_in_the_loop").isNone) = true := by
    decide +kernel
  obtain ⟨saved, hsave, hfields⟩ := exists_of_any hrun
  have hbuiltin : ∀ c ∈ [Sample.alice, Sample.model, Sample.search], c.kind.isBuiltin = true := by
    decide +kernel
  have hallowed : ∀ c ∈ [Sample.alice, Sample.model, Sample.search],
      Policy.builtin.kindAllowed c.componentType .v25_4_1 = true := by decide +kernel
  have hteam {c : Component} (h : Component.Reaches Component.children Sample.alice c) :
      Component.Reaches Component.children Sample.team c :=
    .step (by simp [Sample.team, Component.children, Component.kind]) h
  have hregistry : Registry.ofPlugins [] = .ok .builtin := rfl
  have hgated : save .builtin .builtin { Sample.tooled with release := .v25_4_1 } Sample.alice =
      (save .builtin .builtin { Sample.tooled with release := .current } Sample.alice).map
        (Saved.asOf .canonical .v25_4_1) :=
    save_asOf hregistry (by decide) (fun c hc => hbuiltin c (Sample.mem_alice hc))
      (fun c hc => hallowed c (Sample.mem_alice hc))
      (fun c d hc hd => Sample.objects_team (hteam hc) (hteam hd))
  rw [hsave] at hgated
  rw [Bool.and_eq_true] at hfields
  exact ⟨saved, hsave, hgated, hfields.1, hfields.2⟩

end AgentGraph
