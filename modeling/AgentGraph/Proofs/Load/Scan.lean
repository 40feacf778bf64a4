import AgentGraph.Load.Scan
import AgentGraph.Proofs.Plain
import AgentGraph.Proofs.Run
/-!
# What the scan finds

The scan of some trees is the scans of the trees in turn, and what it finds in a tree is what the tree
itself says and what is found below. Plain data says nothing.
-/
namespace AgentGraph.Scan
variable {protocol : Protocol} {U : String → Prop} {t : Tree} {ts us : List Tree}
  {D E : Dict (Dict Tree)} {entries : Dict Tree}

theorem walk_append (xs ys : List Tree) (s : Scan) :
    walk protocol (xs ++ ys) s = walk protocol xs s >>= walk protocol ys := by
  fun_induction walk protocol xs s with
  | case1 s => rfl
  | case2 s t rest e hnote =>
    rw [List.cons_append, walk, hnote]
    rfl
  | case3 s t rest s' hnote ih =>
    rw [List.cons_append, walk, hnote]
    simp only
    rw [← List.append_assoc, ih]

/-- What a run of the scan adds: new entries, and uses that pass a test. -/
def Adds (U : String → Prop) (D : Dict (Dict Tree)) (run : Scan → Except LoadError Scan) : Prop :=
  ∀ s : Scan, (Dict.keys s.defined ++ Dict.keys D).Nodup →
    ∃ s', run s = .ok s' ∧ s'.defined = s.defined ++ D ∧ ∀ k ∈ s'.used, k ∈ s.used ∨ U k

/-- What the scan finds in trees and below them. -/
def Finds (protocol : Protocol) (U : String → Prop) (ts : List Tree) (D : Dict (Dict Tree)) : Prop :=
  Adds U D (walk protocol ts)

theorem Adds.trans {run run' : Scan → Except LoadError Scan} (h : Adds U D run)
    (k : Adds U E run') : Adds U (D ++ E) fun s => run s >>= run' := by
  intro s hs
  rw [Dict.keys_append, ← List.append_assoc] at hs
  obtain ⟨s₁, hrun, hdefined, hused⟩ := h s (List.nodup_append.mp hs).1
  obtain ⟨s₂, hrun', hdefined', hused'⟩ := k s₁ (by rw [hdefined, Dict.keys_append]; exact hs)
  refine ⟨s₂, ?_, by rw [hdefined', hdefined, List.append_assoc], fun key hkey => ?_⟩
  · simp only [hrun]
    exact hrun'
  rcases hused' key hkey with hkey | hkey
  · exact hused key hkey
  · exact .inr hkey

theorem finds_nil : Finds protocol U [] [] :=
  fun s _ => ⟨s, by rw [walk], (List.append_nil _).symm, fun _ hk => .inl hk⟩

theorem Finds.append (h : Finds protocol U ts D) (k : Finds protocol U us E) :
    Finds protocol U (ts ++ us) (D ++ E) := by
  have hrun : walk protocol (ts ++ us) = fun s => walk protocol ts s >>= walk protocol us :=
    funext fun s => walk_append ts us s
  rw [Finds, hrun]
  exact Adds.trans h k

theorem Finds.cons (h : Finds protocol U [t] D) (k : Finds protocol U ts E) :
    Finds protocol U (t :: ts) (D ++ E) := Finds.append h k

/-- What is found in a list of trees, tree by tree. -/
theorem finds_flatMap {α : Type} {xs : List α} {f : α → Tree} {F : α → Dict (Dict Tree)}
    (h : ∀ x ∈ xs, Finds protocol U [f x] (F x)) :
    Finds protocol U (xs.map f) (xs.flatMap F) := by
  induction xs with
  | nil => exact finds_nil
  | cons x rest ih =>
    obtain ⟨hx, hrest⟩ := List.forall_mem_cons.mp h
    rw [List.map_cons, List.flatMap_cons]
    exact hx.cons (ih hrest)

/-- A tree is scanned before what stands in it. -/
theorem finds_node (h : Adds U D (note protocol t)) (k : Finds protocol U t.children E) :
    Finds protocol U [t] (D ++ E) := by
  have hrun : walk protocol [t] = fun s => note protocol t s >>= walk protocol t.children := by
    funext s
    rw [walk]
    cases note protocol t s with
    | error e => rfl
    | ok s' => simp [bind, Except.bind]
  rw [Finds, hrun]
  exact Adds.trans h k

theorem adds_nothing : Adds U [] (Except.ok : Scan → Except LoadError Scan) :=
  fun s _ => ⟨s, rfl, (List.append_nil _).symm, fun _ hk => .inl hk⟩

theorem adds_use {id : String} (h : U id) :
    Adds U [] fun s => (.ok (s.use id) : Except LoadError Scan) := by
  intro s _
  refine ⟨s.use id, rfl, ?_, fun key hkey => ?_⟩
  · unfold use
    split <;> simp
  · unfold use at hkey
    split at hkey
    · exact .inl hkey
    · rcases List.mem_append.mp hkey with hkey | hkey
      · exact .inl hkey
      · exact .inr (List.mem_singleton.mp hkey ▸ h)

theorem adds_entries : Adds U D (noteEntries (D.map fun p => (p.1, .map p.2))) := by
  induction D with
  | nil => exact adds_nothing
  | cons p rest ih =>
    intro s hs
    rw [Dict.keys_cons, List.nodup_middle, List.nodup_cons] at hs
    have hnew : Dict.has s.defined p.1 = false := by
      rw [← Bool.not_eq_true, Dict.has_iff]
      exact fun hmem => hs.1 (List.mem_append_left _ hmem)
    obtain ⟨s', hrun, hdefined, hused⟩ := ih { s with defined := s.defined ++ [(p.1, p.2)] } (by
      rw [Dict.keys_append, List.append_assoc]
      simpa [List.nodup_middle] using hs)
    refine ⟨s', ?_, by simpa using hdefined, hused⟩
    rw [List.map_cons, noteEntries]
    simpa [hnew] using hrun

/-- A mapping that is no reference, with the entries that it has for others. -/
theorem adds_map (href : Dict.get? entries protocol.componentRef = none)
    (hside : Dict.get? entries protocol.referencedComponents =
      if D.isEmpty then none else some (.map (D.map fun p => (p.1, .map p.2)))) :
    Adds U D (note protocol (.map entries)) := by
  have hnote : note protocol (.map entries) = noteSidecar protocol entries := by
    funext s
    rw [note, noteReference, href]
    rfl
  rw [hnote]
  cases D with
  | nil =>
    have hnone : noteSidecar protocol entries = Except.ok := by
      funext s
      rw [noteSidecar, hside]
      rfl
    rw [hnone]
    exact adds_nothing
  | cons p rest =>
    have hsome : noteSidecar protocol entries =
        noteEntries ((p :: rest).map fun p => (p.1, .map p.2)) := by
      funext s
      rw [noteSidecar, hside]
      rfl
    rw [hsome]
    exact adds_entries

theorem finds_string (text : String) : Finds protocol U [.string text] [] :=
  finds_node (D := []) (E := []) adds_nothing finds_nil

theorem finds_list {items : List Tree} (h : Finds protocol U items D) :
    Finds protocol U [.list items] D :=
  finds_node (D := []) adds_nothing h

/-- A mapping that says nothing itself. -/
theorem finds_map (href : protocol.componentRef ∉ Dict.keys entries)
    (hside : protocol.referencedComponents ∉ Dict.keys entries)
    (h : Finds protocol U (Dict.values entries) D) : Finds protocol U [.map entries] D :=
  finds_node (D := []) (adds_map (Dict.get?_eq_none_iff.mpr href)
    (Dict.get?_eq_none_iff.mpr hside)) h

theorem finds_reference (hne : protocol.componentRef ≠ protocol.referencedComponents) {id : String}
    (h : U id) : Finds protocol U [.map [(protocol.componentRef, .string id)]] [] := by
  have hnote : note protocol (.map [(protocol.componentRef, .string id)]) =
      fun s => .ok (s.use id) := by
    funext s
    simp [note, noteReference, noteSidecar, Dict.get?, hne, bind, Except.bind]
  refine finds_node (D := []) (E := []) ?_ (finds_string id)
  rw [hnote]
  exact adds_use h

mutual
/-- Nothing is found in plain data. -/
theorem finds_plain {naming : NamingMode} {t : Tree} (h : t.Plain naming) :
    Finds naming.protocol U [t] [] := by
  match t with
  | .list items => exact finds_list (finds_plainItems h)
  | .map entries =>
    have hkeys : ∀ key ∈ Dict.keys entries, naming.IsPlain key := fun key hkey => by
      obtain ⟨p, hp, rfl⟩ := List.mem_map.mp hkey
      exact (Tree.keysAll_map.mp h p hp).1
    exact finds_map (fun hmem => (hkeys _ hmem).not_reference rfl)
      (fun hmem => (hkeys _ hmem).not_sidecar rfl) (finds_plainEntries h)
  | .null | .bool _ | .number _ | .string _ =>
    exact finds_node (D := []) (E := []) adds_nothing finds_nil
theorem finds_plainItems {naming : NamingMode} {ts : List Tree}
    (h : Tree.keysAllItems naming.IsPlain ts) : Finds naming.protocol U ts [] := by
  match ts with
  | [] => exact finds_nil
  | t :: rest => exact (finds_plain h.1).cons (finds_plainItems h.2)
theorem finds_plainEntries {naming : NamingMode} {d : List (String × Tree)}
    (h : Tree.keysAllEntries naming.IsPlain d) : Finds naming.protocol U (Dict.values d) [] := by
  match d with
  | [] => exact finds_nil
  | (key, t) :: rest => exact (finds_plain h.2.1).cons (finds_plainEntries h.2.2)
end

end AgentGraph.Scan
