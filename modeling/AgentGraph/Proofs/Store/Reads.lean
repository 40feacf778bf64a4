import AgentGraph.Proofs.Store.Runs
/-!
# Loads and listings of a store

Loading and listing read the directory of a store and change nothing. What a load gives depends on
the texts of the document and its sidecar only; a listing holds every name once and in order.
-/
namespace AgentGraph.Store
variable {store : Store} {f g : Folder} {place : Place} {file name document : String}
  {sidecar : Option String} {format : Format} {options : LoadOptions} {supply : Supply}

/-! ## Loads -/

/-- What loading the text of a sidecar adds to the options. -/
def loadSidecarText (store : Store) (format : Format) (sidecar : Option String)
    (options : LoadOptions) (supply : Supply) : Except StoreError (LoadOptions × Supply) :=
  match sidecar with
  | none => .ok (options, supply)
  | some text => do
    let (loaded, supply) ← (loadText store.registry { options with disaggregatedOnly := true }
      format text supply).mapError .load
    match loaded with
    | .referenced components => .ok (supplyMissing options components, supply)
    | .component _ => .ok (options, supply)

/-- What loading the text of a document gives after its sidecar was loaded. -/
def loadTexts (store : Store) (name : String) (format : Format) (document : String)
    (sidecar : Option String) (options : LoadOptions) (supply : Supply) :
    Except StoreError (Component × Supply) := do
  let (options, supply) ← store.loadSidecarText format sidecar options supply
  let (loaded, supply) ←
    (loadText store.registry options format document supply).mapError .load
  match loaded with
  | .component root => .ok (root, supply)
  | .referenced _ => .error (.noRootComponent name)

/-- What `load` gives on a folder. -/
def runLoad (store : Store) (name : String) (options : LoadOptions) (supply : Supply) (f : Folder) :
    Except StoreError (Component × Supply) × Folder :=
  on (store.load name options supply) f

theorem loadFile_on (h : f.Shelf store.root place) (hfile : Folder.IsFileName file) {text : String}
    (htext : f.file? (place ++ [file]) = some text) :
    on (store.loadFile file format options supply) f =
      ((loadText store.registry options format text supply).mapError .load, f) := by
  unfold loadFile
  rw [on_bind, on_read, h.read_child hfile htext]
  rfl

theorem loadSidecar_on (h : f.Shelf store.root place) (hfile : Folder.IsFileName file) :
    on (store.loadSidecar file format options supply) f =
      (store.loadSidecarText format (f.file? (place ++ [file])) options supply, f) := by
  unfold loadSidecar loadSidecarText
  rw [on_bind, on_present, h.present_child hfile]
  cases htext : f.file? (place ++ [file]) with
  | none => rfl
  | some text =>
    simp only [Option.isSome_some, if_true]
    rw [on_bind, loadFile_on h hfile htext]
    cases hload : loadText store.registry { options with disaggregatedOnly := true } format text
      supply with
    | error e => rfl
    | ok loaded =>
      obtain ⟨loaded, supply⟩ := loaded
      cases loaded <;> rfl

theorem present_bind {α : Type} {p : Path} {k : Bool → StateM Folder α} :
    (Disk.present p >>= k) f = k (f.present p) f := rfl

theorem find_on : on (liftM (store.find name : StateM Folder (Option Format))) f =
    (.ok (if f.present (store.root.child (documentName name .yaml)) then some .yaml
      else if f.present (store.root.child (documentName name .json)) then some .json
      else none), f) := by
  have hfind : store.find (m := StateM Folder) name f =
      (if f.present (store.root.child (documentName name .yaml)) then some .yaml
      else if f.present (store.root.child (documentName name .json)) then some .json
      else none, f) := by
    unfold find
    rw [present_bind]
    split_ifs
    · rfl
    · rw [present_bind, if_pos ‹_›]
      rfl
    · rw [present_bind, if_neg ‹_›]
      rfl
  rw [on_lift, hfind]

/-- The rest of a load once the document was found in a format. -/
def loadFound (store : Store) (name : String) (format : Format) (options : LoadOptions)
    (supply : Supply) : ExceptT StoreError (StateM Folder) (Component × Supply) := do
  let (options, supply) ← store.loadSidecar (sidecarName name format) format options supply
  let (loaded, supply) ← store.loadFile (documentName name format) format options supply
  match loaded with
  | .component root => return (root, supply)
  | .referenced _ => throw (.noRootComponent name)

theorem runLoad_valid (hname : isValidName name = true) :
    store.runLoad name options supply f =
      if f.present (store.root.child (documentName name .yaml)) then
        on (store.loadFound name .yaml options supply) f
      else if f.present (store.root.child (documentName name .json)) then
        on (store.loadFound name .json options supply) f
      else (.error (.notFound name), f) := by
  unfold runLoad load
  rw [on_bind, on_orError]
  simp only [checkName, hname, if_true]
  rw [on_bind, find_on]
  split_ifs <;> rfl

theorem loadFound_on (h : f.Shelf store.root place)
    (hdocument : f.file? (place ++ [documentName name format]) = some document) :
    on (store.loadFound name format options supply) f =
      (store.loadTexts name format document (f.file? (place ++ [sidecarName name format])) options
        supply, f) := by
  unfold loadFound loadTexts
  rw [on_bind, loadSidecar_on h isFileName_sidecarName]
  cases store.loadSidecarText format (f.file? (place ++ [sidecarName name format])) options
    supply with
  | error e => rfl
  | ok found =>
    obtain ⟨options, supply⟩ := found
    simp only
    rw [on_bind, loadFile_on h isFileName_documentName hdocument]
    cases hload : loadText store.registry options format document supply with
    | error e => simp only [Except.mapError, bind, Except.bind, hload]
    | ok loaded =>
      obtain ⟨loaded, supply⟩ := loaded
      cases loaded <;> simp only [Except.mapError, bind, Except.bind, hload] <;> rfl

/-- The document of a name as it stands on a shelf; YAML comes first. -/
def shelved (f : Folder) (place : Place) (name : String) : Option (Format × String) :=
  match f.file? (place ++ [documentName name .yaml]) with
  | some text => some (.yaml, text)
  | none => (f.file? (place ++ [documentName name .json])).map fun text => (.json, text)

theorem runLoad_shelf (h : f.Shelf store.root place) (hname : isValidName name = true) :
    store.runLoad name options supply f =
      (match shelved f place name with
      | some (format, document) => store.loadTexts name format document
          (f.file? (place ++ [sidecarName name format])) options supply
      | none => .error (.notFound name), f) := by
  rw [runLoad_valid hname, h.present_child isFileName_documentName,
    h.present_child isFileName_documentName]
  unfold shelved
  cases hyaml : f.file? (place ++ [documentName name .yaml]) with
  | some document => exact loadFound_on h hyaml
  | none =>
    cases hjson : f.file? (place ++ [documentName name .json]) with
    | some document => exact loadFound_on h hjson
    | none => rfl

theorem runLoad_invalid (hname : isValidName name = false) :
    store.runLoad name options supply f = (.error (.invalidName name), f) := by
  unfold runLoad load
  rw [on_bind, on_orError]
  simp [checkName, hname]

theorem runLoad_missing (hname : isValidName name = true)
    (hmissing : ∀ file, Folder.IsFileName file → f.present (store.root.child file) = false) :
    store.runLoad name options supply f = (.error (.notFound name), f) := by
  rw [runLoad_valid hname, hmissing _ isFileName_documentName, hmissing _ isFileName_documentName]
  rfl

/-! ## Listings -/

theorem lt_of_le_of_ne {a b : String} (hle : a ≤ b) (hne : b ≠ a) : a < b := by
  apply String.not_le.mp
  intro hback
  exact hne (String.le_antisymm hback hle)

/-- Repetitions dropped from names in order leave them in strict order. -/
theorem pairwise_eraseDups : (names : List String) → names.Pairwise (· ≤ ·) →
    names.eraseDups.Pairwise (· < ·)
  | [], _ => by simp
  | first :: rest, h => by
    obtain ⟨hfirst, hrest⟩ := List.pairwise_cons.mp h
    rw [List.eraseDups_cons, List.pairwise_cons]
    constructor
    · intro other hother
      rw [List.mem_eraseDups, List.mem_filter] at hother
      apply lt_of_le_of_ne (hfirst other hother.1)
      simpa using hother.2
    · exact pairwise_eraseDups _ (hrest.filter _)
termination_by names => names.length
decreasing_by exact Nat.lt_succ_of_le (List.length_filter_le _ _)

theorem pairwise_sorted (names : List String) : (sorted names).Pairwise (· < ·) := by
  apply pairwise_eraseDups
  have htrans : ∀ a b c : String, decide (a ≤ b) = true → decide (b ≤ c) = true →
      decide (a ≤ c) = true := by
    intro a b c hab hbc
    simp only [decide_eq_true_eq] at *
    exact String.le_trans hab hbc
  have htotal : ∀ a b : String, (decide (a ≤ b) || decide (b ≤ a)) = true := by
    intro a b
    simp only [Bool.or_eq_true, decide_eq_true_eq]
    exact String.le_total a b
  have hsorted := List.pairwise_mergeSort htrans htotal names
  simpa using hsorted

theorem mem_sorted {names : List String} : name ∈ sorted names ↔ name ∈ names := by
  unfold sorted
  rw [List.mem_eraseDups, List.mem_mergeSort]

/-- What `list` gives on a folder. -/
def runList (store : Store) (f : Folder) : Except StoreError (List String) × Folder :=
  on store.list f

theorem runList_missing (h : f.present store.root = false) : store.runList f = (.ok [], f) := by
  unfold runList list
  rw [on_bind, on_present, h]
  rfl

theorem runList_shelf (h : f.Shelf store.root place) :
    store.runList f = (.ok (sorted ((f.namesAt place).filterMap documentOf?)), f) := by
  unfold runList list
  rw [on_bind, on_present, h.present]
  simp only [if_true]
  rw [on_bind, on_names, h.names]
  rfl

end AgentGraph.Store
