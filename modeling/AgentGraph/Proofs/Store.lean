import AgentGraph.Proofs.BuiltinGraph
import AgentGraph.Proofs.Store.History
import AgentGraph.Proofs.Store.Reads
/-!
# What a store keeps

A store whose directory started empty keeps names apart: a save under one name is not seen under any
other, a refused save changes no file, and the listing is the set of the names that were saved. A
load gives the most recent save of a name in YAML, and the most recent one in JSON where there is
none in YAML.
-/
namespace AgentGraph
namespace Store
variable {store : Store} {start f g : Folder} {place : Place} {name : String} {log : List Entry}
  {call : SaveCall} {result : Except StoreError StoredFiles} {options : LoadOptions}
  {supply : Supply}

/-! ## Names are independent -/

/-- A call that was refused before it wrote anything. -/
def IsRefused (result : Except StoreError StoredFiles) : Prop :=
  (∃ other, result = .error (.invalidName other)) ∨ ∃ cause, result = .error (.save cause)

theorem SaveEnds.unchanged (h : store.SaveEnds place call f result g)
    (hrefused : IsRefused result) : g = f := by
  cases h with
  | invalid | refused => rfl
  | fault | done =>
    rcases hrefused with ⟨_, hresult⟩ | ⟨_, hresult⟩ <;> cases hresult

/-- A path whose directory can be made and then is empty is not the empty path. -/
theorem StartsEmpty.path (h : store.StartsEmpty start) (habsolute : store.root.absolute = false)
    (hparts : store.root.parts = []) : store.root.asDirectory = true := by
  have hmake : start.makeDirectories store.root = (.ok (), start) := by
    unfold Folder.makeDirectories
    rw [habsolute, hparts]
    rfl
  obtain ⟨place, hshelf, -⟩ := Folder.shelf_of_names (h.made start hmake)
  have hfound := hshelf.found
  unfold Folder.locate at hfound
  split_ifs at hfound with hempty
  simpa [habsolute, hparts] using hempty

/-- Before the first save nothing can be loaded. -/
theorem StartsEmpty.runLoad (h : store.StartsEmpty start) (hname : isValidName name = true) :
    store.runLoad name options supply start = (.error (.notFound name), start) := by
  apply runLoad_missing hname
  intro file hfile
  exact Folder.present_child_of_missing h.start h.path hfile

theorem shelved_congr (h : ∀ format, g.file? (place ++ [documentName name format]) =
    f.file? (place ++ [documentName name format])) :
    shelved g place name = shelved f place name := by
  unfold shelved
  rw [h, h]

/-- A load of one name does not see what a save of another name does. -/
theorem runLoad_frame (hf : f.Shelf store.root place) (htouches : store.Touches place call f g)
    (hcall : isValidName call.name = true) (hother : call.name ≠ name) :
    (store.runLoad name options supply g).1 = (store.runLoad name options supply f).1 := by
  cases hname : isValidName name with
  | false => rw [runLoad_invalid hname, runLoad_invalid hname]
  | true =>
    have hfiles (format : Format) : documentName name format ∉ call.files ∧
        sidecarName name format ∉ call.files :=
      not_mem_files hname hcall fun hsame => hother hsame.1
    rw [runLoad_shelf htouches.shelf hname, runLoad_shelf hf hname,
      shelved_congr fun format => htouches.frame _ (hfiles format).1]
    cases shelved f place name with
    | none => rfl
    | some found => simp only [htouches.frame _ (hfiles found.1).2]

theorem SaveEnds.runLoad (h : store.SaveEnds place call f result g) (hf : f.Shelf store.root place)
    (hother : call.name ≠ name) :
    (store.runLoad name options supply g).1 = (store.runLoad name options supply f).1 := by
  cases h with
  | invalid | refused => rfl
  | fault hcall htouches => exact runLoad_frame hf htouches hcall hother
  | done hcall _ htouches => exact runLoad_frame hf htouches hcall hother

/-- A save with a valid name finds a directory that holds files only, and what could be loaded
before can be loaded once the directory is there. -/
theorem Reached.next (hstart : store.StartsEmpty start) (h : store.Reached start log f)
    (hfaults : ∀ entry ∈ log, ¬ IsFault entry.2) (hcall : isValidName call.name = true)
    (hresult : ¬ IsFault (store.runSave call f).1) : ∃ place made,
      made.Shelf store.root place ∧
      store.SaveEnds place call made (store.runSave call f).1 (store.runSave call f).2 ∧
      made.files = f.files ∧
      ∀ name options supply,
        (store.runLoad name options supply made).1 = (store.runLoad name options supply f).1 := by
  cases h with
  | untouched hlog =>
    rw [runSave_valid hcall] at hresult ⊢
    rcases hmake : start.makeDirectories store.root with ⟨_ | _, made⟩
    · rw [hmake] at hresult
      exact absurd ⟨_, rfl⟩ hresult
    · obtain ⟨place, hshelf, hnone⟩ := Folder.shelf_of_names (hstart.made made hmake)
      refine ⟨place, made, hshelf, saveInto_ends hcall hshelf, ?_, ?_⟩
      · have hmakes := Folder.makeDirectories_makes start store.root
        rw [hmake] at hmakes
        exact hmakes.files
      · intro name options supply
        cases hname : isValidName name with
        | false => rw [runLoad_invalid hname, runLoad_invalid hname]
        | true =>
          rw [hstart.runLoad hname, runLoad_shelf hshelf hname]
          simp [shelved, hnone]
  | shut hmake hfailures hfault =>
    obtain ⟨entry, hentry, hstopped⟩ := hfault
    exact absurd hstopped (hfaults entry hentry)
  | opened hholds =>
    exact ⟨_, f, hholds.shelf, runSave_ends hholds.shelf, rfl, fun _ _ _ => rfl⟩

/-- What a history without faults lets be listed. -/
theorem Reached.runList (hstart : store.StartsEmpty start) (h : store.Reached start log f)
    (hfaults : ∀ entry ∈ log, ¬ IsFault entry.2) : ∃ names, (store.runList f).1 = .ok names ∧
      names.Pairwise (· < ·) ∧
      ∀ name, name ∈ names ↔ ∃ entry ∈ log, Succeeded entry.2 ∧ entry.1.name = name := by
  cases h with
  | untouched hlog =>
    refine ⟨[], ?_, List.Pairwise.nil, ?_⟩
    · rcases hstart.start with hmissing | hempty
      · rw [runList_missing hmissing]
      · obtain ⟨place, hshelf, hnone⟩ := Folder.shelf_of_names hempty
        have hnames : start.namesAt place = [] := by
          apply List.eq_nil_iff_forall_not_mem.mpr
          intro name hname
          simp [hshelf.mem_names, hnone] at hname
        rw [runList_shelf hshelf, hnames]
        simp [sorted]
    · intro name
      constructor
      · intro hname
        cases hname
      · rintro ⟨entry, hentry, hdone, -⟩
        exact absurd hdone (not_succeeded_of_invalid hlog entry hentry)
  | shut hmake hfailures hfault =>
    obtain ⟨entry, hentry, hstopped⟩ := hfault
    exact absurd hstopped (hfaults entry hentry)
  | @opened place f hholds =>
    refine ⟨_, by rw [runList_shelf hholds.shelf], pairwise_sorted _, ?_⟩
    intro name
    rw [mem_sorted, List.mem_filterMap]
    constructor
    · rintro ⟨file, hfile, hname⟩
      rw [hholds.shelf.mem_names] at hfile
      obtain ⟨entry, hentry, hdone, hdocument | hsidecar⟩ := hholds.only hfaults file hfile
      · have hvalid := (hholds.drafted entry hentry hdone).1
        rw [hdocument, SaveCall.document, documentOf?_documentName hvalid] at hname
        exact ⟨entry, hentry, hdone, Option.some.inj hname⟩
      · rw [hsidecar, SaveCall.sidecar, documentOf?_sidecarName] at hname
        cases hname
    · rintro ⟨entry, hentry, hdone, rfl⟩
      have hsame : entry.1.name = entry.1.name ∧ entry.1.format = entry.1.format := ⟨rfl, rfl⟩
      obtain ⟨call, hlast⟩ : ∃ call, IsLatest (fun other => other.name = entry.1.name ∧
          other.format = entry.1.format) _ call := exists_isLatest hentry hdone hsame
      obtain ⟨hvalid, saved, -, hstores⟩ :=
        hholds.latest hlast fun other hother _ => hfaults other hother
      refine ⟨entry.1.document, hholds.shelf.mem_names.mpr ?_, documentOf?_documentName hvalid⟩
      simp [SaveCall.document, hstores.document]

/-- Names are independent and listed exactly. After every history of saves that no fault of the disk
stopped, a further save changes nothing of what any other name gives when it is loaded, a save that
is refused leaves every file as it is, and the listing holds the names of the successful saves, each
once and in order. -/
theorem names_apart (hstart : store.StartsEmpty start) (hlog : store.History start log f)
    (hfaults : ∀ entry ∈ log, ¬ IsFault entry.2) :
    (∀ call name options supply, ¬ IsFault (store.runSave call f).1 → call.name ≠ name →
      (store.runLoad name options supply (store.runSave call f).2).1 =
        (store.runLoad name options supply f).1) ∧
    (∀ call, IsRefused (store.runSave call f).1 → (store.runSave call f).2.files = f.files) ∧
    ∃ names, (store.runList f).1 = .ok names ∧ names.Pairwise (· < ·) ∧
      ∀ name, name ∈ names ↔ ∃ entry ∈ log, Succeeded entry.2 ∧ entry.1.name = name := by
  have hreached := hlog.reached hstart
  refine ⟨?_, ?_, hreached.runList hstart hfaults⟩
  · intro call name options supply hresult hother
    cases hcall : isValidName call.name with
    | false => rw [runSave_invalid hcall]
    | true =>
      obtain ⟨place, made, hshelf, hend, -, hloads⟩ := hreached.next hstart hfaults hcall hresult
      rw [hend.runLoad hshelf hother, hloads]
  · intro call hrefused
    cases hcall : isValidName call.name with
    | false => rw [runSave_invalid hcall]
    | true =>
      have hresult : ¬ IsFault (store.runSave call f).1 := by
        rintro ⟨e, he⟩
        rcases hrefused with ⟨_, hrefused⟩ | ⟨_, hrefused⟩ <;> rw [he] at hrefused <;>
          cases hrefused
      obtain ⟨place, made, -, hend, hfiles, -⟩ := hreached.next hstart hfaults hcall hresult
      rw [hend.unchanged hrefused, hfiles]

end Store

namespace Sample

/-- A store in a directory that is not there yet. -/
def store : Store := ⟨⟨false, ["store"], false⟩, .builtin, .builtin⟩

theorem store_startsEmpty : store.StartsEmpty .empty :=
  Store.startsEmpty_of_plain Folder.rooted_empty (by decide) (by decide) (.inl (by decide +kernel))

/-- The agent is saved, and its model is split off. -/
def splitSave : Store.SaveCall :=
  ⟨"alice", alice, { SaveOptions.default with disaggregated := [("model", none)] }, .json⟩

def teamSave : Store.SaveCall := ⟨"team", team, .default, .json⟩

end Sample

namespace Store

theorem names_apart_sample : ∃ names,
    (Sample.store.runList (Sample.store.after .empty [Sample.teamSave, Sample.splitSave]).2).1 =
      .ok names ∧ names.Pairwise (· < ·) ∧ "alice" ∈ names ∧ "team" ∈ names := by
  have hsaved : ∀ entry ∈ (Sample.store.after .empty [Sample.teamSave, Sample.splitSave]).1,
      entry.2.isOk = true := by decide +kernel
  obtain ⟨-, -, names, hlist, hsorted, hmem⟩ := names_apart Sample.store_startsEmpty
    (history_after Sample.store .empty [Sample.teamSave, Sample.splitSave])
    fun entry hentry => not_isFault_of_isOk (hsaved entry hentry)
  have hdone (entry) (hentry : entry ∈
      (Sample.store.after .empty [Sample.teamSave, Sample.splitSave]).1) : Succeeded entry.2 :=
    exists_of_isOk (hsaved entry hentry)
  refine ⟨names, hlist, hsorted, ?_, ?_⟩
  · exact (hmem "alice").mpr ⟨_, List.mem_cons_of_mem _ List.mem_cons_self,
      hdone _ (List.mem_cons_of_mem _ List.mem_cons_self), rfl⟩
  · exact (hmem "team").mpr ⟨_, List.mem_cons_self, hdone _ List.mem_cons_self, rfl⟩

variable {store : Store} {start f g : Folder} {place : Place} {name : String} {log : List Entry}
  {call : SaveCall} {result : Except StoreError StoredFiles} {options : LoadOptions}
  {supply : Supply}

/-! ## The last save -/

/-- What the document and the sidecar of one save give when they are loaded together. -/
def loadSaved (store : Store) (call : SaveCall) (saved : Saved) (options : LoadOptions)
    (supply : Supply) : Except StoreError (Component × Supply) :=
  store.loadTexts call.name call.format (call.format.encode saved.document)
    (saved.sidecar.map call.format.encode) options supply

/-- A load goes by the most recent save in YAML, and by the most recent one in JSON where there is
none in YAML. -/
theorem Holds.runLoad (h : store.Holds place log f) (hname : Undisturbed log name)
    (hlast : IsLatest (fun other => other.name = name ∧ other.format = call.format) log call)
    (hfirst : call.format = .json → ∀ entry ∈ log, Succeeded entry.2 → entry.1.name = name →
      entry.1.format = .json) :
    ∃ saved, store.draft call = .ok saved ∧ ∀ options supply,
      (store.runLoad name options supply f).1 = store.loadSaved call saved options supply := by
  obtain ⟨hvalid, saved, hdraft, hstores⟩ := h.latest hlast hname
  obtain ⟨entry, hentry, rfl, hdone, hsame, -⟩ := hlast.mem
  refine ⟨saved, hdraft, fun options supply => ?_⟩
  have hshelved : shelved f place name =
      some (entry.1.format, entry.1.format.encode saved.document) := by
    unfold shelved
    have hdocument := hstores.document
    cases hformat : entry.1.format with
    | yaml =>
      rw [hformat] at hdocument
      rw [hdocument]
      rfl
    | json =>
      rw [hformat] at hdocument
      have hyaml : f.file? (place ++ [documentName name .yaml]) = none := by
        rw [(h.stores name hvalid hname .yaml).document, kept_eq_none]
        · rfl
        · intro other hother hsucceeded hsame
          simp [hfirst hformat other hother hsucceeded hsame.1] at hsame
      rw [hyaml, hdocument]
      rfl
  rw [runLoad_shelf h.shelf hvalid, hshelved]
  simp only [hstores.sidecar, loadSaved, hsame]
  rfl

theorem IsLatest.narrow {among narrower : SaveCall → Prop} (h : IsLatest among log call)
    (hcall : narrower call) (hnarrower : ∀ other, narrower other → among other) :
    IsLatest narrower log call := by
  obtain ⟨later, files, earlier, hlog, -, hlater⟩ := h
  exact ⟨later, files, earlier, hlog, hcall,
    fun entry hentry hamong => hlater entry hentry (hnarrower _ hamong)⟩

/-- Where something was saved, the directory is there and holds it. -/
theorem Reached.holds (h : store.Reached start log f) {entry : Entry} (hentry : entry ∈ log)
    (hdone : Succeeded entry.2) : ∃ place, store.Holds place log f := by
  cases h with
  | untouched hlog => exact absurd hdone (not_succeeded_of_invalid hlog entry hentry)
  | shut _ hfailures => exact absurd hdone (hfailures entry hentry)
  | opened hholds => exact ⟨_, hholds⟩

/-- The last save wins, within a format. Where no save of a name was stopped by a fault of the disk,
loading the name gives what the document of its most recent successful save gives together with the
sidecar of that save, if that save was in YAML or none before it was. The most recent save in YAML
comes before every save in JSON. -/
theorem load_last_save (hstart : store.StartsEmpty start) (hlog : store.History start log f)
    (hname : Undisturbed log name) :
    (∀ call, IsLatest (fun other => other.name = name) log call →
      (call.format = .yaml ∨ ∀ entry ∈ log, Succeeded entry.2 → entry.1.name = name →
        entry.1.format ≠ .yaml) →
      ∃ saved, store.draft call = .ok saved ∧ ∀ options supply,
        (store.runLoad name options supply f).1 = store.loadSaved call saved options supply) ∧
    ∀ call, IsLatest (fun other => other.name = name ∧ other.format = .yaml) log call →
      ∃ saved, store.draft call = .ok saved ∧ ∀ options supply,
        (store.runLoad name options supply f).1 = store.loadSaved call saved options supply := by
  have goes (call : SaveCall)
      (hlast : IsLatest (fun other => other.name = name ∧ other.format = call.format) log call)
      (hfirst : call.format = .json → ∀ entry ∈ log, Succeeded entry.2 → entry.1.name = name →
        entry.1.format = .json) :
      ∃ saved, store.draft call = .ok saved ∧ ∀ options supply,
        (store.runLoad name options supply f).1 = store.loadSaved call saved options supply := by
    obtain ⟨entry, hentry, -, hdone, -⟩ := hlast.mem
    obtain ⟨place, hholds⟩ := (hlog.reached hstart).holds hentry hdone
    exact hholds.runLoad hname hlast hfirst
  constructor
  · intro call hlast hfirst
    obtain ⟨-, -, -, -, hcall⟩ := hlast.mem
    apply goes call (hlast.narrow ⟨hcall, rfl⟩ fun other hother => hother.1)
    intro hjson entry hentry hdone hsame
    rcases hfirst with hyaml | hnone
    · rw [hyaml] at hjson
      cases hjson
    · cases hformat : entry.1.format with
      | json => rfl
      | yaml => exact absurd hformat (hnone entry hentry hdone hsame)
  · intro call hlast
    obtain ⟨-, -, -, -, -, hyaml⟩ := hlast.mem
    apply goes call
    · rwa [hyaml]
    · intro hjson
      rw [hyaml] at hjson
      cases hjson

end Store

namespace Sample

/-- Two saves of one name: the tool in YAML, then the model in JSON. -/
def yamlSave : Store.SaveCall := ⟨"part", search, .default, .yaml⟩

def jsonSave : Store.SaveCall := ⟨"part", model, .default, .json⟩

def mixed : List Store.Entry × Folder := store.after .empty [jsonSave, yamlSave]

theorem mixed_saved : ∀ entry ∈ mixed.1, entry.2.isOk = true := by decide +kernel

theorem jsonSave_latest : Store.IsLatest (fun other => other.name = "part") mixed.1 jsonSave := by
  obtain ⟨files, hfiles⟩ := exists_of_isOk (mixed_saved _ List.mem_cons_self)
  exact ⟨[], files, (store.after .empty [yamlSave]).1, by rw [← hfiles]; rfl, rfl, by simp⟩

end Sample

namespace Store

theorem load_last_save_split : ∃ saved, Sample.store.draft Sample.splitSave = .ok saved ∧
    (Sample.store.runLoad "alice" .default ⟨0, 0⟩
      (Sample.store.after .empty [Sample.splitSave, Sample.teamSave]).2).1 =
        Sample.store.loadSaved Sample.splitSave saved .default ⟨0, 0⟩ := by
  have hsaved : ∀ entry ∈ (Sample.store.after .empty [Sample.splitSave, Sample.teamSave]).1,
      entry.2.isOk = true := by decide +kernel
  have hjson : ∀ entry ∈ (Sample.store.after .empty [Sample.splitSave, Sample.teamSave]).1,
      entry.1.format ≠ .yaml := by decide +kernel
  obtain ⟨files, hfiles⟩ := exists_of_isOk (hsaved _ List.mem_cons_self)
  obtain ⟨saved, hdraft, hload⟩ := (load_last_save Sample.store_startsEmpty
    (history_after Sample.store .empty [Sample.splitSave, Sample.teamSave])
    fun entry hentry _ => not_isFault_of_isOk (hsaved entry hentry)).1 Sample.splitSave
      ⟨[], files, (Sample.store.after .empty [Sample.teamSave]).1, by rw [← hfiles]; rfl, rfl,
        by simp⟩
      (.inr fun entry hentry _ _ => hjson entry hentry)
  exact ⟨saved, hdraft, hload _ _⟩

/-- A save in JSON is not seen where the name was saved in YAML before: a load still gives the
tool. -/
theorem load_passes_over_json :
    Sample.store.StartsEmpty .empty ∧
    Sample.store.History .empty Sample.mixed.1 Sample.mixed.2 ∧
    (∀ entry ∈ Sample.mixed.1, Succeeded entry.2) ∧
    IsLatest (fun other => other.name = "part") Sample.mixed.1 Sample.jsonSave ∧
    ¬ ∃ saved, Sample.store.draft Sample.jsonSave = .ok saved ∧
      (Sample.store.runLoad "part" .default ⟨0, 0⟩ Sample.mixed.2).1 =
        Sample.store.loadSaved Sample.jsonSave saved .default ⟨0, 0⟩ := by
  refine ⟨Sample.store_startsEmpty, history_after _ _ _,
    fun entry hentry => exists_of_isOk (Sample.mixed_saved entry hentry), Sample.jsonSave_latest,
    ?_⟩
  rintro ⟨saved, hdraft, hload⟩
  have hmodel : (Sample.store.draft Sample.jsonSave).toOption.all (fun saved =>
      (Sample.store.loadSaved Sample.jsonSave saved .default ⟨0, 0⟩).toOption.any
        fun loaded => loaded.1.name = "Model") = true := by decide +kernel
  have htool : (Sample.store.runLoad "part" .default ⟨0, 0⟩ Sample.mixed.2).1.toOption.all
      (fun loaded => loaded.1.name = "Search") = true := by decide +kernel
  rw [hdraft] at hmodel
  obtain ⟨loaded, hloaded, hname⟩ := exists_of_any hmodel
  rw [hload, hloaded] at htool
  simp_all [Except.toOption]

end Store
end AgentGraph
