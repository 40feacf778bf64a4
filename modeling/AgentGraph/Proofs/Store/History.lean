import AgentGraph.Proofs.Store.Runs
/-!
# Histories of saves

Calls of `save` on one store, one after another. The directory of the store holds, for every name
and format, what the most recent successful save of that name in that format left there, as long as
no save of the name was stopped by a fault of the disk.
-/
namespace AgentGraph.Store

/-- A call of `save` with what it gave. -/
abbrev Entry := SaveCall × Except StoreError StoredFiles

/-- A call that a fault of the disk stopped. -/
def IsFault (result : Except StoreError StoredFiles) : Prop := ∃ e, result = .error (.io e)

/-- A call that wrote its files. -/
def Succeeded (result : Except StoreError StoredFiles) : Prop := ∃ files, result = .ok files

/-- What calls of `save` on a store led to, from a folder on; the most recent call stands first. -/
inductive History (store : Store) (start : Folder) : List Entry → Folder → Prop
  | start : History store start [] start
  | save {log : List Entry} {f : Folder} (call : SaveCall) (h : History store start log f) :
    History store start ((call, (store.runSave call f).1) :: log) (store.runSave call f).2

/-- The history of some calls, the most recent one first, and the folder that they lead to. -/
def after (store : Store) (start : Folder) : List SaveCall → List Entry × Folder
  | [] => ([], start)
  | call :: earlier =>
    let (log, f) := store.after start earlier
    ((call, (store.runSave call f).1) :: log, (store.runSave call f).2)

theorem history_after (store : Store) (start : Folder) (calls : List SaveCall) :
    store.History start (store.after start calls).1 (store.after start calls).2 := by
  induction calls with
  | nil => exact .start
  | cons call earlier ih => exact .save call ih

/-- The directory of a store before the first save: missing or empty, and if making it succeeds it
is an empty directory. -/
structure StartsEmpty (store : Store) (f : Folder) : Prop where
  start : f.present store.root = false ∨ f.names store.root = .ok []
  made : ∀ g, f.makeDirectories store.root = (.ok (), g) → g.names store.root = .ok []

/-- A store starts empty if its path does not lead up and its directory is missing, or empty. -/
theorem startsEmpty_of_plain {store : Store} {f : Folder} (hrooted : f.Rooted)
    (hup : ".." ∉ store.root.parts)
    (hpath : store.root.parts = [] → store.root.asDirectory = true)
    (hstart : f.present store.root = false ∨ f.names store.root = .ok []) :
    store.StartsEmpty f := by
  constructor
  · exact hstart
  · intro g hmake
    rcases hstart with hmissing | hempty
    · exact Folder.names_of_missing hrooted hup hpath hmissing hmake
    · obtain ⟨place, hshelf, -⟩ := Folder.shelf_of_names hempty
      rw [hshelf.makeDirectories] at hmake
      cases hmake
      exact hempty

/-- What the most recent successful save of a name in a format saved. -/
def kept (store : Store) : List Entry → String → Format → Option Saved
  | [], _, _ => none
  | (call, .ok _) :: log, name, format =>
    if call.name = name ∧ call.format = format then (store.draft call).toOption
    else store.kept log name format
  | (_, .error _) :: log, name, format => store.kept log name format

variable {store : Store} {start f g : Folder} {place : Place} {file name : String} {format : Format}
  {log : List Entry} {call : SaveCall} {result : Except StoreError StoredFiles}

theorem not_isFault_of_isOk (h : result.isOk = true) : ¬ IsFault result := by
  rintro ⟨e, rfl⟩
  cases h

theorem failures_cons {e : StoreError} (h : ∀ entry ∈ log, ¬ Succeeded entry.2) :
    ∀ entry ∈ ((call, .error e) :: log : List Entry), ¬ Succeeded entry.2 := by
  intro entry hentry ⟨files, hfiles⟩
  rcases List.mem_cons.mp hentry with rfl | hentry
  · cases hfiles
  · exact h entry hentry ⟨files, hfiles⟩

theorem kept_eq_none (h : ∀ entry ∈ log, Succeeded entry.2 →
    ¬(entry.1.name = name ∧ entry.1.format = format)) : store.kept log name format = none := by
  induction log with
  | nil => rfl
  | cons entry log ih =>
    obtain ⟨call, result⟩ := entry
    have hrest := ih fun entry hentry => h entry (List.mem_cons_of_mem _ hentry)
    cases result with
    | error e => exact hrest
    | ok files =>
      rw [kept, if_neg (h _ List.mem_cons_self ⟨files, rfl⟩)]
      exact hrest

/-- The most recent successful save among some. -/
def IsLatest (among : SaveCall → Prop) (log : List Entry) (call : SaveCall) : Prop :=
  ∃ later files earlier, log = later ++ (call, .ok files) :: earlier ∧ among call ∧
    ∀ entry ∈ later, among entry.1 → ¬ Succeeded entry.2

theorem kept_of_isLatest
    (h : IsLatest (fun other => other.name = name ∧ other.format = format) log call) :
    store.kept log name format = (store.draft call).toOption := by
  obtain ⟨later, files, earlier, rfl, hcall, hlater⟩ := h
  induction later with
  | nil => simp [kept, hcall]
  | cons entry later ih =>
    obtain ⟨other, result⟩ := entry
    have hrest := ih fun entry hentry => hlater entry (List.mem_cons_of_mem _ hentry)
    cases result with
    | error e => exact hrest
    | ok written =>
      have hother : ¬(other.name = name ∧ other.format = format) :=
        fun hsame => hlater _ List.mem_cons_self hsame ⟨written, rfl⟩
      rw [List.cons_append, kept, if_neg hother]
      exact hrest

/-- Among some that succeeded, one is the most recent. -/
theorem exists_isLatest {among : SaveCall → Prop} {entry : Entry} (hentry : entry ∈ log)
    (hdone : Succeeded entry.2) (hamong : among entry.1) : ∃ call, IsLatest among log call := by
  induction log with
  | nil => cases hentry
  | cons first log ih =>
    by_cases hfirst : among first.1 ∧ Succeeded first.2
    · obtain ⟨hfirst, files, hfiles⟩ := hfirst
      exact ⟨first.1, [], files, log, by rw [← hfiles]; rfl, hfirst, by simp⟩
    · have hrest : entry ∈ log := by
        rcases List.mem_cons.mp hentry with rfl | hrest
        · exact absurd ⟨hamong, hdone⟩ hfirst
        · exact hrest
      obtain ⟨call, later, files, earlier, rfl, hcall, hlater⟩ := ih hrest
      refine ⟨call, first :: later, files, earlier, rfl, hcall, ?_⟩
      intro other hother hsame hsucceeded
      rcases List.mem_cons.mp hother with rfl | hother
      · exact hfirst ⟨hsame, hsucceeded⟩
      · exact hlater other hother hsame hsucceeded

theorem IsLatest.mem {among : SaveCall → Prop} (h : IsLatest among log call) :
    ∃ entry ∈ log, entry.1 = call ∧ Succeeded entry.2 ∧ among call := by
  obtain ⟨later, files, earlier, rfl, hcall, -⟩ := h
  exact ⟨(call, .ok files), by simp, rfl, ⟨files, rfl⟩, hcall⟩

/-- No save of a name was stopped by a fault of the disk. -/
def Undisturbed (log : List Entry) (name : String) : Prop :=
  ∀ entry ∈ log, entry.1.name = name → ¬ IsFault entry.2

theorem Undisturbed.tail {entry : Entry} (h : Undisturbed (entry :: log) name) :
    Undisturbed log name := fun other hother => h other (List.mem_cons_of_mem _ hother)

/-- The files of a name in a format are those of what was saved, if anything was. -/
structure Stores (f : Folder) (place : Place) (name : String) (format : Format)
    (saved : Option Saved) : Prop where
  document : f.file? (place ++ [documentName name format]) =
    saved.map fun s => format.encode s.document
  sidecar : f.file? (place ++ [sidecarName name format]) =
    (saved.bind fun s => s.sidecar).map format.encode

/-- The directory of a store holds what the history of its saves says. -/
structure Holds (store : Store) (place : Place) (log : List Entry) (f : Folder) : Prop where
  shelf : f.Shelf store.root place
  stores : ∀ name, isValidName name = true → Undisturbed log name → ∀ format,
    Stores f place name format (store.kept log name format)
  only : (∀ entry ∈ log, ¬ IsFault entry.2) → ∀ file, (f.file? (place ++ [file])).isSome = true →
    ∃ entry ∈ log, Succeeded entry.2 ∧ (file = entry.1.document ∨ file = entry.1.sidecar)
  drafted : ∀ entry ∈ log, Succeeded entry.2 → isValidName entry.1.name = true ∧
    ∃ saved, store.draft entry.1 = .ok saved

/-- The files of another name or format are none of those that a call may touch. -/
theorem not_mem_files (hname : isValidName name = true) (hcall : isValidName call.name = true)
    (h : ¬(call.name = name ∧ call.format = format)) :
    documentName name format ∉ call.files ∧ sidecarName name format ∉ call.files := by
  have hdocument : documentName name format ≠ call.document := by
    intro hsame
    obtain ⟨hnames, hformats⟩ := documentName_inj.mp hsame
    exact h ⟨hnames.symm, hformats.symm⟩
  have hsidecar : sidecarName name format ≠ call.sidecar := by
    intro hsame
    obtain ⟨hnames, hformats⟩ := documentName_inj.mp hsame
    exact h ⟨((String.append_left_inj _).mp hnames).symm, hformats.symm⟩
  have hcross : documentName name format ≠ call.sidecar := (sidecarName_ne_documentName hname).symm
  have hback : sidecarName name format ≠ call.document := sidecarName_ne_documentName hcall
  have hpassing (other : String) : documentName name format ≠ passingName other :=
    passingName_ne_documentName.symm
  have hpassingSidecar (other : String) : sidecarName name format ≠ passingName other :=
    passingName_ne_documentName.symm
  simp [SaveCall.files, hdocument, hsidecar, hcross, hback, hpassing, hpassingSidecar]

theorem Stores.frame {saved : Option Saved} (h : Stores f place name format saved)
    (htouches : store.Touches place call f g) (hname : isValidName name = true)
    (hcall : isValidName call.name = true) (hother : ¬(call.name = name ∧ call.format = format)) :
    Stores g place name format saved := by
  obtain ⟨hdocument, hsidecar⟩ := not_mem_files hname hcall hother
  constructor
  · rw [htouches.frame _ hdocument, h.document]
  · rw [htouches.frame _ hsidecar, h.sidecar]

theorem Holds.drafted_cons {e : StoreError} (h : store.Holds place log f) :
    ∀ entry ∈ ((call, .error e) :: log : List Entry), Succeeded entry.2 →
      isValidName entry.1.name = true ∧ ∃ saved, store.draft entry.1 = .ok saved := by
  intro entry hentry hdone
  rcases List.mem_cons.mp hentry with rfl | hentry
  · obtain ⟨files, hfiles⟩ := hdone
    cases hfiles
  · exact h.drafted entry hentry hdone

/-- A save that fails without a fault of the disk adds nothing to what is held. -/
theorem Holds.refused {e : StoreError} (h : store.Holds place log f) :
    store.Holds place ((call, .error e) :: log) f := by
  constructor
  · exact h.shelf
  · exact fun name hname hundisturbed => h.stores name hname hundisturbed.tail
  · intro hfaults file hfile
    obtain ⟨entry, hentry, hdone⟩ :=
      h.only (fun other hother => hfaults other (List.mem_cons_of_mem _ hother)) file hfile
    exact ⟨entry, List.mem_cons_of_mem _ hentry, hdone⟩
  · exact h.drafted_cons

/-- A save that a fault stopped disturbs no files but those of its name. -/
theorem Holds.stopped {e : Fault} (h : store.Holds place log f)
    (hcall : isValidName call.name = true) (htouches : store.Touches place call f g) :
    store.Holds place ((call, .error (.io e)) :: log) g := by
  have hfault : ¬ ∀ entry ∈ (call, Except.error (.io e)) :: log, ¬ IsFault entry.2 :=
    fun hfaults => hfaults _ List.mem_cons_self ⟨e, rfl⟩
  constructor
  · exact htouches.shelf
  · intro name hname hundisturbed format
    apply (h.stores name hname hundisturbed.tail format).frame htouches hname hcall
    intro hsame
    exact hundisturbed _ List.mem_cons_self hsame.1 ⟨e, rfl⟩
  · exact fun hfaults => absurd hfaults hfault
  · exact h.drafted_cons

theorem Holds.done {saved : Saved} {files : StoredFiles} (h : store.Holds place log f)
    (hcall : isValidName call.name = true) (hdraft : store.draft call = .ok saved)
    (htouches : store.Touches place call f g) (hleaves : Leaves place call saved f g) :
    store.Holds place ((call, .ok files) :: log) g := by
  have htail (hfaults : ∀ entry ∈ (call, Except.ok files) :: log, ¬ IsFault entry.2) :
      ∀ entry ∈ log, ¬ IsFault entry.2 :=
    fun entry hentry => hfaults entry (List.mem_cons_of_mem _ hentry)
  constructor
  · exact htouches.shelf
  · intro name hname hundisturbed format
    by_cases hsame : call.name = name ∧ call.format = format
    · obtain ⟨rfl, rfl⟩ := hsame
      have hkept : store.kept ((call, .ok files) :: log) call.name call.format = some saved := by
        simp [kept, hdraft, Except.toOption]
      rw [hkept]
      exact ⟨hleaves.document, hleaves.sidecar⟩
    · have hkept : store.kept ((call, .ok files) :: log) name format =
          store.kept log name format := by
        rw [kept, if_neg hsame]
      rw [hkept]
      exact (h.stores name hname hundisturbed.tail format).frame htouches hname hcall hsame
  · intro hfaults file hfile
    rcases hleaves.only file hfile with hdocument | hsidecar | hbefore
    · exact ⟨_, List.mem_cons_self, ⟨files, rfl⟩, .inl hdocument⟩
    · exact ⟨_, List.mem_cons_self, ⟨files, rfl⟩, .inr hsidecar⟩
    · obtain ⟨entry, hentry, hdone⟩ := h.only (htail hfaults) file hbefore
      exact ⟨entry, List.mem_cons_of_mem _ hentry, hdone⟩
  · intro entry hentry hdone
    rcases List.mem_cons.mp hentry with rfl | hentry
    · exact ⟨hcall, saved, hdraft⟩
    · exact h.drafted entry hentry hdone

/-- One more save leaves the directory as the longer history says. -/
theorem Holds.step (h : store.Holds place log f) (hend : store.SaveEnds place call f result g) :
    store.Holds place ((call, result) :: log) g := by
  cases hend with
  | invalid hname => exact h.refused
  | refused hname hdraft => exact h.refused
  | fault hname htouches => exact h.stopped hname htouches
  | done hname hdraft htouches hleaves => exact h.done hname hdraft htouches hleaves

/-- Where nothing was saved yet, an empty directory holds what the history says. -/
theorem holds_of_failures (hfailures : ∀ entry ∈ log, ¬ Succeeded entry.2)
    (hshelf : f.Shelf store.root place) (hnone : ∀ file, f.file? (place ++ [file]) = none) :
    store.Holds place log f := by
  constructor
  · exact hshelf
  · intro name _ _ format
    rw [kept_eq_none fun entry hentry hdone => absurd hdone (hfailures entry hentry)]
    exact ⟨hnone _, hnone _⟩
  · intro _ file hfile
    simp [hnone] at hfile
  · exact fun entry hentry hdone => absurd hdone (hfailures entry hentry)

/-- The files of the most recent save of a name in a format. -/
theorem Holds.latest (h : store.Holds place log f)
    (hlast : IsLatest (fun other => other.name = name ∧ other.format = format) log call)
    (hname : Undisturbed log name) : isValidName name = true ∧
      ∃ saved, store.draft call = .ok saved ∧ Stores f place name format (some saved) := by
  obtain ⟨entry, hentry, rfl, hdone, hsame⟩ := hlast.mem
  obtain ⟨hvalid, saved, hdraft⟩ := h.drafted entry hentry hdone
  rw [hsame.1] at hvalid
  refine ⟨hvalid, saved, hdraft, ?_⟩
  have hstores := h.stores name hvalid hname format
  rwa [kept_of_isLatest hlast, hdraft] at hstores

/-- What a history leads to: no save came so far as to make the directory, the directory cannot be
made, or it holds what was saved. -/
inductive Reached (store : Store) (start : Folder) (log : List Entry) : Folder → Prop
  | untouched (h : ∀ entry ∈ log, ∃ name, entry.2 = .error (.invalidName name)) :
    Reached store start log start
  | shut {e : Fault} {f : Folder} (hmake : f.makeDirectories store.root = (.error e, f))
    (hfailures : ∀ entry ∈ log, ¬ Succeeded entry.2) (hfault : ∃ entry ∈ log, IsFault entry.2) :
    Reached store start log f
  | opened {place : Place} {f : Folder} (h : store.Holds place log f) : Reached store start log f

/-- The first save that comes so far as to make the directory. -/
theorem Reached.opens (hstart : store.StartsEmpty start) (hcall : isValidName call.name = true)
    (hlog : ∀ entry ∈ log, ¬ Succeeded entry.2) :
    store.Reached start ((call, (store.runSave call start).1) :: log)
      (store.runSave call start).2 := by
  rw [runSave_valid hcall]
  rcases hmake : start.makeDirectories store.root with ⟨_ | _, made⟩
  · rename_i e
    apply Reached.shut (e := e)
    · have hagain := Folder.makeDirectories_again start store.root
      rwa [hmake] at hagain
    · exact failures_cons hlog
    · exact ⟨_, List.mem_cons_self, e, rfl⟩
  · obtain ⟨place, hshelf, hnone⟩ := Folder.shelf_of_names (hstart.made made hmake)
    exact .opened ((holds_of_failures hlog hshelf hnone).step (saveInto_ends hcall hshelf))

/-- A folder in which the directory cannot be made stays as it is. -/
theorem Reached.stays_shut {e : Fault} (hmake : f.makeDirectories store.root = (.error e, f))
    (hfailures : ∀ entry ∈ log, ¬ Succeeded entry.2) (hfault : ∃ entry ∈ log, IsFault entry.2) :
    store.Reached start ((call, (store.runSave call f).1) :: log) (store.runSave call f).2 := by
  obtain ⟨entry, hentry, hstopped⟩ := hfault
  have hmore (result) : ∃ entry ∈ ((call, result) :: log : List Entry), IsFault entry.2 :=
    ⟨entry, List.mem_cons_of_mem _ hentry, hstopped⟩
  cases hcall : isValidName call.name with
  | false =>
    rw [runSave_invalid hcall]
    exact .shut hmake (failures_cons hfailures) (hmore _)
  | true =>
    rw [runSave_valid hcall, hmake]
    exact .shut hmake (failures_cons hfailures) (hmore _)

theorem not_succeeded_of_invalid (h : ∀ entry ∈ log, ∃ name, entry.2 = .error (.invalidName name)) :
    ∀ entry ∈ log, ¬ Succeeded entry.2 := by
  intro entry hentry ⟨files, hfiles⟩
  obtain ⟨name, hname⟩ := h entry hentry
  rw [hname] at hfiles
  cases hfiles

theorem History.reached (hstart : store.StartsEmpty start) (h : store.History start log f) :
    store.Reached start log f := by
  induction h with
  | start => exact .untouched fun entry hentry => absurd hentry List.not_mem_nil
  | @save log f call h ih =>
    cases ih with
    | untouched hlog =>
      cases hcall : isValidName call.name with
      | true => exact Reached.opens hstart hcall (not_succeeded_of_invalid hlog)
      | false =>
        rw [runSave_invalid hcall]
        apply Reached.untouched
        intro entry hentry
        rcases List.mem_cons.mp hentry with rfl | hentry
        · exact ⟨call.name, rfl⟩
        · exact hlog entry hentry
    | shut hmake hfailures hfault => exact Reached.stays_shut hmake hfailures hfault
    | opened hholds => exact .opened (hholds.step (runSave_ends hholds.shelf))

end AgentGraph.Store
