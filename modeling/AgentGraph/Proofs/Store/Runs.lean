import AgentGraph.Proofs.Store.Names
/-!
# A save on a folder

What one save does to the directory of a store that holds files only: it refuses the name or the
graph and changes nothing, a fault stops it in the midst of its own files, or it leaves the document
and the sidecar of what was saved.
-/
namespace AgentGraph.Store
variable {store : Store} {f g : Folder} {place other : Place} {file text : String} {format : Format}

section
variable {α β : Type} {x : ExceptT StoreError (StateM Folder) α}
  {k : α → ExceptT StoreError (StateM Folder) β}

/-- What a step gives on a folder. -/
def on (x : ExceptT StoreError (StateM Folder) α) (f : Folder) : Except StoreError α × Folder :=
  x.run.run f

theorem on_bind : on (x >>= k) f =
    match on x f with
    | (.ok a, g) => on (k a) g
    | (.error e, g) => (.error e, g) := by
  unfold on
  simp only [ExceptT.run_bind, StateT.run_bind]
  change (match x.run.run f with | (r, g) => _) = _
  rcases x.run.run f with ⟨_ | _, _⟩ <;> rfl

theorem on_lift {step : StateM Folder α} : on (liftM step) f = (.ok (step f).1, (step f).2) := rfl

theorem on_orError (r : Except StoreError α) : on (orError r) f = (r, f) := rfl

theorem on_attempt (operation : Folder → Except Fault Folder) :
    on (orFault (Folder.attempt operation)) f =
      match operation f with
      | .ok g => (.ok (), g)
      | .error e => (.error (.io e), f) := by
  unfold on orFault Folder.attempt
  simp only [ExceptT.run_mk, StateT.run_bind, StateT.run_get, pure_bind]
  cases h : operation f <;> rfl

theorem on_write {p : Path} : on (orFault (Disk.write p text)) f =
    match f.write p text with
    | .ok g => (.ok (), g)
    | .error e => (.error (.io e), f) :=
  on_attempt _

theorem on_rename {p target : Path} : on (orFault (Disk.rename p target)) f =
    match f.rename p target with
    | .ok g => (.ok (), g)
    | .error e => (.error (.io e), f) :=
  on_attempt _

theorem on_remove {p : Path} : on (orFault (Disk.remove p)) f =
    match f.remove p with
    | .ok g => (.ok (), g)
    | .error e => (.error (.io e), f) :=
  on_attempt _

theorem on_makeDirectories {p : Path} : on (orFault (Disk.makeDirectories p)) f =
    ((f.makeDirectories p).1.mapError .io, (f.makeDirectories p).2) := rfl

theorem on_read {p : Path} : on (orFault (Disk.read p)) f = ((f.read p).mapError .io, f) := rfl

theorem on_names {p : Path} : on (orFault (Disk.names p)) f = ((f.names p).mapError .io, f) := rfl

theorem on_present {p : Path} :
    on (liftM (Disk.present p : StateM Folder Bool)) f = (.ok (f.present p), f) :=
  on_lift

end

/-! ## Writing a file -/

/-- The folder after a file was written under its passing name and renamed. -/
def settle (f : Folder) (place : Place) (file text : String) : Folder :=
  ((f.put (place ++ [passingName file]) text).erase (place ++ [passingName file])).put
    (place ++ [file]) text

theorem file?_settle : (settle f place file text).file? other =
    if other = place ++ [file] then some text
    else if other = place ++ [passingName file] then none
    else f.file? other := by
  unfold settle
  rw [Folder.file?_put, Folder.file?_erase, Folder.file?_put]
  split_ifs <;> rfl

theorem shelf_settle (h : f.Shelf store.root place)
    (hcheck : Folder.checkName (passingName file) = .ok ()) :
    (settle f place file text).Shelf store.root place := by
  unfold settle
  apply Folder.Shelf.put
  · apply Folder.Shelf.erase
    exact h.put hcheck
  · exact checkName_of_passing hcheck

theorem writeWhole_on (h : f.Shelf store.root place) (hfile : Folder.IsFileName file) :
    on (store.writeWhole file text) f =
      match Folder.checkName (passingName file) with
      | .ok _ => (.ok (), settle f place file text)
      | .error e => (.error (.io e), f) := by
  unfold writeWhole
  rw [on_bind, on_write, h.write_child isFileName_passingName]
  cases hcheck : Folder.checkName (passingName file) with
  | error e => rfl
  | ok _ =>
    simp only [Except.map]
    rw [on_rename, (h.put hcheck).rename_child isFileName_passingName hfile
      (checkName_of_passing hcheck) (by rw [Folder.file?_put, if_pos rfl])]
    rfl

/-- The folder after the sidecar of an earlier save was removed. -/
def discard (f : Folder) (place : Place) (file : String) : Folder :=
  if (f.file? (place ++ [file])).isSome then f.erase (place ++ [file]) else f

theorem file?_discard : (discard f place file).file? other =
    if other = place ++ [file] then none else f.file? other := by
  unfold discard
  split_ifs with hfile hother hother
  · rw [Folder.file?_erase, if_pos hother]
  · rw [Folder.file?_erase, if_neg hother]
  · rw [hother]
    exact Option.not_isSome_iff_eq_none.mp hfile
  · rfl

theorem shelf_discard (h : f.Shelf store.root place) :
    (discard f place file).Shelf store.root place := by
  unfold discard
  split_ifs
  · exact h.erase
  · exact h

theorem writeSidecar_on_none (h : f.Shelf store.root place) (hfile : Folder.IsFileName file) :
    on (store.writeSidecar file format none) f = (.ok none, discard f place file) := by
  unfold writeSidecar
  simp only
  rw [on_bind, on_present, h.present_child hfile]
  unfold discard
  cases hthere : f.file? (place ++ [file]) with
  | none => rfl
  | some old =>
    simp only [Option.isSome_some, if_true]
    rw [on_bind, on_remove, h.remove_child hfile hthere]
    rfl

theorem writeSidecar_on_some {t : Tree} (h : f.Shelf store.root place)
    (hfile : Folder.IsFileName file) :
    on (store.writeSidecar file format (some t)) f =
      match Folder.checkName (passingName file) with
      | .ok _ => (.ok (some file), settle f place file (format.encode t))
      | .error e => (.error (.io e), f) := by
  unfold writeSidecar
  simp only
  rw [on_bind, writeWhole_on h hfile]
  cases Folder.checkName (passingName file) <;> rfl

/-! ## A save -/

/-- What `save` is asked for. -/
structure SaveCall where
  name : String
  root : Component
  options : SaveOptions
  format : Format

namespace SaveCall

/-- The file of the document. -/
def document (call : SaveCall) : String := documentName call.name call.format

/-- The file of the sidecar. -/
def sidecar (call : SaveCall) : String := sidecarName call.name call.format

/-- Every file that the call may touch. -/
def files (call : SaveCall) : List String :=
  [call.document, call.sidecar, passingName call.document, passingName call.sidecar]

variable {call : SaveCall}

theorem isFileName_document : Folder.IsFileName call.document := isFileName_documentName

theorem isFileName_sidecar : Folder.IsFileName call.sidecar := isFileName_sidecarName

theorem sidecar_ne_document (hname : isValidName call.name = true) : call.sidecar ≠ call.document :=
  sidecarName_ne_documentName hname

theorem passing_ne_document : passingName file ≠ call.document := passingName_ne_documentName

end SaveCall

/-- What is saved for a call: the sidecar is exported whenever components are forced into it. -/
def draft (store : Store) (call : SaveCall) : Except SaveError Saved :=
  AgentGraph.save store.registry store.policy
    { call.options with exportSidecar := !call.options.disaggregated.isEmpty } call.root

/-- One call of `save` on a folder. -/
def runSave (store : Store) (call : SaveCall) (f : Folder) :
    Except StoreError StoredFiles × Folder :=
  on (store.save call.name call.root call.options call.format) f

/-- A call of `save` changed no file but its own. -/
structure Touches (store : Store) (place : Place) (call : SaveCall) (f g : Folder) : Prop where
  shelf : g.Shelf store.root place
  frame : ∀ file, file ∉ call.files → g.file? (place ++ [file]) = f.file? (place ++ [file])

namespace Touches
variable {call : SaveCall} {h : Folder}

theorem trans (hfg : store.Touches place call f g) (hgh : store.Touches place call g h) :
    store.Touches place call f h :=
  ⟨hgh.shelf, fun file hfile => (hgh.frame file hfile).trans (hfg.frame file hfile)⟩

theorem settle (hshelf : f.Shelf store.root place)
    (hfile : file = call.document ∨ file = call.sidecar)
    (hcheck : Folder.checkName (passingName file) = .ok ()) :
    store.Touches place call f (settle f place file text) := by
  constructor
  · exact shelf_settle hshelf hcheck
  · intro other hother
    simp only [SaveCall.files, List.mem_cons, List.not_mem_nil, or_false, not_or] at hother
    rw [file?_settle, if_neg, if_neg]
    · rcases hfile with rfl | rfl <;> simp [hother]
    · rcases hfile with rfl | rfl <;> simp [hother]

theorem discard (hshelf : f.Shelf store.root place) :
    store.Touches place call f (discard f place call.sidecar) := by
  constructor
  · exact shelf_discard hshelf
  · intro other hother
    simp only [SaveCall.files, List.mem_cons, List.not_mem_nil, or_false, not_or] at hother
    rw [file?_discard, if_neg]
    simp [hother]

end Touches

/-- The files of a save are as it leaves them. -/
structure Leaves (place : Place) (call : SaveCall) (saved : Saved) (f g : Folder) : Prop where
  document : g.file? (place ++ [call.document]) = some (call.format.encode saved.document)
  sidecar : g.file? (place ++ [call.sidecar]) = saved.sidecar.map call.format.encode
  only : ∀ file, (g.file? (place ++ [file])).isSome = true →
    file = call.document ∨ file = call.sidecar ∨ (f.file? (place ++ [file])).isSome = true

/-- The ways in which a call of `save` ends. -/
inductive SaveEnds (store : Store) (place : Place) (call : SaveCall) (f : Folder) :
    Except StoreError StoredFiles → Folder → Prop
  | invalid (hname : isValidName call.name = false) :
    SaveEnds store place call f (.error (.invalidName call.name)) f
  | refused {e : SaveError} (hname : isValidName call.name = true)
    (hdraft : store.draft call = .error e) : SaveEnds store place call f (.error (.save e)) f
  | fault {e : Fault} {g : Folder} (hname : isValidName call.name = true)
    (htouches : store.Touches place call f g) : SaveEnds store place call f (.error (.io e)) g
  | done {saved : Saved} {files : StoredFiles} {g : Folder} (hname : isValidName call.name = true)
    (hdraft : store.draft call = .ok saved) (htouches : store.Touches place call f g)
    (hleaves : Leaves place call saved f g) : SaveEnds store place call f (.ok files) g

/-- What a save does once its directory is there. -/
def saveInto (store : Store) (call : SaveCall) : ExceptT StoreError (StateM Folder) StoredFiles :=
  orError ((store.draft call).mapError .save) >>= fun saved =>
    store.writeWhole call.document (call.format.encode saved.document) >>= fun _ =>
      store.writeSidecar call.sidecar call.format saved.sidecar >>= fun sidecar =>
        return ⟨call.document, sidecar⟩

theorem runSave_invalid {call : SaveCall} (hname : isValidName call.name = false) :
    store.runSave call f = (.error (.invalidName call.name), f) := by
  unfold runSave save
  rw [on_bind, on_orError]
  simp [checkName, hname]

theorem runSave_valid {call : SaveCall} (hname : isValidName call.name = true) :
    store.runSave call f =
      match f.makeDirectories store.root with
      | (.ok _, g) => on (store.saveInto call) g
      | (.error e, g) => (.error (.io e), g) := by
  unfold runSave save
  rw [on_bind, on_orError]
  simp only [checkName, hname, if_true]
  rw [on_bind, on_makeDirectories]
  rcases f.makeDirectories store.root with ⟨_ | _, g⟩ <;> rfl

theorem leaves_without_sidecar {call : SaveCall} {saved : Saved}
    (hname : isValidName call.name = true) (hsidecar : saved.sidecar = none) :
    Leaves place call saved f (discard
      (settle f place call.document (call.format.encode saved.document)) place call.sidecar) := by
  have hne := SaveCall.sidecar_ne_document hname
  constructor
  · simp [file?_discard, file?_settle, hne.symm]
  · simp [file?_discard, hsidecar]
  · intro file hfile
    simp only [file?_discard, file?_settle, List.append_cancel_left_eq, List.cons.injEq, and_true]
      at hfile
    split_ifs at hfile with hother hdocument
    · cases hfile
    · exact .inl hdocument
    · cases hfile
    · exact .inr (.inr hfile)

theorem leaves_with_sidecar {call : SaveCall} {saved : Saved} {t : Tree}
    (hname : isValidName call.name = true) (hsidecar : saved.sidecar = some t) :
    Leaves place call saved f (settle
      (settle f place call.document (call.format.encode saved.document)) place call.sidecar
      (call.format.encode t)) := by
  have hne := SaveCall.sidecar_ne_document hname
  have hpassing : passingName call.sidecar ≠ call.document := SaveCall.passing_ne_document
  constructor
  · simp [file?_settle, hne.symm, hpassing.symm]
  · simp [file?_settle, hsidecar]
  · intro file hfile
    simp only [file?_settle, List.append_cancel_left_eq, List.cons.injEq, and_true] at hfile
    split_ifs at hfile with hother _ hdocument
    · exact .inr (.inl hother)
    · cases hfile
    · exact .inl hdocument
    · cases hfile
    · exact .inr (.inr hfile)

theorem saveInto_ends {call : SaveCall} (hname : isValidName call.name = true)
    (h : f.Shelf store.root place) :
    store.SaveEnds place call f (on (store.saveInto call) f).1 (on (store.saveInto call) f).2 := by
  unfold saveInto
  rw [on_bind, on_orError]
  cases hdraft : store.draft call with
  | error e => exact .refused hname hdraft
  | ok saved =>
    simp only [Except.mapError]
    rw [on_bind, writeWhole_on h SaveCall.isFileName_document]
    cases hdocument : Folder.checkName (passingName call.document) with
    | error e => exact .fault hname ⟨h, fun _ _ => rfl⟩
    | ok _ =>
      have htouches : store.Touches place call f
          (settle f place call.document (call.format.encode saved.document)) :=
        .settle h (.inl rfl) hdocument
      have hwritten := htouches.shelf
      simp only
      rw [on_bind]
      cases hsidecar : saved.sidecar with
      | none =>
        rw [writeSidecar_on_none hwritten SaveCall.isFileName_sidecar]
        exact .done hname hdraft (htouches.trans (.discard hwritten))
          (leaves_without_sidecar hname hsidecar)
      | some t =>
        rw [writeSidecar_on_some hwritten SaveCall.isFileName_sidecar]
        cases hcheck : Folder.checkName (passingName call.sidecar) with
        | error e => exact .fault hname htouches
        | ok _ =>
          exact .done hname hdraft (htouches.trans (.settle hwritten (.inr rfl) hcheck))
            (leaves_with_sidecar hname hsidecar)

/-- What a save does where its directory is there and holds files only. -/
theorem runSave_ends {call : SaveCall} (h : f.Shelf store.root place) :
    store.SaveEnds place call f (store.runSave call f).1 (store.runSave call f).2 := by
  cases hname : isValidName call.name with
  | false =>
    rw [runSave_invalid hname]
    exact .invalid hname
  | true =>
    rw [runSave_valid hname, h.makeDirectories]
    exact saveInto_ends hname h

end AgentGraph.Store
