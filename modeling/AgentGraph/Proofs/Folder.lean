import AgentGraph.Disk.Folder
import AgentGraph.Proofs.Run
import Mathlib.Data.List.Basic
/-!
# Laws of a folder in memory

What an operation does to the text of one file, what it does to the directories, and where the path
of a file in a directory leads. Making a directory that is there changes nothing.
-/
namespace AgentGraph.Folder
variable {f g : Folder} {here place other : Place} {name part text : String}
  {parts more : List String} {p : Path}

/-! ## Files -/

theorem lookup_cons_if {α : Type} (value : α) (files : List (Place × α)) :
    List.lookup other ((place, value) :: files) =
      if other = place then some value else List.lookup other files := by
  by_cases h : other = place
  · simp [h]
  · simp [List.lookup_cons, h, beq_eq_false_iff_ne.mpr h]

theorem lookup_replace (files : List (Place × String)) :
    List.lookup other
        (files.map fun entry => if entry.1 == place then (place, text) else entry) =
      if other = place then (List.lookup place files).map fun _ => text
      else List.lookup other files := by
  induction files with
  | nil => simp
  | cons entry files ih =>
    obtain ⟨key, value⟩ := entry
    rw [List.map_cons, lookup_cons_if value, lookup_cons_if value]
    by_cases hkey : key = place
    · subst hkey
      simp only [beq_self_eq_true, if_true, lookup_cons_if, ih]
      split_ifs <;> rfl
    · simp only [beq_eq_false_iff_ne.mpr hkey, Bool.false_eq_true, if_false, lookup_cons_if, ih]
      by_cases hother : other = place
      · subst hother
        simp [Ne.symm hkey]
      · simp [hother]

theorem file?_put (f : Folder) (place : Place) (text : String) (other : Place) :
    (f.put place text).file? other = if other = place then some text else f.file? other := by
  unfold put
  by_cases hthere : (f.file? place).isSome = true
  · obtain ⟨old, hold⟩ := Option.isSome_iff_exists.mp hthere
    rw [if_pos hthere]
    unfold file? at hold ⊢
    rw [lookup_replace, hold]
    rfl
  · rw [if_neg hthere]
    have hnone : List.lookup place f.files = none := Option.not_isSome_iff_eq_none.mp hthere
    unfold file?
    simp only [List.lookup_append, lookup_cons_if, List.lookup_nil]
    split_ifs with hother
    · rw [hother, hnone]
      rfl
    · rw [Option.or_none]

theorem file?_erase (f : Folder) (place other : Place) :
    (f.erase place).file? other = if other = place then none else f.file? other := by
  unfold file? erase
  induction f.files with
  | nil => simp
  | cons entry files ih =>
    obtain ⟨key, value⟩ := entry
    by_cases hkey : key = place
    · subst hkey
      simp only [List.filter_cons, bne_self_eq_false, Bool.false_eq_true, if_false, ih,
        lookup_cons_if]
      split_ifs <;> rfl
    · simp only [List.filter_cons, bne_iff_ne.mpr hkey, if_true, ih, lookup_cons_if]
      by_cases hother : other = place
      · subst hother
        simp [Ne.symm hkey]
      · simp [hother]

@[simp] theorem file?_addDirectory : (f.addDirectory place).file? other = f.file? other := rfl

theorem isSome_lookup_iff {α : Type} (files : List (Place × α)) :
    (List.lookup place files).isSome = true ↔ place ∈ files.map Prod.fst := by
  induction files with
  | nil => simp
  | cons entry files ih =>
    obtain ⟨key, value⟩ := entry
    rw [lookup_cons_if, List.map_cons, List.mem_cons, ← ih]
    split_ifs with h <;> simp [h]

/-- The names in a directory are those of the files and directories right below it. -/
theorem mem_namesAt : name ∈ f.namesAt place ↔
    (f.file? (place ++ [name])).isSome = true ∨ place ++ [name] ∈ f.directories := by
  have below (other : Place) : (if other.dropLast == place then other.getLast? else none) =
      some name ↔ other = place ++ [name] := by
    constructor
    · intro h
      split_ifs at h with hplace
      rw [← List.dropLast_append_getLast? name h, beq_iff_eq.mp hplace]
    · intro h
      simp [h]
  unfold namesAt file?
  rw [isSome_lookup_iff, ← List.mem_append, List.mem_filterMap]
  constructor
  · intro ⟨other, hother, h⟩
    rwa [← (below other).mp h]
  · intro h
    exact ⟨place ++ [name], h, (below _).mpr rfl⟩

/-! ## Directories -/

theorem isDirectory_append_iff :
    f.isDirectory (place ++ [name]) = true ↔ place ++ [name] ∈ f.directories := by
  simp [isDirectory]

theorem isDirectory_addDirectory :
    (f.addDirectory place).isDirectory other = (f.isDirectory other || decide (other = place)) := by
  simp [isDirectory, addDirectory, Bool.or_assoc]

theorem checkDirectory_ok (h : f.isDirectory place = true) : f.checkDirectory place = .ok () := by
  unfold checkDirectory
  rw [if_pos h]

theorem isDirectory_of_checkDirectory (h : f.checkDirectory place = .ok ()) :
    f.isDirectory place = true := by
  unfold checkDirectory at h
  split_ifs at h with hplace
  exact hplace

/-- What a part of a path that is followed from a place leads to. -/
def enter (here : Place) (part : String) : Except Fault Place :=
  if part == "." then .ok here
  else if part == ".." then if here.isEmpty then .error .notFound else .ok here.dropLast
  else .ok (here ++ [part])

theorem follow_cons : f.follow here (part :: parts) =
    f.checkDirectory here >>= fun _ => checkName part >>= fun _ =>
      enter here part >>= fun next => f.follow next parts := by
  rw [follow]
  unfold enter
  congr 1
  funext _
  congr 1
  funext _
  split_ifs <;> rfl

theorem follow_append : f.follow here (parts ++ more) =
    f.follow here parts >>= fun place => f.follow place more := by
  induction parts generalizing here with
  | nil => rfl
  | cons part parts ih =>
    rw [List.cons_append, follow_cons, follow_cons]
    simp only [ih, bind_assoc]

/-- The steps of a path that leads somewhere. -/
theorem follow_cons_ok (h : f.follow here (part :: parts) = .ok place) :
    f.isDirectory here = true ∧ checkName part = .ok () ∧
      ∃ next, enter here part = .ok next ∧ f.follow next parts = .ok place := by
  rw [follow_cons] at h
  obtain ⟨_, hdirectory, h⟩ := bind_ok h
  obtain ⟨_, hname, h⟩ := bind_ok h
  obtain ⟨next, hnext, h⟩ := bind_ok h
  exact ⟨isDirectory_of_checkDirectory hdirectory, hname, next, hnext, h⟩

/-- With more directories a path still leads where it led. -/
theorem follow_mono (hmore : ∀ place, f.isDirectory place = true → g.isDirectory place = true)
    (h : f.follow here parts = .ok place) : g.follow here parts = .ok place := by
  induction parts generalizing here with
  | nil => exact h
  | cons part parts ih =>
    obtain ⟨hdirectory, hname, next, hnext, hrest⟩ := follow_cons_ok h
    rw [follow_cons, checkDirectory_ok (hmore _ hdirectory), hname, hnext]
    exact ih hrest

/-- A path leads to nothing but a directory if something is to be found below. -/
theorem isDirectory_of_follow (h : f.follow here (parts ++ [part]) = .ok place) :
    ∃ directory, f.follow here parts = .ok directory ∧ f.isDirectory directory = true := by
  rw [follow_append] at h
  obtain ⟨directory, hparts, h⟩ := bind_ok h
  exact ⟨directory, hparts, (follow_cons_ok h).1⟩

/-! ## Making directories -/

/-- What making the directory of one part gives: the place it leads to and the folder. -/
def makePart (f : Folder) (here : Place) (part : String) (last : Bool) :
    Except Fault Place × Folder :=
  if part == "." then (.ok here, f)
  else if part == ".." then
    if here.isEmpty then (.error .notFound, f) else (.ok here.dropLast, f)
  else
    match checkName part with
    | .error e => (.error e, f)
    | .ok _ =>
      if f.isDirectory (here ++ [part]) then (.ok (here ++ [part]), f)
      else if (f.file? (here ++ [part])).isSome then
        (.error (if last then .alreadyExists else .notADirectory), f)
      else (.ok (here ++ [part]), f.addDirectory (here ++ [part]))

theorem makeFrom_cons : f.makeFrom here (part :: parts) =
    match f.makePart here part parts.isEmpty with
    | (.ok next, g) => g.makeFrom next parts
    | (.error e, g) => (.error e, g) := by
  rw [makeFrom]
  unfold makePart
  split_ifs <;> try rfl
  all_goals cases checkName part <;> simp_all

/-- What making directories changes: it adds directories and leaves every file. -/
structure Makes (f g : Folder) : Prop where
  files : g.files = f.files
  directories : ∀ place, f.isDirectory place = true → g.isDirectory place = true

theorem Makes.refl (f : Folder) : f.Makes f := ⟨rfl, fun _ h => h⟩

theorem Makes.trans {h : Folder} (hfg : f.Makes g) (hgh : g.Makes h) : f.Makes h :=
  ⟨hgh.files.trans hfg.files,
    fun place hplace => hgh.directories place (hfg.directories place hplace)⟩

theorem makes_addDirectory (f : Folder) (place : Place) : f.Makes (f.addDirectory place) := by
  constructor
  · rfl
  · intro other hother
    simp [isDirectory_addDirectory, hother]

/-- The directory of one part is refused, or it is there from then on. -/
theorem makePart_cases (f : Folder) (here : Place) (part : String) (last : Bool) :
    (∃ e, f.makePart here part last = (.error e, f)) ∨
    ∃ next made, f.makePart here part last = (.ok next, made) ∧ f.Makes made ∧
      ∀ g, made.Makes g → g.makePart here part last = (.ok next, g) := by
  have entered (made : Folder) (hname : checkName part = .ok ()) (hdot : ¬(part == ".") = true)
      (hup : ¬(part == "..") = true) (hmade : made.isDirectory (here ++ [part]) = true) :
      ∀ g, made.Makes g → g.makePart here part last = (.ok (here ++ [part]), g) := by
    intro g hg
    unfold makePart
    rw [if_neg hdot, if_neg hup, hname]
    simp only [hg.directories _ hmade, if_true]
  by_cases hdot : (part == ".") = true
  · refine .inr ⟨here, f, ?_, Makes.refl f, fun g _ => ?_⟩ <;> simp [makePart, hdot]
  by_cases hup : (part == "..") = true
  · by_cases hempty : here.isEmpty = true
    · exact .inl ⟨.notFound, by simp [makePart, hdot, hup, hempty]⟩
    · refine .inr ⟨here.dropLast, f, ?_, Makes.refl f, fun g _ => ?_⟩ <;>
        simp [makePart, hdot, hup, hempty]
  cases hname : checkName part with
  | error e => exact .inl ⟨e, by simp [makePart, hdot, hup, hname]⟩
  | ok _ =>
    by_cases hthere : f.isDirectory (here ++ [part]) = true
    · refine .inr ⟨here ++ [part], f, ?_, Makes.refl f, entered f hname hdot hup hthere⟩
      exact entered f hname hdot hup hthere f (Makes.refl f)
    by_cases hfile : (f.file? (here ++ [part])).isSome = true
    · exact .inl ⟨_, by simp [makePart, hdot, hup, hname, hthere, hfile]; rfl⟩
    · refine .inr ⟨here ++ [part], f.addDirectory (here ++ [part]), ?_, makes_addDirectory f _,
        entered _ hname hdot hup ?_⟩
      · simp [makePart, hdot, hup, hname, hthere, hfile]
      · simp [isDirectory_addDirectory]

theorem makeFrom_makes (f : Folder) (here : Place) (parts : List String) :
    f.Makes (f.makeFrom here parts).2 := by
  induction parts generalizing f here with
  | nil => exact Makes.refl f
  | cons part parts ih =>
    rw [makeFrom_cons]
    obtain ⟨e, h⟩ | ⟨next, made, h, hmade, -⟩ := makePart_cases f here part parts.isEmpty
    · rw [h]
      exact Makes.refl f
    · rw [h]
      exact hmade.trans (ih made next)

/-- Made a second time, directories are there already or missing for the same cause. -/
theorem makeFrom_again (f : Folder) (here : Place) (parts : List String) :
    (f.makeFrom here parts).2.makeFrom here parts = f.makeFrom here parts := by
  induction parts generalizing f here with
  | nil => rfl
  | cons part parts ih =>
    have step : f.makeFrom here (part :: parts) =
        match f.makePart here part parts.isEmpty with
        | (.ok next, g) => g.makeFrom next parts
        | (.error e, g) => (.error e, g) := makeFrom_cons
    obtain ⟨e, h⟩ | ⟨next, made, h, -, hagain⟩ := makePart_cases f here part parts.isEmpty
    · rw [h] at step
      rw [step]
      exact step
    · rw [h] at step
      simp only at step
      rw [step, makeFrom_cons, hagain _ (makeFrom_makes made next parts)]
      exact ih made next

/-- Making a directory that a path leads to changes nothing. -/
theorem makeFrom_of_follow (h : f.follow here parts = .ok place)
    (hplace : f.isDirectory place = true) : f.makeFrom here parts = (.ok (), f) := by
  induction parts generalizing here with
  | nil => rfl
  | cons part parts ih =>
    obtain ⟨-, hname, next, hnext, hrest⟩ := follow_cons_ok h
    have hdirectory : f.isDirectory next = true := by
      cases parts with
      | nil => cases hrest; exact hplace
      | cons => exact (follow_cons_ok hrest).1
    have hpart : f.makePart here part parts.isEmpty = (.ok next, f) := by
      unfold enter at hnext
      unfold makePart
      split_ifs at hnext ⊢ <;> cases hnext <;> simp_all
    rw [makeFrom_cons, hpart]
    exact ih hrest

/-! ## The files of one directory -/

/-- A directory is at a place, and only files with names that a file can have are right below. -/
structure Shelf (f : Folder) (directory : Path) (place : Place) : Prop where
  found : f.locate directory = .ok place
  there : f.isDirectory place = true
  flat : ∀ name, f.isDirectory (place ++ [name]) = false
  named : ∀ name, (f.file? (place ++ [name])).isSome = true → checkName name = .ok ()

/-- A name that stands for no directory by itself. -/
def IsFileName (name : String) : Prop := name ≠ "." ∧ name ≠ ".."

theorem locate_ok (h : f.locate p = .ok place) :
    p.absolute = false ∧ f.follow [] p.parts = .ok place := by
  unfold locate at h
  split_ifs at h with habsolute
  · simp only [Bool.or_eq_true, not_or, Bool.not_eq_true] at habsolute
    exact ⟨habsolute.1, h⟩

/-- A directory that a path leads to is not made again. -/
theorem makeDirectories_of_found (hfound : f.locate p = .ok place)
    (hthere : f.isDirectory place = true) : f.makeDirectories p = (.ok (), f) := by
  obtain ⟨habsolute, hfollow⟩ := locate_ok hfound
  unfold makeDirectories
  rw [habsolute]
  exact makeFrom_of_follow hfollow hthere

theorem makeDirectories_makes (f : Folder) (p : Path) : f.Makes (f.makeDirectories p).2 := by
  unfold makeDirectories
  split_ifs
  · exact Makes.refl f
  · exact makeFrom_makes f [] p.parts

theorem makeDirectories_again (f : Folder) (p : Path) :
    (f.makeDirectories p).2.makeDirectories p = f.makeDirectories p := by
  unfold makeDirectories
  split_ifs
  · rfl
  · exact makeFrom_again f [] p.parts

/-- An empty directory is a shelf. -/
theorem shelf_of_names (h : f.names p = .ok []) : ∃ place, f.Shelf p place ∧
    ∀ name, f.file? (place ++ [name]) = none := by
  unfold names at h
  obtain ⟨place, hfound, h⟩ := bind_ok h
  obtain ⟨_, hthere, h⟩ := bind_ok h
  have hempty : f.namesAt place = [] := Except.ok.inj h
  have hnothing (name : String) : (f.file? (place ++ [name])).isSome = false ∧
      f.isDirectory (place ++ [name]) = false := by
    have hname : name ∉ f.namesAt place := by simp [hempty]
    rw [mem_namesAt, ← isDirectory_append_iff] at hname
    simpa using hname
  refine ⟨place, ?_, fun name => Option.not_isSome_iff_eq_none.mp (by simp [(hnothing name).1])⟩
  constructor
  · exact hfound
  · exact isDirectory_of_checkDirectory hthere
  · exact fun name => (hnothing name).2
  · intro name hname
    simp [(hnothing name).1] at hname

namespace Shelf
variable {directory : Path} {source target : String}

theorem makeDirectories (h : f.Shelf directory place) :
    f.makeDirectories directory = (.ok (), f) :=
  makeDirectories_of_found h.found h.there

theorem locate_child (h : f.Shelf directory place) (hname : IsFileName name) :
    f.locate (directory.child name) = (checkName name).map fun _ => place ++ [name] := by
  obtain ⟨habsolute, hfollow⟩ := locate_ok h.found
  have hlast : enter place name = .ok (place ++ [name]) := by simp [enter, hname.1, hname.2]
  have hparts : (directory.parts ++ [name]).isEmpty = false := by simp
  unfold locate Path.child
  simp only [habsolute, hparts, Bool.false_or, Bool.false_and, Bool.false_eq_true, if_false,
    follow_append, hfollow]
  change f.follow place [name] = _
  rw [follow_cons, checkDirectory_ok h.there, hlast]
  cases checkName name <;> rfl

theorem locate_file (h : f.Shelf directory place) (hname : IsFileName name)
    (hcheck : checkName name = .ok ()) :
    f.locate (directory.child name) = .ok (place ++ [name]) := by
  rw [h.locate_child hname, hcheck]
  rfl

theorem present_child (h : f.Shelf directory place) (hname : IsFileName name) :
    f.present (directory.child name) = (f.file? (place ++ [name])).isSome := by
  unfold present
  rw [h.locate_child hname]
  cases hcheck : checkName name with
  | ok _ => simp [Except.map, h.flat, Path.child]
  | error e =>
    cases hfile : (f.file? (place ++ [name])).isSome with
    | false => rfl
    | true => simp [h.named name hfile] at hcheck

theorem read_child (h : f.Shelf directory place) (hname : IsFileName name)
    (hfile : f.file? (place ++ [name]) = some text) : f.read (directory.child name) = .ok text := by
  have hcheck := h.named name (by simp [hfile])
  unfold read
  rw [h.locate_file hname hcheck]
  simp [bind, Except.bind, h.flat, hfile, Path.child]
  rfl

theorem write_child (h : f.Shelf directory place) (hname : IsFileName name) :
    f.write (directory.child name) text =
      (checkName name).map fun _ => f.put (place ++ [name]) text := by
  unfold write
  rw [h.locate_child hname]
  cases checkName name with
  | error e => rfl
  | ok _ =>
    simp [Except.map, bind, Except.bind, h.flat, Path.child]
    rfl

theorem rename_child (h : f.Shelf directory place) (hsource : IsFileName source)
    (htarget : IsFileName target) (hcheck : checkName target = .ok ())
    (hfile : f.file? (place ++ [source]) = some text) :
    f.rename (directory.child source) (directory.child target) =
      .ok ((f.erase (place ++ [source])).put (place ++ [target]) text) := by
  unfold rename
  rw [h.locate_file hsource (h.named source (by simp [hfile])), h.locate_file htarget hcheck]
  simp [bind, Except.bind, h.flat, hfile]
  rfl

theorem remove_child (h : f.Shelf directory place) (hname : IsFileName name)
    (hfile : f.file? (place ++ [name]) = some text) :
    f.remove (directory.child name) = .ok (f.erase (place ++ [name])) := by
  unfold remove
  rw [h.locate_file hname (h.named name (by simp [hfile]))]
  simp [bind, Except.bind, h.flat, hfile]
  rfl

theorem names (h : f.Shelf directory place) : f.names directory = .ok (f.namesAt place) := by
  unfold Folder.names
  rw [h.found]
  simp [bind, Except.bind, checkDirectory_ok h.there]
  rfl

theorem present (h : f.Shelf directory place) : f.present directory = true := by
  unfold Folder.present
  rw [h.found]
  simp [h.there]

theorem mem_names (h : f.Shelf directory place) :
    name ∈ f.namesAt place ↔ (f.file? (place ++ [name])).isSome = true := by
  rw [mem_namesAt, ← isDirectory_append_iff, h.flat name]
  simp

/-- What stands on a shelf may change as long as the directories and the form of names stay. -/
theorem of_files (h : f.Shelf directory place) (hdirectories : g.directories = f.directories)
    (hnamed : ∀ name, (g.file? (place ++ [name])).isSome = true →
      (f.file? (place ++ [name])).isSome = true ∨ checkName name = .ok ()) :
    g.Shelf directory place := by
  have hsame (other : Place) : g.isDirectory other = f.isDirectory other := by
    simp [isDirectory, hdirectories]
  obtain ⟨habsolute, hfollow⟩ := locate_ok h.found
  constructor
  · have hfound := h.found
    unfold locate at hfound ⊢
    split_ifs at hfound ⊢
    exact follow_mono (fun other hother => (hsame other).trans hother) hfollow
  · rw [hsame, h.there]
  · intro name
    rw [hsame, h.flat]
  · intro name hname
    rcases hnamed name hname with hbefore | hcheck
    · exact h.named name hbefore
    · exact hcheck

theorem put (h : f.Shelf directory place) (hcheck : checkName name = .ok ()) :
    (f.put (place ++ [name]) text).Shelf directory place := by
  apply h.of_files
  · unfold Folder.put
    split_ifs <;> rfl
  · intro other hother
    rw [file?_put] at hother
    split_ifs at hother with hsame
    · right
      rw [← hcheck, (List.append_cancel_left hsame |> List.singleton_inj.mp)]
    · exact .inl hother

theorem erase (h : f.Shelf directory place) : (f.erase other).Shelf directory place := by
  apply h.of_files
  · rfl
  · intro name hname
    rw [file?_erase] at hname
    split_ifs at hname
    · cases hname
    · exact .inl hname

end Shelf

/-- Nothing is found in a directory that is missing or empty. -/
theorem present_child_of_missing (hstart : f.present p = false ∨ f.names p = .ok [])
    (hpath : p.absolute = false → p.parts = [] → p.asDirectory = true)
    (hname : IsFileName name) : f.present (p.child name) = false := by
  rcases hstart with hmissing | hempty
  · cases hchild : f.locate (p.child name) with
    | error e => simp [present, hchild]
    | ok there =>
      obtain ⟨habsolute, hfollow⟩ := locate_ok hchild
      obtain ⟨directory, hparts, hdirectory⟩ := isDirectory_of_follow hfollow
      have hfound : f.locate p = .ok directory := by
        unfold locate
        rw [hparts]
        cases hlist : p.parts with
        | nil => simp [show p.absolute = false from habsolute, hpath habsolute hlist]
        | cons part rest => simp [show p.absolute = false from habsolute]
      simp [present, hfound, hdirectory] at hmissing
  · obtain ⟨place, hshelf, hnone⟩ := shelf_of_names hempty
    rw [hshelf.present_child hname, hnone]
    rfl

/-! ## A directory that is made is empty -/

/-- Whatever is there is in a directory. -/
def Rooted (f : Folder) : Prop :=
  ∀ place name, (f.file? (place ++ [name])).isSome = true ∨ f.isDirectory (place ++ [name]) = true →
    f.isDirectory place = true

/-- A directory with nothing in it. -/
structure Bare (f : Folder) (place : Place) : Prop where
  there : f.isDirectory place = true
  empty : f.namesAt place = []

theorem rooted_empty : empty.Rooted := by
  intro place name h
  simp [empty, isDirectory, file?] at h

theorem rooted_addDirectory (hrooted : f.Rooted) (hhere : f.isDirectory here = true) :
    (f.addDirectory (here ++ [part])).Rooted := by
  intro place name h
  simp only [isDirectory_addDirectory, file?_addDirectory, Bool.or_eq_true, decide_eq_true_eq]
    at h ⊢
  left
  rcases h with hfile | hdirectory | hnew
  · exact hrooted place name (.inl hfile)
  · exact hrooted place name (.inr hdirectory)
  · obtain ⟨rfl, -⟩ := List.append_inj' hnew rfl
    exact hhere

theorem bare_addDirectory (hrooted : f.Rooted) (hnew : f.isDirectory place = false) :
    (f.addDirectory place).Bare place := by
  constructor
  · simp [isDirectory_addDirectory]
  · apply List.eq_nil_iff_forall_not_mem.mpr
    intro name hname
    rw [mem_namesAt, ← isDirectory_append_iff, isDirectory_addDirectory, file?_addDirectory]
      at hname
    have hbelow := hrooted place name
    simp_all

/-- Where a part of a path that does not lead up takes the making of directories. -/
theorem makePart_down {last : Bool} {next : Place} {made : Folder} (hup : part ≠ "..")
    (hmake : f.makePart here part last = (.ok next, made)) :
    checkName part = .ok () ∧ enter here part = .ok next ∧
      ((next = here ∧ made = f) ∨
       (next = here ++ [part] ∧ made = f ∧ f.isDirectory next = true) ∨
       (next = here ++ [part] ∧ made = f.addDirectory next ∧ f.isDirectory next = false)) := by
  unfold makePart at hmake
  by_cases hdot : part = "."
  · subst hdot
    cases hmake
    exact ⟨by decide, rfl, .inl ⟨rfl, rfl⟩⟩
  · have henter : enter here part = .ok (here ++ [part]) := by simp [enter, hdot, hup]
    rw [if_neg (by simpa using hdot), if_neg (by simpa using hup)] at hmake
    cases hname : checkName part with
    | error e => simp [hname] at hmake
    | ok _ =>
      rw [hname] at hmake
      simp only at hmake
      split_ifs at hmake with hthere <;> cases hmake
      · exact ⟨rfl, henter, .inr (.inl ⟨rfl, rfl, hthere⟩)⟩
      · exact ⟨rfl, henter, .inr (.inr ⟨rfl, rfl, by simpa using hthere⟩)⟩

/-- A directory that is made on a path that does not lead up is empty, unless it was there. -/
theorem makeFrom_bare (hrooted : f.Rooted) (hhere : f.isDirectory here = true)
    (hup : ".." ∉ parts) (hmake : f.makeFrom here parts = (.ok (), g))
    (hnew : f.Bare here ∨ ∀ place, f.follow here parts = .ok place → f.isDirectory place = false) :
    ∃ place, g.follow here parts = .ok place ∧ g.Bare place := by
  induction parts generalizing f here with
  | nil =>
    cases hmake
    rcases hnew with hbare | hmissing
    · exact ⟨here, rfl, hbare⟩
    · simp [hmissing here rfl] at hhere
  | cons part parts ih =>
    have hmakes := makeFrom_makes f here (part :: parts)
    rw [hmake] at hmakes
    rw [makeFrom_cons] at hmake
    rcases hpart : f.makePart here part parts.isEmpty with ⟨_ | next, made⟩
    · simp [hpart] at hmake
    rw [hpart] at hmake
    have hrest : ".." ∉ parts := fun h => hup (List.mem_cons_of_mem _ h)
    obtain ⟨hname, henter, hcase⟩ := makePart_down (fun h => hup (h ▸ List.mem_cons_self)) hpart
    have found : ∃ place, g.follow next parts = .ok place ∧ g.Bare place := by
      rcases hcase with ⟨rfl, rfl⟩ | ⟨rfl, rfl, hthere⟩ | ⟨rfl, rfl, hnone⟩
      · apply ih hrooted hhere hrest hmake
        refine hnew.imp_right fun hmissing place hplace => hmissing place ?_
        rw [follow_cons, checkDirectory_ok hhere, hname, henter]
        exact hplace
      · apply ih hrooted hthere hrest hmake
        rcases hnew with hbare | hmissing
        · have hin : part ∈ made.namesAt here :=
            mem_namesAt.mpr (.inr (isDirectory_append_iff.mp hthere))
          simp [hbare.empty] at hin
        · refine .inr fun place hplace => hmissing place ?_
          rw [follow_cons, checkDirectory_ok hhere, hname, henter]
          exact hplace
      · have hbare := bare_addDirectory hrooted hnone
        exact ih (rooted_addDirectory hrooted hhere) hbare.there hrest hmake (.inl hbare)
    obtain ⟨place, hfollow, hbare⟩ := found
    refine ⟨place, ?_, hbare⟩
    rw [follow_cons, checkDirectory_ok (hmakes.directories _ hhere), hname, henter]
    exact hfollow

/-- A directory that was missing is empty once it was made on a path that does not lead up. -/
theorem names_of_missing (hrooted : f.Rooted) (hup : ".." ∉ p.parts)
    (hpath : p.parts = [] → p.asDirectory = true) (hmissing : f.present p = false)
    (hmake : f.makeDirectories p = (.ok (), g)) : g.names p = .ok [] := by
  unfold makeDirectories at hmake
  split_ifs at hmake with habsolute
  · cases hmake
  · have locate_of_follow {f : Folder} {place : Place} (h : f.follow [] p.parts = .ok place) :
        f.locate p = .ok place := by
      unfold locate
      cases hparts : p.parts with
      | nil => simp_all
      | cons part parts => simp_all
    obtain ⟨place, hfollow, hbare⟩ := makeFrom_bare hrooted rfl hup hmake
      (.inr fun place hplace => by
        rw [present, locate_of_follow hplace] at hmissing
        simp_all)
    unfold names
    rw [locate_of_follow hfollow]
    simp [bind, Except.bind, checkDirectory_ok hbare.there, hbare.empty]
    rfl

end AgentGraph.Folder
