import AgentGraph.Store
import AgentGraph.Proofs.Folder
/-!
# File names in a store

The file of a document, that of a sidecar and the one under which each is written first have
different names, also those of different documents, and a document is found again by its file name.
-/
namespace AgentGraph.Store
variable {name other file : String} {format second : Format}

theorem sidecarName_eq :
    sidecarName name format = documentName (name ++ sidecarSuffix) format := rfl

/-- The last letter of the extension of a format. -/
def lastLetter : Format → Char
  | .json => 'n'
  | .yaml => 'l'

theorem getLast?_documentName (name : String) (format : Format) :
    (documentName name format).toList.getLast? = some (lastLetter format) := by
  cases format <;> simp [documentName, Format.extension, lastLetter]

theorem getLast?_passingName (file : String) : (passingName file).toList.getLast? = some 'p' := by
  simp [passingName]

theorem documentName_inj :
    documentName name format = documentName other second ↔ name = other ∧ format = second := by
  constructor
  · intro h
    have hletter : lastLetter format = lastLetter second := by
      apply Option.some.inj
      rw [← getLast?_documentName name format, h, getLast?_documentName]
    have hformat : format = second := by
      cases format <;> cases second <;> first | rfl | simp [lastLetter] at hletter
    subst hformat
    simpa [documentName, String.append_left_inj] using h
  · rintro ⟨rfl, rfl⟩
    rfl

theorem passingName_ne_documentName : passingName file ≠ documentName name format := by
  intro h
  have hletter : some 'p' = some (lastLetter format) := by
    rw [← getLast?_passingName file, h, getLast?_documentName]
  cases format <;> simp [lastLetter] at hletter

theorem isFileName_documentName : Folder.IsFileName (documentName name format) := by
  constructor <;> intro h <;>
    have hletter := getLast?_documentName name format <;>
    rw [h] at hletter <;> cases format <;> simp [lastLetter] at hletter

theorem isFileName_sidecarName : Folder.IsFileName (sidecarName name format) :=
  isFileName_documentName

theorem isFileName_passingName : Folder.IsFileName (passingName file) := by
  constructor <;> intro h <;>
    have hletter := getLast?_passingName file <;> rw [h] at hletter <;> simp at hletter

/-- A name that is short enough with its passing suffix is short enough without. -/
theorem checkName_of_passing (h : Folder.checkName (passingName file) = .ok ()) :
    Folder.checkName file = .ok () := by
  unfold Folder.checkName passingName at *
  split_ifs at h with hzero hlong
  rw [if_neg, if_neg]
  · rw [String.utf8ByteSize_append] at hlong
    omega
  · intro hfile
    apply hzero
    simp_all

theorem endsWith_iff {suffix text : String} :
    text.endsWith suffix = true ↔ suffix.toList <:+ text.toList := by
  rw [String.endsWith_eq_endsWith_toSlice, String.Slice.endsWith_string_iff, String.copy_toSlice]

/-- What a valid name promises about the files of its document. -/
theorem valid_name (h : isValidName name = true) :
    name ≠ "" ∧ ¬ sidecarSuffix.toList <:+ name.toList := by
  unfold isValidName at h
  simp only [Bool.and_eq_true, Bool.not_eq_true', String.isEmpty_eq_false_iff] at h
  obtain ⟨⟨⟨hname, -⟩, hsuffix⟩, -⟩ := h
  constructor
  · exact hname
  · rw [← endsWith_iff, hsuffix]
    exact Bool.false_ne_true

theorem sidecarName_ne_documentName (h : isValidName other = true) :
    sidecarName name format ≠ documentName other second := by
  intro hsame
  rw [sidecarName_eq, documentName_inj] at hsame
  have hother := (valid_name h).2
  rw [← hsame.1, String.toList_append] at hother
  exact hother (List.suffix_append _ _)

/-! ## From a file name to the name of its document -/

theorem dot_not_mem_extension : ∀ c ∈ format.extension.toList.reverse, (c != '.') = true := by
  cases format <;> simp [Format.extension]

theorem extensionOf?_documentName (h : name ≠ "") :
    Format.extensionOf? (documentName name format) = some format.extension := by
  have hback : (documentName name format).toList.reverse =
      format.extension.toList.reverse ++ '.' :: name.toList.reverse := by
    simp [documentName]
  unfold Format.extensionOf?
  rw [hback]
  simp only [List.dropWhile_append_of_pos dot_not_mem_extension,
    List.takeWhile_append_of_pos dot_not_mem_extension]
  cases hname : name.toList.reverse with
  | nil => simp [h] at hname
  | cons c rest => simp

theorem stemOf_documentName (h : name ≠ "") : stemOf (documentName name format) = name := by
  unfold stemOf
  rw [extensionOf?_documentName h]
  apply String.toList_inj.mp
  have hcut : ((documentName name format).dropEnd (format.extension.length + 1)).toString =
      ((documentName name format).toSlice.dropEnd (format.extension.length + 1)).copy := rfl
  simp only [hcut]
  rw [String.Slice.toList_copy_dropEnd, String.copy_toSlice]
  have hlength : (documentName name format).toList.length - (format.extension.length + 1) =
      name.toList.length := by
    have hdot : ".".length = 1 := by decide
    simp only [documentName, String.toList_append, List.length_append, String.length_toList, hdot]
    omega
  rw [hlength, documentName, String.toList_append, String.toList_append, List.append_assoc,
    List.take_left]

theorem ofName?_extension : Format.ofName? format.extension = some format := by
  cases format <;> rfl

theorem documentOf?_documentName (h : isValidName name = true) :
    documentOf? (documentName name format) = some name := by
  obtain ⟨hname, hsuffix⟩ := valid_name h
  unfold documentOf?
  rw [extensionOf?_documentName hname, stemOf_documentName hname]
  simp [ofName?_extension, endsWith_iff, hsuffix]

theorem documentOf?_sidecarName : documentOf? (sidecarName name format) = none := by
  have hname : name ++ sidecarSuffix ≠ "" := by
    simp [sidecarSuffix]
  unfold documentOf?
  rw [sidecarName_eq, extensionOf?_documentName hname, stemOf_documentName hname]
  simp [ofName?_extension, endsWith_iff]

end AgentGraph.Store
