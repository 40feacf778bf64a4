import Mathlib.Data.List.Chain
import AgentGraph.Naming
import AgentGraph.Proofs.Letters
/-!
# Names that survive spelling

A camel-case name comes back from its canonical spelling if no two capitals stand side by side. A key
comes back from its alternate spelling unless a word of one letter runs into the next: what follows the
two capitals then has to be a small letter, since nothing else tells the end of the first word.
-/
namespace AgentGraph.Naming

/-- A name of letters and digits, in which the first character is no capital and no two capitals stand
side by side. -/
structure IsCamel (name : String) : Prop where
  alphanumeric : ∀ c ∈ name.toList, c.isAlphanum = true
  starts : ∃ c rest, name.toList = c :: rest ∧ (c.isLower = true ∨ c.isDigit = true)
  apart : name.toList.IsChain fun a b => ¬ (a.isUpper = true ∧ b.isUpper = true)

/-- A key of small letters, digits and underscores. Underscores stand between words, and each is
followed by a letter. -/
structure IsSnake (key : String) : Prop where
  nonempty : key ≠ ""
  small : ∀ c ∈ key.toList, c.isLower = true ∨ c.isDigit = true ∨ c = '_'
  starts : key.toList.head? ≠ some '_'
  ends : key.toList.getLast? ≠ some '_'
  followed : key.toList.IsChain fun a b => a = '_' → b.isLower = true

/-- The words of a key. -/
def words (key : String) : List (List Char) := key.toList.splitOn '_'

/-- The first word is one letter long, and the second one is as short or goes on with a digit. -/
def Merges (u v : List Char) : Prop :=
  u.length = 1 ∧ (v.length = 1 ∨ ∃ c, v[1]? = some c ∧ c.isDigit = true)

/-- A small letter or a digit. -/
def IsSmall (c : Char) : Prop := c.isLower = true ∨ c.isDigit = true

section Characters
variable {c : Char}

theorem IsSmall.isAlphanum (h : IsSmall c) : c.isAlphanum = true :=
  alphanumeric_iff.mpr (h.imp_left .inr)

theorem IsSmall.ne_underscore (h : IsSmall c) : c ≠ '_' :=
  ne_underscore_of_alphanumeric h.isAlphanum

theorem IsSmall.not_isUpper (h : IsSmall c) : c.isUpper = false :=
  h.elim not_isUpper_of_isLower not_isUpper_of_isDigit

theorem isSmall_of_alphanumeric (h : c.isAlphanum = true) (hupper : c.isUpper = false) :
    IsSmall c := by
  simpa [IsSmall, alphanumeric_iff, hupper] using h

end Characters

/-! ## Canonical spelling and back -/

/-- Whether an underscore goes in front of a character that stands between others. -/
def marks (previous c : Char) (rest : List Char) : Bool :=
  c.isUpper && ((previous.isLower || previous.isDigit) ||
    (previous.isUpper && rest.head?.any Char.isLower))

theorem canonicalFrom_cons (previous c : Char) (rest : List Char) :
    canonicalFrom previous (c :: rest) =
      if marks previous c rest then '_' :: c.toLower :: canonicalFrom c rest
      else c.toLower :: canonicalFrom c rest := by
  cases rest <;> rfl

theorem canonicalFrom_cons_of_not_isUpper {c : Char} (h : c.isUpper = false) (previous : Char)
    (rest : List Char) : canonicalFrom previous (c :: rest) = c :: canonicalFrom c rest := by
  rw [canonicalFrom_cons, marks, h, Bool.false_and, if_neg Bool.false_ne_true,
    toLower_of_not_isUpper h]

/-- Behind a letter or digit, a name without neighbouring capitals is read back as it was. -/
theorem alternateFrom_canonicalFrom {previous : Char} {cs : List Char}
    (hprevious : previous.isAlphanum = true) (hcs : ∀ c ∈ cs, c.isAlphanum = true)
    (hapart : (previous :: cs).IsChain fun a b => ¬ (a.isUpper = true ∧ b.isUpper = true)) :
    alternateFrom false (canonicalFrom previous cs) = cs := by
  induction cs generalizing previous with
  | nil => rfl
  | cons c rest ih =>
    obtain ⟨hc, hrest⟩ := List.forall_mem_cons.mp hcs
    obtain ⟨hpair, hchain⟩ := List.isChain_cons_cons.mp hapart
    have hrec := ih hc hrest hchain
    cases hupper : c.isUpper with
    | false =>
      rw [canonicalFrom_cons_of_not_isUpper hupper, alternateFrom,
        if_neg (ne_underscore_of_alphanumeric hc), hrec]
      rfl
    | true =>
      -- the character before a capital is none, so the capital is marked
      have hbefore : previous.isUpper = false := by
        simpa [hupper] using hpair
      have hmark : marks previous c rest = true := by
        have hsmall := isSmall_of_alphanumeric hprevious hbefore
        simp only [IsSmall] at hsmall
        simp [marks, hupper, hsmall]
      have hlower : c.toLower ≠ '_' :=
        IsSmall.ne_underscore (.inl (toLower_of_isUpper hupper).1)
      rw [canonicalFrom_cons, if_pos hmark, alternateFrom, if_pos rfl, alternateFrom, if_neg hlower,
        if_pos rfl, (toLower_of_isUpper hupper).2, hrec]

theorem alternateChars_canonicalChars {c : Char} {rest : List Char} (hc : IsSmall c)
    (hcs : ∀ d ∈ rest, d.isAlphanum = true)
    (hapart : (c :: rest).IsChain fun a b => ¬ (a.isUpper = true ∧ b.isUpper = true)) :
    alternateChars (canonicalChars (c :: rest)) = c :: rest := by
  rw [canonicalChars, alternateChars, toLower_of_not_isUpper hc.not_isUpper,
    alternateFrom_canonicalFrom hc.isAlphanum hcs hapart]

/-! ## Canonical spelling twice -/

theorem not_isUpper_canonicalFrom (previous : Char) (cs : List Char) :
    ∀ c ∈ canonicalFrom previous cs, c.isUpper = false := by
  induction cs generalizing previous with
  | nil => simp [canonicalFrom]
  | cons c rest ih =>
    have htail : ∀ d ∈ c.toLower :: canonicalFrom c rest, d.isUpper = false :=
      List.forall_mem_cons.mpr ⟨not_isUpper_toLower c, ih c⟩
    rw [canonicalFrom_cons]
    split
    · exact List.forall_mem_cons.mpr ⟨rfl, htail⟩
    · exact htail

theorem canonicalFrom_of_no_capital (previous : Char) {cs : List Char}
    (h : ∀ c ∈ cs, c.isUpper = false) : canonicalFrom previous cs = cs := by
  induction cs generalizing previous with
  | nil => rfl
  | cons c rest ih =>
    obtain ⟨hc, hrest⟩ := List.forall_mem_cons.mp h
    rw [canonicalFrom_cons_of_not_isUpper hc, ih c hrest]

theorem canonicalChars_canonicalChars (cs : List Char) :
    canonicalChars (canonicalChars cs) = canonicalChars cs := by
  cases cs with
  | nil => rfl
  | cons c rest =>
    rw [canonicalChars, canonicalChars, toLower_of_not_isUpper (not_isUpper_toLower c),
      canonicalFrom_of_no_capital _ (not_isUpper_canonicalFrom c rest)]

/-! ## Words -/

/-- A word behind an underscore: a small letter and what follows it. -/
def IsWord (w : List Char) : Prop :=
  ∃ c rest, w = c :: rest ∧ c.isLower = true ∧ ∀ d ∈ rest, IsSmall d

/-- Words with an underscore in front of each. -/
def joined (ws : List (List Char)) : List Char := ws.flatMap ('_' :: ·)

/-- A word with a capital in front. -/
def capitalized : List Char → List Char
  | [] => []
  | c :: rest => c.toUpper :: rest

theorem alternateFrom_append {cs : List Char} (h : ∀ c ∈ cs, IsSmall c) (rest : List Char) :
    alternateFrom false (cs ++ rest) = cs ++ alternateFrom false rest := by
  induction cs with
  | nil => rfl
  | cons c cs ih =>
    obtain ⟨hc, hcs⟩ := List.forall_mem_cons.mp h
    simp [alternateFrom, hc.ne_underscore, ih hcs]

/-- Between words the alternate spelling leaves the underscores out and capitalizes what follows. -/
theorem alternateFrom_joined {ws : List (List Char)} (h : ∀ w ∈ ws, IsWord w) :
    alternateFrom false (joined ws) = ws.flatMap capitalized := by
  induction ws with
  | nil => rfl
  | cons w ws ih =>
    obtain ⟨⟨c, rest, rfl, hc, hrest⟩, hws⟩ := List.forall_mem_cons.mp h
    have hne : c ≠ '_' := IsSmall.ne_underscore (.inl hc)
    simp only [joined, List.flatMap_cons, List.cons_append, alternateFrom, if_neg hne, if_true,
      capitalized]
    rw [alternateFrom_append hrest, ← joined, ih hws]

/-- The last character of a list behind another one. -/
def lastOf (previous : Char) (cs : List Char) : Char := (previous :: cs).getLast (by simp)

theorem canonicalFrom_append (previous : Char) {cs : List Char} (h : ∀ c ∈ cs, IsSmall c)
    (rest : List Char) :
    canonicalFrom previous (cs ++ rest) = cs ++ canonicalFrom (lastOf previous cs) rest := by
  induction cs generalizing previous with
  | nil => rfl
  | cons c cs ih =>
    obtain ⟨hc, hcs⟩ := List.forall_mem_cons.mp h
    rw [List.cons_append, canonicalFrom_cons_of_not_isUpper hc.not_isUpper, ih c hcs]
    simp [lastOf]

theorem lastOf_small {previous : Char} {cs : List Char} (h : IsSmall previous)
    (hcs : ∀ c ∈ cs, IsSmall c) : IsSmall (lastOf previous cs) :=
  List.forall_mem_cons.mpr ⟨h, hcs⟩ _ (List.getLast_mem _)

/-- A word is told from what is in front of it by a small letter or digit there, or by a small letter
that follows its capital. -/
def Told (previous : Char) (w : List Char) : Prop :=
  IsSmall previous ∨ ∃ c, w[1]? = some c ∧ c.isLower = true

/-- In front of a word an underscore is put just if the word is told. -/
theorem marks_iff_told {previous c : Char} {rest : List Char} {ws : List (List Char)}
    (hprevious : IsSmall previous ∨ previous.isUpper = true) (hc : c.isLower = true)
    (hws : ∀ w ∈ ws, IsWord w) :
    marks previous c.toUpper (rest ++ ws.flatMap capitalized) = true ↔ Told previous (c :: rest) := by
  have hnext : (rest ++ ws.flatMap capitalized).head?.any Char.isLower = true ↔
      ∃ d, (c :: rest)[1]? = some d ∧ d.isLower = true := by
    cases rest with
    | cons d rest => simp
    | nil =>
      cases ws with
      | nil => simp
      | cons w ws =>
        obtain ⟨e, tail, rfl, he, -⟩ := hws w List.mem_cons_self
        simp [capitalized, not_isLower_of_isUpper (toUpper_of_isLower he).1]
  have hcapital : c.toUpper.isUpper = true := (toUpper_of_isLower hc).1
  simp only [marks, hcapital, Bool.true_and, Bool.or_eq_true, Bool.and_eq_true, hnext, Told, IsSmall]
  rcases hprevious with hsmall | hupper
  · simp only [IsSmall] at hsmall
    simp [hsmall]
  · simp [hupper]

/-- A word is told from the word in front of it unless the two merge. -/
theorem told_iff_not_merges {c : Char} {rest w : List Char} (hc : c.isLower = true)
    (hrest : ∀ d ∈ rest, IsSmall d) (hw : IsWord w) :
    Told (lastOf c.toUpper rest) w ↔ ¬ Merges (c :: rest) w := by
  obtain ⟨e, tail, rfl, -, htail⟩ := hw
  cases rest with
  | cons d rest =>
    have hlast : IsSmall (lastOf c.toUpper (d :: rest)) := by
      have hmem : (d :: rest).getLast (by simp) ∈ d :: rest := List.getLast_mem _
      simpa [lastOf] using hrest _ hmem
    simp [Told, hlast, Merges]
  | nil =>
    have hcapital : ¬ IsSmall c.toUpper := by
      intro hsmall
      have hupper := hsmall.not_isUpper
      rw [(toUpper_of_isLower hc).1] at hupper
      cases hupper
    cases tail with
    | nil => simp [Told, lastOf, hcapital, Merges]
    | cons d tail =>
      have hkind : d.isLower = true ↔ ¬ d.isDigit = true := by
        refine ⟨fun hlower hdigit => ?_, (htail d List.mem_cons_self).resolve_right⟩
        rw [not_isLower_of_isDigit hdigit] at hlower
        cases hlower
      simp [Told, lastOf, hcapital, Merges, hkind]

/-- Capitalized words get all their underscores back just if each is told from what is in front. -/
theorem canonicalFrom_capitalized {previous : Char} {ws : List (List Char)}
    (hprevious : IsSmall previous ∨ previous.isUpper = true) (hws : ∀ w ∈ ws, IsWord w) :
    canonicalFrom previous (ws.flatMap capitalized) = joined ws ↔
      (∀ w ∈ ws.head?, Told previous w) ∧ ws.IsChain fun u v => ¬ Merges u v := by
  induction ws generalizing previous with
  | nil => simp [canonicalFrom, joined]
  | cons w ws ih =>
    obtain ⟨⟨c, rest, rfl, hc, hrest⟩, hwords⟩ := List.forall_mem_cons.mp hws
    have hlast : IsSmall (lastOf c.toUpper rest) ∨ (lastOf c.toUpper rest).isUpper = true := by
      cases rest with
      | nil => exact .inr (toUpper_of_isLower hc).1
      | cons d rest =>
        have hmem : (d :: rest).getLast (by simp) ∈ d :: rest := List.getLast_mem _
        exact .inl (by simpa [lastOf] using hrest _ hmem)
    have hfirst : (∀ v ∈ ws.head?, Told (lastOf c.toUpper rest) v) ↔
        ∀ v ∈ ws.head?, ¬ Merges (c :: rest) v :=
      forall₂_congr fun v hv => told_iff_not_merges hc hrest (hwords v (List.mem_of_mem_head? hv))
    rw [List.isChain_cons, ← hfirst, ← ih hlast hwords, List.flatMap_cons, capitalized, List.cons_append,
      canonicalFrom_cons, canonicalFrom_append _ hrest, (toUpper_of_isLower hc).2]
    have hjoined : joined ((c :: rest) :: ws) = '_' :: c :: (rest ++ joined ws) := rfl
    rw [hjoined]
    split
    · rename_i hmark
      have htold := (marks_iff_told hprevious hc hwords).mp hmark
      simp [htold]
    · rename_i hmark
      rw [marks_iff_told hprevious hc hwords] at hmark
      have hne : c ≠ '_' := IsSmall.ne_underscore (.inl hc)
      simp [hmark, hne]

/-- The words of a list of characters in which each underscore stands in front of a letter. -/
theorem splitOn_underscore {cs : List Char}
    (hsmall : ∀ c ∈ cs, c.isLower = true ∨ c.isDigit = true ∨ c = '_')
    (hends : cs.getLast? ≠ some '_')
    (hfollowed : cs.IsChain fun a b => a = '_' → b.isLower = true) :
    ∃ first ws, cs.splitOn '_' = first :: ws ∧ cs = first ++ joined ws ∧ (∀ c ∈ first, IsSmall c) ∧
      ∀ w ∈ ws, IsWord w := by
  induction cs with
  | nil => exact ⟨[], [], rfl, rfl, by simp, by simp⟩
  | cons c cs ih =>
    obtain ⟨hc, hsmall⟩ := List.forall_mem_cons.mp hsmall
    have hends' : cs.getLast? ≠ some '_' := by
      cases cs with
      | nil => simp
      | cons d ds => simpa [List.getLast?_cons_cons] using hends
    obtain ⟨first, ws, hsplit, hcs, hfirst, hws⟩ := ih hsmall hends' hfollowed.tail
    by_cases hunderscore : c = '_'
    · subst hunderscore
      cases cs with
      | nil => simp at hends
      | cons d ds =>
        have hd : d.isLower = true := (List.isChain_cons_cons.mp hfollowed).1 rfl
        have hne : d ≠ '_' := IsSmall.ne_underscore (.inl hd)
        obtain ⟨rest, rfl⟩ : ∃ rest, first = d :: rest := by
          cases first with
          | cons e rest => exact ⟨rest, by rw [(List.cons.inj hcs).1]⟩
          | nil =>
            cases ws with
            | nil => cases hcs
            | cons w ws => exact absurd (List.cons.inj hcs).1 hne
        refine ⟨[], (d :: rest) :: ws, ?_, ?_, by simp, List.forall_mem_cons.mpr ⟨?_, hws⟩⟩
        · rw [List.splitOn_cons_eq_if_modifyHead, hsplit]
          rfl
        · rw [hcs]
          rfl
        · exact ⟨d, rest, rfl, hd, fun e he => hfirst e (List.mem_cons_of_mem _ he)⟩
    · have hc : IsSmall c := by
        rcases hc with hc | hc | hc
        · exact .inl hc
        · exact .inr hc
        · exact absurd hc hunderscore
      refine ⟨c :: first, ws, ?_, by rw [hcs]; rfl, List.forall_mem_cons.mpr ⟨hc, hfirst⟩, hws⟩
      rw [List.splitOn_cons_eq_if_modifyHead, hsplit, if_neg (by simpa using hunderscore)]
      rfl

/-- A camel-case name comes back from its canonical spelling; a second canonical spelling changes
nothing; and a key comes back from its alternate spelling just if no word of one letter, the first one
apart, stands in front of one that is as short or goes on with a digit. -/
theorem spellings_round_trip :
    (∀ name, IsCamel name → toAlternate (toCanonical name) = name) ∧
    (∀ name, toCanonical (toCanonical name) = toCanonical name) ∧
    ∀ key, IsSnake key → (toCanonical (toAlternate key) = key ↔
      (words key).tail.IsChain fun u v => ¬ Merges u v) := by
  refine ⟨fun name h => ?_, fun name => ?_, fun key h => ?_⟩
  · obtain ⟨c, rest, hname, hc⟩ := h.starts
    have halphanumeric := h.alphanumeric
    have hapart := h.apart
    rw [hname] at halphanumeric hapart
    rw [toAlternate, toCanonical, String.toList_ofList, hname, alternateChars_canonicalChars hc
      (fun d hd => halphanumeric d (List.mem_cons_of_mem _ hd)) hapart, ← hname, String.ofList_toList]
  · rw [toCanonical, toCanonical, String.toList_ofList, canonicalChars_canonicalChars]
  · obtain ⟨first, ws, hwords, hkey, hfirst, hws⟩ := splitOn_underscore h.small h.ends h.followed
    cases first with
    | nil =>
      cases ws with
      | nil => exact absurd (String.toList_eq_nil_iff.mp hkey) h.nonempty
      | cons w ws => exact absurd (by rw [hkey]; rfl) h.starts
    | cons c rest =>
      obtain ⟨hc, hrest⟩ := List.forall_mem_cons.mp hfirst
      have hlast := lastOf_small hc hrest
      have halternate : (toAlternate key).toList = c :: rest ++ ws.flatMap capitalized := by
        rw [toAlternate, String.toList_ofList, hkey, List.cons_append, alternateChars,
          alternateFrom_append hrest, alternateFrom_joined hws, List.cons_append]
      have hback : (toCanonical (toAlternate key)).toList =
          c :: rest ++ canonicalFrom (lastOf c rest) (ws.flatMap capitalized) := by
        rw [toCanonical, String.toList_ofList, halternate, List.cons_append, canonicalChars,
          toLower_of_not_isUpper hc.not_isUpper, canonicalFrom_append c hrest, List.cons_append]
      rw [words, hwords, ← String.toList_inj, hback, hkey, List.append_cancel_left_eq, List.tail_cons,
        canonicalFrom_capitalized (.inl hlast) hws]
      exact and_iff_right fun w _ => .inl hlast

theorem spellings_round_trip_samples :
    toAlternate (toCanonical "top2Results") = "top2Results" ∧
      toCanonical (toAlternate "m_tls_config") = "m_tls_config" ∧
      toCanonical (toAlternate "a_b_c") ≠ "a_b_c" := by
  have hcamel : IsCamel "top2Results" :=
    ⟨by simp, ⟨'t', "op2Results".toList, by decide, .inl (by decide)⟩, by simp⟩
  have hsnake : IsSnake "m_tls_config" := ⟨by decide, by simp, by decide, by decide, by simp⟩
  have hshort : IsSnake "a_b_c" := ⟨by decide, by simp, by decide, by decide, by simp⟩
  have htold : (words "m_tls_config").tail.IsChain fun u v => ¬ Merges u v := by
    have hwords : words "m_tls_config" = ["m".toList, "tls".toList, "config".toList] := by decide
    simp [hwords, Merges]
  have hmerges : ¬ (words "a_b_c").tail.IsChain fun u v => ¬ Merges u v := by
    have hwords : words "a_b_c" = ["a".toList, "b".toList, "c".toList] := by decide
    simp [hwords, Merges]
  exact ⟨spellings_round_trip.1 _ hcamel, (spellings_round_trip.2.2 _ hsnake).mpr htold,
    fun h => hmerges ((spellings_round_trip.2.2 _ hshort).mp h)⟩

end AgentGraph.Naming
