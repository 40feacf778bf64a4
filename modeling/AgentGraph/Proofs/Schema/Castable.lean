import AgentGraph.Proofs.Schema.SameType
/-!
# Casts are an order of schemas

A cast is possible from a schema to itself, and to which others depends only on the types of the two. Casts
can be put one after the other, unless the first schema has an object inside that allows no other keys: such
an object fits one with a schema for other keys, that one fits an object that allows them, but the first does
not. A cast from a schema that is no union finds its target among the alternatives of the other one
(`Target`), and there agrees in type, or meets a type that takes all, or fits level by level
(`SchemaType.Fits`).
-/
namespace AgentGraph

/-- Whether a type is an object that allows no keys but those it names. -/
def SchemaType.isClosed : SchemaType → Bool
  | .object _ (.allowed false) => true
  | _ => false

/-- What one object says of other keys fits what another says, given what it is for schemas to fit. -/
inductive Additional.Fits (R : Schema → Schema → Prop) : Additional → Additional → Prop
  | flag {a b : Additional} {isOpen : Bool} (ha : a.isOpen? = some isOpen)
    (hb : b.isOpen? = some isOpen) : Fits R a b
  | closed {t : Schema} : Fits R (.allowed false) (.following t)
  | fromOpen {a : Additional} {t : Schema} (ha : a.isOpen? = some true) (h : R .any t) :
    Fits R a (.following t)
  | toOpen {s : Schema} {b : Additional} (hb : b.isOpen? = some true) : Fits R (.following s) b
  | following {s t : Schema} (h : R s t) : Fits R (.following s) (.following t)

/-- One type that is no union fits another, given what it is for schemas to fit. -/
inductive SchemaType.Fits (R : Schema → Schema → Prop) : SchemaType → SchemaType → Prop
  | numeric {a b : SchemaType} (ha : a.isNumeric = true) (hb : b.isNumeric = true) : Fits R a b
  | array {i j : Option Schema} (h : R (Schema.itemsOrAny i) (Schema.itemsOrAny j)) :
    Fits R (.array i) (.array j)
  | object {ps qs : Dict Schema} {a b : Additional}
    (hnames : ∀ f ∈ qs, ∃ s, Dict.get? ps f.1 = some s ∧ R s f.2) (hadd : a.Fits R b) :
    Fits R (.object ps a) (.object qs b)

section OneLevel
variable {R S : Schema → Schema → Prop} {a b c d : SchemaType}

theorem SchemaType.Matches.leaf_eq (h : a.Matches R b) (hleaf : a.isLeaf = true) : a = b := by
  cases h with
  | leaf _ => rfl
  | _ => cases hleaf

theorem SchemaType.isLeaf_of_isNumeric (h : a.isNumeric = true) : a.isLeaf = true := by
  cases a <;> first | rfl | cases h

theorem SchemaType.Matches.isNumeric (h : a.Matches R b) (ha : a.isNumeric = true) :
    b.isNumeric = true :=
  h.leaf_eq (isLeaf_of_isNumeric ha) ▸ ha

theorem SchemaType.Fits.not_anyOf (h : a.Fits R b) (xs : List Schema) : b ≠ .anyOf xs := by
  rintro rfl
  cases h with
  | numeric _ hb => cases hb

theorem Additional.Matches.isOpen? {a b : Additional} {isOpen : Bool} (h : a.Matches R b)
    (ha : a.isOpen? = some isOpen) : b.isOpen? = some isOpen := by
  cases h with
  | flag ha' hb => exact hb.trans (ha'.symm.trans ha)
  | following _ => cases ha

/-- What fits still fits when both sides are replaced by others that they match. -/
theorem Additional.Fits.congr {a b a' b' : Additional} (h : a.Fits R b) (ha : a.Matches S a')
    (hb : b.Matches S b')
    (hR : ∀ x ∈ a.inner, ∀ y ∈ b.inner, ∀ x' y', S x x' → S y y' → R x y → R x' y')
    (hany : ∀ y ∈ b.inner, ∀ y', S y y' → R .any y → R .any y') : a'.Fits R b' := by
  cases h with
  | flag ha' hb' => exact .flag (ha.isOpen? ha') (hb.isOpen? hb')
  | closed =>
    cases hb with
    | flag hb' _ => cases hb'
    | following hS =>
      cases ha with
      | @flag _ a' _ ha' hflag =>
        obtain rfl := Option.some.inj ha'
        cases a' with
        | allowed isOpen =>
          obtain rfl : isOpen = false := Option.some.inj hflag
          exact .closed
        | _ => cases hflag
  | fromOpen hopen h =>
    cases hb with
    | flag hb' _ => cases hb'
    | following hS => exact .fromOpen (ha.isOpen? hopen) (hany _ (by simp [inner]) _ hS h)
  | toOpen hopen =>
    cases ha with
    | flag ha' _ => cases ha'
    | following hS => exact .toOpen (hb.isOpen? hopen)
  | following h =>
    cases ha with
    | flag ha' _ => cases ha'
    | following hS =>
      cases hb with
      | flag hb' _ => cases hb'
      | following hS' => exact .following (hR _ (by simp [inner]) _ (by simp [inner]) _ _ hS hS' h)

theorem SchemaType.Fits.congr {a' b' : SchemaType} (h : a.Fits R b) (ha : a.Matches S a')
    (hb : b.Matches S b') (hnames : (Schema.ofType b).propertyNames.Nodup)
    (hR : ∀ x ∈ a.inner, ∀ y ∈ b.inner, ∀ x' y', S x x' → S y y' → R x y → R x' y')
    (hany : ∀ y ∈ b.inner, ∀ y', S y y' → R .any y → R .any y') : a'.Fits R b' := by
  cases h with
  | numeric ha' hb' => exact .numeric (ha.isNumeric ha') (hb.isNumeric hb')
  | array h =>
    cases ha with
    | leaf hleaf => cases hleaf
    | array hS =>
      cases hb with
      | leaf hleaf => cases hleaf
      | array hS' => exact .array (hR _ (by simp [inner]) _ (by simp [inner]) _ _ hS hS' h)
  | object hfound hadd =>
    cases ha with
    | leaf hleaf => cases hleaf
    | object hlen hall hmatch =>
      cases hb with
      | leaf hleaf => cases hleaf
      | object hlen' hall' hmatch' =>
        apply SchemaType.Fits.object
        · intro g hg
          obtain ⟨t, ht, hS'⟩ := Dict.mirrored hnames hlen' hall' g hg
          obtain ⟨s, hs, h⟩ := hfound _ (Dict.mem_of_get? ht)
          obtain ⟨s', hs', hS⟩ := hall _ (Dict.mem_of_get? hs)
          have hleft : s ∈ Dict.values _ := List.mem_map_of_mem (Dict.mem_of_get? hs)
          have hright : t ∈ Dict.values _ := List.mem_map_of_mem (Dict.mem_of_get? ht)
          exact ⟨s', hs', hR _ (List.mem_append_left _ hleft) _ (List.mem_append_left _ hright)
            _ _ hS hS' h⟩
        · exact hadd.congr hmatch hmatch'
            (fun x hx y hy => hR x (List.mem_append_right _ hx) y (List.mem_append_right _ hy))
            (fun y hy => hany y (List.mem_append_right _ hy))

/-- One step of what objects say of other keys after another; a closed object may not come first. -/
theorem Additional.Fits.trans {a b c : Additional} (h : a.Fits R b) (k : b.Fits R c)
    (hopen : a.isOpen? ≠ some false)
    (hR : ∀ x ∈ a.inner, ∀ y ∈ b.inner, ∀ z ∈ c.inner, R x y → R y z → R x z)
    (hany : ∀ y ∈ b.inner, ∀ z ∈ c.inner, R .any y → R y z → R .any z)
    (hall : ∀ x ∈ a.inner, ∀ z ∈ c.inner, R .any z → R x z) : a.Fits R c := by
  cases h with
  | @flag _ _ isOpen ha hb =>
    obtain rfl : isOpen = true := by
      cases isOpen with
      | false => exact absurd ha hopen
      | true => rfl
    cases k with
    | flag hb' hc => exact .flag ha (hc.trans (hb'.symm.trans hb))
    | closed => cases hb
    | fromOpen _ k => exact .fromOpen ha k
    | toOpen _ => cases hb
    | following _ => cases hb
  | closed => exact absurd rfl hopen
  | fromOpen ha h =>
    cases k with
    | flag hb _ => cases hb
    | fromOpen hb _ => cases hb
    | toOpen hc => exact .flag ha hc
    | following k => exact .fromOpen ha (hany _ (by simp [inner]) _ (by simp [inner]) h k)
  | toOpen hb =>
    cases k with
    | flag hb' hc => exact .toOpen (hc.trans (hb'.symm.trans hb))
    | closed => cases hb
    | fromOpen _ k => exact .following (hall _ (by simp [inner]) _ (by simp [inner]) k)
    | toOpen _ => cases hb
    | following _ => cases hb
  | following h =>
    cases k with
    | flag hb _ => cases hb
    | fromOpen hb _ => cases hb
    | toOpen hc => exact .toOpen hc
    | following k =>
      exact .following (hR _ (by simp [inner]) _ (by simp [inner]) _ (by simp [inner]) h k)

theorem SchemaType.Fits.trans (h : a.Fits R b) (k : b.Fits R c) (hopen : a.isClosed = false)
    (hR : ∀ x ∈ a.inner, ∀ y ∈ b.inner, ∀ z ∈ c.inner, R x y → R y z → R x z)
    (hany : ∀ y ∈ b.inner, ∀ z ∈ c.inner, R .any y → R y z → R .any z)
    (hall : ∀ x ∈ a.inner, ∀ z ∈ c.inner, R .any z → R x z) : a.Fits R c := by
  cases h with
  | numeric ha hb =>
    cases k with
    | numeric _ hc => exact .numeric ha hc
    | _ => cases hb
  | array h =>
    cases k with
    | numeric hb _ => cases hb
    | array k => exact .array (hR _ (by simp [inner]) _ (by simp [inner]) _ (by simp [inner]) h k)
  | @object ps _ a _ hfound hadd =>
    cases k with
    | numeric hb _ => cases hb
    | object kfound kadd =>
      apply SchemaType.Fits.object
      · intro g hg
        obtain ⟨t, ht, k⟩ := kfound g hg
        obtain ⟨s, hs, h⟩ := hfound _ (Dict.mem_of_get? ht)
        have hleft : s ∈ Dict.values ps := List.mem_map_of_mem (Dict.mem_of_get? hs)
        have hmid : t ∈ Dict.values _ := List.mem_map_of_mem (Dict.mem_of_get? ht)
        have hright : g.2 ∈ Dict.values _ := List.mem_map_of_mem hg
        exact ⟨s, hs, hR _ (List.mem_append_left _ hleft) _ (List.mem_append_left _ hmid) _
          (List.mem_append_left _ hright) h k⟩
      · have hflag : a.isOpen? ≠ some false := by
          rintro hflag
          cases a with
          | allowed isOpen =>
            obtain rfl : isOpen = false := Option.some.inj hflag
            cases hopen
          | _ => cases hflag
        exact hadd.trans kadd hflag
          (fun x hx y hy z hz => hR x (List.mem_append_right _ hx) y (List.mem_append_right _ hy) z
            (List.mem_append_right _ hz))
          (fun y hy z hz => hany y (List.mem_append_right _ hy) z (List.mem_append_right _ hz))
          (fun x hx z hz => hall x (List.mem_append_right _ hx) z (List.mem_append_right _ hz))

end OneLevel

namespace Schema
variable {s t u v c : Schema} {xs : List Schema}

/-- What a value may be held against to stand where a schema is expected: the schema, and the alternatives
of unions at any depth. -/
inductive Target : Schema → Schema → Prop
  | self (t : Schema) : Target t t
  | alternative {t y u : Schema} {ys : List Schema} (htype : t.type = .anyOf ys) (hy : y ∈ ys)
    (h : Target y u) : Target t u

theorem Target.trans (h : Target t u) (k : Target u v) : Target t v := by
  induction h with
  | self _ => exact k
  | alternative htype hy _ ih => exact .alternative htype hy (ih k)

section Reading
variable {test : Schema → Bool}

theorem someOf_iff : someOf test xs = true ↔ ∃ x ∈ xs, someTarget test x = true := by
  induction xs with
  | nil => simp [someOf]
  | cons x rest ih => simp [someOf, ih]

theorem someTarget_eq (t : Schema) :
    someTarget test t = (test t || someAlternative test t.type) := by
  cases t
  rw [someTarget, type]

theorem someTarget_iff : someTarget test t = true ↔ ∃ u, Target t u ∧ test u = true := by
  constructor
  · intro h
    induction t using inner_induction with
    | step t ih =>
      rw [someTarget_eq, Bool.or_eq_true] at h
      cases h with
      | inl h => exact ⟨t, .self t, h⟩
      | inr h =>
        cases htype : t.type with
        | anyOf ys =>
          rw [htype, someAlternative, someOf_iff] at h
          obtain ⟨y, hy, h⟩ := h
          obtain ⟨u, hu, h⟩ := ih y (by rw [htype]; exact hy) h
          exact ⟨u, .alternative htype hy hu, h⟩
        | _ => simp [htype, someAlternative] at h
  · rintro ⟨u, hu, h⟩
    induction hu with
    | self t => rw [someTarget_eq, h, Bool.true_or]
    | alternative htype hy _ ih =>
      rw [someTarget_eq, htype, someAlternative, Bool.or_eq_true, someOf_iff]
      exact .inr ⟨_, hy, ih h⟩

end Reading

theorem acceptsAny_iff : acceptsAny t = true ↔ ∃ u, Target t u ∧ takesAll u = true :=
  someTarget_iff

theorem castable_eq (s t : Schema) : castable s t = castableType s.type t := by
  cases s
  rw [castable, type]

theorem castableType_leaf {a : SchemaType} (h : a.isLeaf = true) : castableType a t =
    someTarget (fun u => sameTypeOf a u.type || takesAll u || (a.isNumeric && u.type.isNumeric)) t := by
  cases a with
  | array _ => cases h
  | object _ _ => cases h
  | anyOf _ => cases h
  | _ =>
    rw [castableType]
    all_goals
      intros
      contradiction

theorem castable_any : castable any t = acceptsAny t := by
  have htest : (fun u : Schema => sameTypeOf .any u.type || takesAll u ||
      (SchemaType.any.isNumeric && u.type.isNumeric)) = takesAll := by
    funext u
    rw [takesAll]
    cases u.type <;> simp [sameTypeOf, SchemaType.isAny, SchemaType.isString, SchemaType.isNumeric]
  rw [any, ofType, castable, castableType_leaf rfl, htest, acceptsAny]

theorem allCastable_iff : allCastable xs t = true ↔ ∀ x ∈ xs, castable x t = true := by
  induction xs with
  | nil => simp [allCastable]
  | cons x rest ih => simp [allCastable, ih]

/-- A cast from a union. -/
theorem castable_anyOf (htype : s.type = .anyOf xs) : castable s t = true ↔
    sameType s t = true ∨ takesAll t = true ∨ ∀ x ∈ xs, castable x t = true := by
  rw [castable_eq, htype, castableType, sameType_eq, htype]
  simp only [Bool.or_eq_true, allCastable_iff, or_assoc]

theorem castable_of_takesAll (h : takesAll t = true) : castable s t = true := by
  have hself (test : Schema → Bool) (htest : test t = true) : someTarget test t = true := by
    rw [someTarget_eq, htest, Bool.true_or]
  rw [castable_eq]
  cases s.type with
  | anyOf xs => simp [castableType, h]
  | array i =>
    rw [castableType]
    exact hself _ (by simp [h])
  | object ps b =>
    rw [castableType]
    exact hself _ (by simp [h])
  | _ =>
    rw [castableType_leaf rfl]
    exact hself _ (by simp [h])

theorem castableItems_eq {i j : Option Schema} :
    castableItems i j = castable (itemsOrAny i) (itemsOrAny j) := by
  cases j with
  | none =>
    rw [castableItems, itemsOrAny.eq_2, castable_of_takesAll rfl]
  | some b =>
    cases i with
    | none => rw [castableItems, itemsOrAny, itemsOrAny, castable_any]
    | some a => rw [castableItems, itemsOrAny, itemsOrAny]

theorem castableProperty_iff {ps : Dict Schema} {key : String} :
    castableProperty ps key t = true ↔ ∃ s, Dict.get? ps key = some s ∧ castable s t = true := by
  induction ps with
  | nil => simp [castableProperty]
  | cons f rest ih =>
    obtain ⟨k, s⟩ := f
    by_cases hk : k = key <;> simp [castableProperty, Dict.get?, hk, ih]

theorem castableAdditional_iff {a b : Additional} : castableAdditional a b = true ↔
    a.Fits (fun s t => castable s t = true) b := by
  constructor
  · intro h
    cases a with
    | unspecified =>
      cases b with
      | unspecified => exact .flag rfl rfl
      | allowed isOpen =>
        obtain rfl : isOpen = true := by simpa [castableAdditional] using h
        exact .flag rfl rfl
      | following t => exact .fromOpen rfl (by simpa [castableAdditional, castable_any] using h)
    | allowed isOpen =>
      cases b with
      | unspecified =>
        obtain rfl : isOpen = true := by simpa [castableAdditional] using h
        exact .flag rfl rfl
      | allowed other =>
        obtain rfl : isOpen = other := by simpa [castableAdditional] using h
        exact .flag rfl rfl
      | following t =>
        cases isOpen with
        | false => exact .closed
        | true => exact .fromOpen rfl (by simpa [castableAdditional, castable_any] using h)
    | following s =>
      cases b with
      | unspecified => exact .toOpen rfl
      | allowed isOpen =>
        obtain rfl : isOpen = true := by simpa [castableAdditional] using h
        exact .toOpen rfl
      | following t => exact .following (by simpa [castableAdditional] using h)
  · intro h
    cases h with
    | flag ha hb => cases a <;> cases b <;> simp_all [Additional.isOpen?, castableAdditional]
    | closed => rw [castableAdditional]
    | fromOpen ha h =>
      rw [castable_any] at h
      cases a <;> simp_all [Additional.isOpen?, castableAdditional]
    | toOpen hb => cases b <;> simp_all [Additional.isOpen?, castableAdditional]
    | following h => rwa [castableAdditional]

theorem fits_leaf_iff {R : Schema → Schema → Prop} {a b : SchemaType} (ha : a.isLeaf = true) :
    a.Fits R b ↔ a.isNumeric = true ∧ b.isNumeric = true := by
  constructor
  · intro h
    cases h with
    | numeric ha hb => exact ⟨ha, hb⟩
    | _ => cases ha
  · intro h
    exact .numeric h.1 h.2

theorem fits_array_iff {i : Option Schema} {b : SchemaType} :
    (SchemaType.array i).Fits (fun s t => castable s t = true) b ↔
      ∃ j, b = .array j ∧ castableItems i j = true := by
  constructor
  · intro h
    cases h with
    | numeric ha _ => cases ha
    | array h => exact ⟨_, rfl, castableItems_eq.trans h⟩
  · rintro ⟨j, rfl, h⟩
    exact .array (castableItems_eq.symm.trans h)

theorem fits_object_iff {ps : Dict Schema} {a : Additional} {b : SchemaType} :
    (SchemaType.object ps a).Fits (fun s t => castable s t = true) b ↔
      ∃ qs other, b = .object qs other ∧
        (qs.all fun pair => castableProperty ps pair.1 pair.2) = true ∧
        castableAdditional a other = true := by
  simp only [List.all_eq_true]
  constructor
  · intro h
    cases h with
    | numeric ha _ => cases ha
    | object hnames hadd =>
      exact ⟨_, _, rfl, fun g hg => castableProperty_iff.mpr (hnames g hg),
        castableAdditional_iff.mpr hadd⟩
  · rintro ⟨qs, other, rfl, hnames, hadd⟩
    exact .object (fun g hg => castableProperty_iff.mp (hnames g hg)) (castableAdditional_iff.mp hadd)

/-- A cast from a schema that is no union. -/
theorem castable_simple (hunion : ∀ xs, s.type ≠ .anyOf xs) : castable s t = true ↔
    ∃ u, Target t u ∧ (sameType s u = true ∨ takesAll u = true ∨
      s.type.Fits (fun s t => castable s t = true) u.type) := by
  rw [castable_eq]
  simp only [sameType_eq]
  cases htype : s.type with
  | anyOf xs => exact absurd htype (hunion xs)
  | array i =>
    simp only [castableType, someTarget_iff, fits_array_iff, Bool.or_eq_true, or_assoc]
    refine exists_congr fun u => and_congr_right fun _ => or_congr_right (or_congr_right ?_)
    cases u.type <;> simp
  | object ps b =>
    simp only [castableType, someTarget_iff, fits_object_iff, Bool.or_eq_true, or_assoc]
    refine exists_congr fun u => and_congr_right fun _ => or_congr_right (or_congr_right ?_)
    cases u.type <;> simp
  | _ =>
    rw [castableType_leaf rfl]
    simp only [someTarget_iff, Bool.or_eq_true, Bool.and_eq_true, or_assoc]
    refine exists_congr fun u => and_congr_right fun _ => or_congr_right (or_congr_right ?_)
    exact (fits_leaf_iff rfl).symm

section Laws

theorem union_or_simple (s : Schema) : (∃ xs, s.type = .anyOf xs) ∨ ∀ xs, s.type ≠ .anyOf xs := by
  rw [← not_exists]
  exact Classical.em _

theorem mem_inner_of_anyOf {x : Schema} (hunion : s.type = .anyOf xs) (hx : x ∈ xs) :
    x ∈ s.type.inner := by
  rw [hunion]
  exact hx

/-- Only unions have the type of a union. -/
theorem sameType_anyOf (h : sameType s t = true) (hunion : s.type = .anyOf xs) :
    ∃ ys, t.type = .anyOf ys ∧ (∀ x ∈ xs, ∃ y ∈ ys, sameType x y = true) ∧
      ∀ y ∈ ys, ∃ x ∈ xs, sameType x y = true := by
  rw [sameType_iff, hunion] at h
  generalize t.type = b at h
  cases h with
  | leaf hleaf => cases hleaf
  | anyOf hleft hright => exact ⟨_, rfl, hleft, hright⟩

theorem takesAll_of_sameType (h : sameType s t = true) (hs : takesAll s = true) :
    takesAll t = true := by
  have hleaf : s.type.isLeaf = true := by
    rw [takesAll] at hs
    generalize s.type = a at hs
    cases a <;> first | rfl | simp [SchemaType.isAny, SchemaType.isString] at hs
  rw [takesAll] at hs ⊢
  rwa [← (sameType_iff.mp h).leaf_eq hleaf]

theorem castable_of_sameType (h : sameType s t = true) : castable s t = true := by
  rcases s.union_or_simple with ⟨xs, hunion⟩ | hsimple
  · exact (castable_anyOf hunion).mpr (.inl h)
  · exact (castable_simple hsimple).mpr ⟨t, .self t, .inl h⟩

/-- Everything may stand where a value of any type may. -/
theorem castable_of_acceptsAny (h : acceptsAny t = true) : castable s t = true := by
  induction s using inner_induction with
  | step s ih =>
    rcases s.union_or_simple with ⟨xs, hunion⟩ | hsimple
    · rw [castable_anyOf hunion]
      exact .inr (.inr fun x hx => ih x (mem_inner_of_anyOf hunion hx))
    · obtain ⟨u, hu, h⟩ := acceptsAny_iff.mp h
      exact (castable_simple hsimple).mpr ⟨u, hu, .inr (.inl h)⟩

/-- A union takes what one of its alternatives takes. -/
theorem castable_of_target (ht : Target t u) (h : castable s u = true) : castable s t = true := by
  induction s using inner_induction generalizing u with
  | step s ih =>
    rcases s.union_or_simple with ⟨xs, hunion⟩ | hsimple
    · rw [castable_anyOf hunion] at h ⊢
      refine .inr (.inr fun x hx => ?_)
      have hmem := mem_inner_of_anyOf hunion hx
      rcases h with h | h | h
      · obtain ⟨ys, htype, hleft, -⟩ := sameType_anyOf h hunion
        obtain ⟨y, hy, hxy⟩ := hleft x hx
        exact ih x hmem (ht.trans (.alternative htype hy (.self y))) (castable_of_sameType hxy)
      · exact castable_of_acceptsAny (acceptsAny_iff.mpr ⟨u, ht, h⟩)
      · exact ih x hmem ht (h x hx)
    · rw [castable_simple hsimple] at h ⊢
      obtain ⟨v, hv, h⟩ := h
      exact ⟨v, ht.trans hv, h⟩

/-- What a union may stand for, each of its alternatives may. -/
theorem castable_target (h : castable t c = true) (ht : Target t u) : castable u c = true := by
  induction ht with
  | self _ => exact h
  | @alternative t y _ ys htype hy _ ih =>
    apply ih
    rcases (castable_anyOf htype).mp h with h | h | h
    · obtain ⟨zs, hctype, hleft, -⟩ := sameType_anyOf h htype
      obtain ⟨z, hz, hyz⟩ := hleft y hy
      exact castable_of_target (.alternative hctype hz (.self z)) (castable_of_sameType hyz)
    · exact castable_of_takesAll h
    · exact h y hy

/-- What takes all may only stand where a value of any type may. -/
theorem acceptsAny_of_castable (hs : takesAll s = true) (h : castable s t = true) :
    acceptsAny t = true := by
  have hsimple (xs : List Schema) : s.type ≠ .anyOf xs := by
    intro htype
    simp [takesAll, htype, SchemaType.isAny, SchemaType.isString] at hs
  obtain ⟨u, hu, h⟩ := (castable_simple hsimple).mp h
  refine acceptsAny_iff.mpr ⟨u, hu, ?_⟩
  rcases h with h | h | h
  · exact takesAll_of_sameType h hs
  · exact h
  · rw [takesAll] at hs
    generalize s.type = a at hs h
    generalize u.type = b at h
    cases h with
    | numeric ha _ =>
      cases a <;> simp [SchemaType.isAny, SchemaType.isString, SchemaType.isNumeric] at ha hs
    | _ => cases hs

theorem NamesOnce.target (h : t.NamesOnce) (ht : Target t u) : u.NamesOnce := by
  induction ht with
  | self _ => exact h
  | alternative htype hy _ ih => exact ih (h.inner (mem_inner_of_anyOf htype hy))

/-- Schemas of one type have targets of one type. -/
theorem Target.sameType (ht : Target t u) (h : sameType t v = true) :
    ∃ w, Target v w ∧ Schema.sameType u w = true := by
  induction ht generalizing v with
  | self _ => exact ⟨v, .self v, h⟩
  | alternative htype hy _ ih =>
    obtain ⟨zs, hvtype, hleft, -⟩ := sameType_anyOf h htype
    obtain ⟨z, hz, hyz⟩ := hleft _ hy
    obtain ⟨w, hw, huw⟩ := ih hyz
    exact ⟨w, .alternative hvtype hz hw, huw⟩

/-- A value of any type may stand for schemas of one type alike. -/
theorem castable_any_of_sameType (h : sameType t u = true) (ht : castable any t = true) :
    castable any u = true := by
  rw [castable_any, acceptsAny_iff] at ht ⊢
  obtain ⟨v, hv, htakes⟩ := ht
  obtain ⟨w, hw, hvw⟩ := hv.sameType h
  exact ⟨w, hw, takesAll_of_sameType hvw htakes⟩

theorem castable_any_trans (h : castable any t = true) (k : castable t c = true) :
    castable any c = true := by
  rw [castable_any, acceptsAny_iff] at h
  rw [castable_any]
  obtain ⟨u, hu, htakes⟩ := h
  exact acceptsAny_of_castable htakes (castable_target k hu)

theorem castable_of_castable_any (h : castable any t = true) : castable s t = true :=
  castable_of_acceptsAny (castable_any.symm.trans h)

/-- A cast stays possible when schemas of the same types stand for both. -/
theorem castable_of_sameTypes {s' t' : Schema} (hs : s.NamesOnce) (ht : t.NamesOnce)
    (hss : sameType s s' = true) (htt : sameType t t' = true) (h : castable s t = true) :
    castable s' t' = true := by
  induction s using inner_induction generalizing s' t t' with
  | step s ih =>
    have hback : sameType s' s = true := hs.sameType_symm hss
    rcases s.union_or_simple with ⟨xs, hunion⟩ | hsimple
    · obtain ⟨xs', hunion', -, hright⟩ := sameType_anyOf hss hunion
      rw [castable_anyOf hunion] at h
      rw [castable_anyOf hunion']
      rcases h with h | h | h
      · exact .inl (sameType_trans hback (sameType_trans h htt))
      · exact .inr (.inl (takesAll_of_sameType htt h))
      · refine .inr (.inr fun x' hx' => ?_)
        obtain ⟨x, hx, hxx⟩ := hright x' hx'
        have hmem := mem_inner_of_anyOf hunion hx
        exact ih x hmem (hs.inner hmem) ht hxx htt (h x hx)
    · have hsimple' (xs' : List Schema) : s'.type ≠ .anyOf xs' := by
        intro htype
        obtain ⟨xs, hunion, -⟩ := sameType_anyOf hback htype
        exact hsimple xs hunion
      obtain ⟨u, hu, h⟩ := (castable_simple hsimple).mp h
      obtain ⟨u', hu', huu⟩ := hu.sameType htt
      have hnames : u.NamesOnce := ht.target hu
      refine (castable_simple hsimple').mpr ⟨u', hu', ?_⟩
      rcases h with h | h | h
      · exact .inl (sameType_trans hback (sameType_trans h huu))
      · exact .inr (.inl (takesAll_of_sameType huu h))
      · refine .inr (.inr (h.congr (sameType_iff.mp hss) (sameType_iff.mp huu) hnames.names
          (fun x hx y hy x' y' hxx hyy hxy => ?_)
          fun y _ y' hyy => castable_any_of_sameType hyy))
        exact ih x hx (hs.inner hx) (hnames.inner hy) hxx hyy hxy

/-- No object of the schema, at any depth, refuses all keys that it does not name. -/
def NeverCloses (s : Schema) : Prop := ∀ n ∈ s.nodes, n.type.isClosed = false

instance (s : Schema) : Decidable s.NeverCloses :=
  inferInstanceAs (Decidable (∀ n ∈ s.nodes, n.type.isClosed = false))

theorem NeverCloses.inner (h : s.NeverCloses) (hu : u ∈ s.type.inner) : u.NeverCloses :=
  nodes_of_inner (Q := fun n => n.type.isClosed = false) rfl h hu

/-- Casts can be put one after the other. -/
theorem castable_trans (hs : s.NamesOnce) (ht : t.NamesOnce) (hc : c.NamesOnce)
    (hopen : s.NeverCloses) (h : castable s t = true) (k : castable t c = true) :
    castable s c = true := by
  induction s using inner_induction generalizing t c with
  | step s ih =>
    rcases s.union_or_simple with ⟨xs, hunion⟩ | hsimple
    · rcases (castable_anyOf hunion).mp h with h | h | h
      · exact castable_of_sameTypes ht hc (hs.sameType_symm h) hc.sameType_refl k
      · exact castable_of_acceptsAny (acceptsAny_of_castable h k)
      · refine (castable_anyOf hunion).mpr (.inr (.inr fun x hx => ?_))
        have hmem := mem_inner_of_anyOf hunion hx
        exact ih x hmem (hs.inner hmem) ht hc (hopen.inner hmem) (h x hx) k
    · obtain ⟨v, hv, h⟩ := (castable_simple hsimple).mp h
      have hvnames : v.NamesOnce := ht.target hv
      have kv : castable v c = true := castable_target k hv
      rcases h with h | h | h
      · exact castable_of_sameTypes hvnames hc (hs.sameType_symm h) hc.sameType_refl kv
      · exact castable_of_acceptsAny (acceptsAny_of_castable h kv)
      · obtain ⟨w, hw, k⟩ := (castable_simple h.not_anyOf).mp kv
        have hwnames : w.NamesOnce := hc.target hw
        refine (castable_simple hsimple).mpr ⟨w, hw, ?_⟩
        rcases k with k | k | k
        · refine .inr (.inr (h.congr (sameType_iff.mp hs.sameType_refl) (sameType_iff.mp k)
            hvnames.names (fun x hx y hy x' y' hxx hyy => ?_)
            fun y _ y' hyy => castable_any_of_sameType hyy))
          exact castable_of_sameTypes (hs.inner hx) (hvnames.inner hy) hxx hyy
        · exact .inr (.inl k)
        · refine .inr (.inr (h.trans k (hopen s (self_mem_nodes s))
            (fun x hx y hy z hz hxy hyz => ?_) (fun y _ z _ => castable_any_trans)
            fun x _ z _ => castable_of_castable_any))
          exact ih x hx (hs.inner hx) (hvnames.inner hy) (hwnames.inner hz) (hopen.inner hx) hxy hyz

end Laws

/-- A cast is possible from a schema to itself, depends on nothing but the types of the two schemas, and
can be put before another one, unless the first schema closes an object. -/
theorem castable_order {a a' b b' c : Schema} (ha : a.NamesOnce) (hb : b.NamesOnce)
    (hc : c.NamesOnce) :
    castable a a = true ∧
    (sameType a a' = true → sameType b b' = true → castable a b = castable a' b') ∧
    (a.NeverCloses → castable a b = true → castable b c = true → castable a c = true) := by
  refine ⟨castable_of_sameType ha.sameType_refl, fun haa hbb => ?_, castable_trans ha hb hc⟩
  rw [Bool.eq_iff_iff]
  constructor
  · exact castable_of_sameTypes ha hb haa hbb
  · exact castable_of_sameTypes (ha.of_sameType haa) (hb.of_sameType hbb) (ha.sameType_symm haa)
      (hb.sameType_symm hbb)

/-- A cast of objects whose parts are written in two ways, onto an alternative of a union. -/
theorem castable_order_measurement :
    let texts := ofType (.anyOf [ofType .string, ofType .null])
    let texts' := ofType (.anyOf [ofType .null, ofType .string, ofType .null])
    let a := ofType (.object [("size", ofType .integer), ("tags", ofType (.array none))]
      (.following texts))
    let a' := ofType (.object [("tags", ofType (.array (some any))), ("size", ofType .integer)]
      (.following texts'))
    let b := ofType (.object [("size", ofType .number)] .unspecified)
    let b' := ofType (.object [("size", ofType .number)] (.allowed true))
    let c := ofType (.anyOf [ofType .null, ofType (.object [] .unspecified)])
    (a.NamesOnce ∧ b.NamesOnce ∧ c.NamesOnce) ∧ sameType a a' = true ∧ sameType b b' = true ∧
      a.NeverCloses ∧ castable a b = true ∧ castable b c = true ∧
      castable a a = true ∧ castable a b = castable a' b' ∧ castable a c = true := by
  intro texts texts' a a' b b' c
  have hnames : a.NamesOnce ∧ b.NamesOnce ∧ c.NamesOnce := by decide +kernel
  have haa : sameType a a' = true := by decide +kernel
  have hbb : sameType b b' = true := by decide +kernel
  have hopen : a.NeverCloses := by decide +kernel
  have hab : castable a b = true := by decide +kernel
  have hbc : castable b c = true := by decide +kernel
  obtain ⟨ha, hb, hc⟩ := hnames
  obtain ⟨hrefl, hcongr, htrans⟩ := castable_order ha hb hc
  exact ⟨⟨ha, hb, hc⟩, haa, hbb, hopen, hab, hbc, hrefl, hcongr haa hbb, htrans hopen hab hbc⟩

/-- Nothing is asked of the other keys of a closed object where they have a schema to follow, but an object that
is open takes none that is closed. -/
example :
    let closed := ofType (.object [] (.allowed false))
    let texts := ofType (.object [] (.following (ofType .string)))
    let free := ofType (.object [] .unspecified)
    castable closed texts = true ∧ castable texts free = true ∧ castable closed free = false := by
  decide +kernel

end Schema
end AgentGraph
