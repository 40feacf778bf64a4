import AgentGraph.Proofs.Plain
/-!
# What stripping drops

The listing of a tree has an item for each tree in it, the tree itself first: the steps that lead there
and what stands there. A tree is known by its listing. Stripping takes out of the listing what a reserved
key leads to, and nothing else, and leaves the order as it is; each entry that it deletes is counted
once.
-/
namespace AgentGraph.Tree

/-- A step from a tree to one that stands in it. -/
inductive Step where
  | item (index : Nat)
  | entry (key : String)

def Step.isReserved : Step → Bool
  | .item _ => false
  | .entry key => isReservedKey key

/-- What a tree is, apart from the trees that stand in it. -/
inductive Form where
  | null
  | bool (value : Bool)
  | number (value : Number)
  | string (value : String)
  | list
  | map

/-- A place in a tree: the steps that lead there, and what stands there. -/
abbrev Place := List Step × Form

/-- Places of a tree, told from the tree that it stands in. -/
def under (s : Step) (places : List Place) : List Place := places.map fun p => (s :: p.1, p.2)

mutual
/-- The places of a tree in order, each before those below it. -/
def listing : Tree → List Place
  | .null => [([], .null)]
  | .bool value => [([], .bool value)]
  | .number value => [([], .number value)]
  | .string value => [([], .string value)]
  | .list items => ([], .list) :: listingItems 0 items
  | .map entries => ([], .map) :: listingEntries entries
/-- The places in the items of a list, the first of which has a given index. -/
def listingItems (index : Nat) : List Tree → List Place
  | [] => []
  | t :: rest => under (.item index) (listing t) ++ listingItems (index + 1) rest
/-- The places in the values of a mapping. -/
def listingEntries : List (String × Tree) → List Place
  | [] => []
  | (key, t) :: rest => under (.entry key) (listing t) ++ listingEntries rest
end

theorem under_ne_nil (s : Step) (places : List Place) : ∀ p ∈ under s places, p.1 ≠ [] := by
  intro p hp
  obtain ⟨q, -, rfl⟩ := List.mem_map.mp hp
  exact List.cons_ne_nil s q.1

theorem listingItems_ne_nil (index : Nat) (ts : List Tree) :
    ∀ p ∈ listingItems index ts, p.1 ≠ [] := by
  induction ts generalizing index with
  | nil => simp [listingItems]
  | cons t rest ih => exact List.forall_mem_append.mpr ⟨under_ne_nil _ _, ih (index + 1)⟩

theorem listingEntries_ne_nil (d : List (String × Tree)) : ∀ p ∈ listingEntries d, p.1 ≠ [] := by
  induction d with
  | nil => simp [listingEntries]
  | cons pair rest ih => exact List.forall_mem_append.mpr ⟨under_ne_nil _ _, ih⟩

/-- The place itself comes first, and it is the only one without steps. -/
theorem listing_cases (t : Tree) :
    ∃ form rest, t.listing = ([], form) :: rest ∧ ∀ p ∈ rest, p.1 ≠ [] := by
  cases t with
  | list items => exact ⟨_, _, rfl, listingItems_ne_nil 0 items⟩
  | map entries => exact ⟨_, _, rfl, listingEntries_ne_nil entries⟩
  | _ => exact ⟨_, [], rfl, by simp⟩

/-- A reserved key leads to the place, or past it. -/
def isCut (p : Place) : Bool := p.1.any Step.isReserved

theorem filter_under (s : Step) (places : List Place) :
    (under s places).filter (!isCut ·) =
      if s.isReserved then [] else under s (places.filter (!isCut ·)) := by
  unfold under
  rw [List.filter_map]
  cases hs : s.isReserved with
  | true =>
    rw [if_pos rfl, List.map_eq_nil_iff, List.filter_eq_nil_iff]
    intro p _
    simp [isCut, hs]
  | false =>
    have hsame : (fun p : Place => !isCut p) ∘ (fun p => (s :: p.1, p.2)) = fun p => !isCut p := by
      funext p
      simp [isCut, hs]
    rw [if_neg Bool.false_ne_true, hsame]

mutual
/-- Stripping drops what a reserved key leads to and keeps everything else in order. -/
theorem listing_strip (t : Tree) : t.strip.listing = t.listing.filter (!isCut ·) := by
  match t with
  | .list items =>
    rw [strip, listing, listing, listingItems_strip]
    rfl
  | .map entries =>
    rw [strip, listing, listing, listingEntries_strip]
    rfl
  | .null | .bool _ | .number _ | .string _ => rfl
theorem listingItems_strip (index : Nat) (ts : List Tree) :
    listingItems index (stripList ts) = (listingItems index ts).filter (!isCut ·) := by
  match ts with
  | [] => rfl
  | t :: rest =>
    rw [stripList, listingItems, listingItems, List.filter_append, filter_under, listing_strip t,
      listingItems_strip (index + 1) rest]
    rfl
theorem listingEntries_strip (d : List (String × Tree)) :
    listingEntries (stripEntries d) = (listingEntries d).filter (!isCut ·) := by
  match d with
  | [] => rfl
  | (key, t) :: rest =>
    rw [stripEntries, listingEntries, List.filter_append, filter_under, Step.isReserved,
      ← listingEntries_strip rest]
    cases isReservedKey key with
    | true => rfl
    | false =>
      rw [if_neg Bool.false_ne_true, if_neg Bool.false_ne_true, listingEntries, listing_strip t]
end

/-- A tree is what is left of another without the places that a reserved key leads to. -/
def LeftOf (t u : Tree) : Prop := u.listing = t.listing.filter (!isCut ·)

theorem leftOf_strip (t : Tree) : LeftOf t t.strip := listing_strip t

/-- The place is that of an entry with a reserved key, and no reserved key leads to the mapping in which
the entry stands. -/
def isDeleted : List Step → Bool
  | [] => false
  | s :: rest => if s.isReserved then rest.isEmpty else isDeleted rest

theorem countP_under (s : Step) (t : Tree) :
    (under s t.listing).countP (isDeleted ·.1) =
      if s.isReserved then 1 else t.listing.countP (isDeleted ·.1) := by
  unfold under
  rw [List.countP_map]
  cases hs : s.isReserved with
  | true =>
    obtain ⟨form, rest, hlisting, hrest⟩ := t.listing_cases
    have hnone : rest.countP ((isDeleted ·.1) ∘ fun p => (s :: p.1, p.2)) = 0 := by
      rw [List.countP_eq_zero]
      intro p hp
      simpa [isDeleted, hs] using hrest p hp
    rw [hlisting, List.countP_cons, hnone]
    simp [isDeleted, hs]
  | false =>
    rw [if_neg Bool.false_ne_true]
    congr 1
    funext p
    simp [isDeleted, hs]

mutual
/-- What is counted are the entries that stripping deletes. -/
theorem reservedCount_eq (t : Tree) : t.reservedCount = t.listing.countP (isDeleted ·.1) := by
  match t with
  | .list items =>
    rw [reservedCount, reservedCountList_eq 0 items, listing]
    rfl
  | .map entries =>
    rw [reservedCount, reservedCountEntries_eq entries, listing]
    rfl
  | .null | .bool _ | .number _ | .string _ => rfl
theorem reservedCountList_eq (index : Nat) (ts : List Tree) :
    reservedCountList ts = (listingItems index ts).countP (isDeleted ·.1) := by
  match ts with
  | [] => rfl
  | t :: rest =>
    rw [reservedCountList, listingItems, List.countP_append, countP_under, reservedCount_eq t,
      reservedCountList_eq (index + 1) rest]
    rfl
theorem reservedCountEntries_eq (d : List (String × Tree)) :
    reservedCountEntries d = (listingEntries d).countP (isDeleted ·.1) := by
  match d with
  | [] => rfl
  | (key, t) :: rest =>
    rw [reservedCountEntries, listingEntries, List.countP_append, countP_under, Step.isReserved,
      reservedCount_eq t, reservedCountEntries_eq rest]
end

/-- Where the places of one tree end and those of the next begin can be told. -/
theorem under_append_inj {s s' : Step} {t u : Tree} {xs ys : List Place}
    (hxs : ∀ p, xs.head? = some p → p.1.length = 1) (hys : ∀ p, ys.head? = some p → p.1.length = 1)
    (h : under s t.listing ++ xs = under s' u.listing ++ ys) :
    s = s' ∧ t.listing = u.listing ∧ xs = ys := by
  obtain ⟨form, rest, ht, hrest⟩ := t.listing_cases
  obtain ⟨form', rest', hu, hrest'⟩ := u.listing_cases
  -- what follows the first place of a tree belongs to it as long as more than one step leads there
  have hlong {ps : List Place} (hps : ∀ p ∈ ps, p.1 ≠ []) :
      ∀ p ∈ under s ps, (p.1.length != 1) = true := by
    intro p hp
    obtain ⟨q, hq, rfl⟩ := List.mem_map.mp hp
    simpa using hps q hq
  have hstop {zs : List Place} (hzs : ∀ p, zs.head? = some p → p.1.length = 1) :
      zs.takeWhile (·.1.length != 1) = [] := by
    cases zs with
    | nil => rfl
    | cons p _ => rw [List.takeWhile_cons, if_neg (by simp [hzs p rfl])]
  have hsplit {ps zs : List Place} (hps : ∀ p ∈ ps, p.1 ≠ [])
      (hzs : ∀ p, zs.head? = some p → p.1.length = 1) :
      (under s ps ++ zs).takeWhile (·.1.length != 1) = under s ps := by
    rw [List.takeWhile_append_of_pos (hlong hps), hstop hzs, List.append_nil]
  have hinj : Function.Injective fun p : Place => (s :: p.1, p.2) := by
    rintro ⟨p, f⟩ ⟨q, g⟩ hpq
    simpa using hpq
  rw [ht, hu] at h
  obtain ⟨hhead, htail⟩ := List.cons.inj h
  obtain ⟨hsteps, rfl⟩ := Prod.mk.inj hhead
  obtain ⟨rfl, -⟩ := List.cons.inj hsteps
  have htake : under s rest = under s rest' := by
    rw [← hsplit hrest hxs, ← hsplit hrest' hys]
    exact congrArg _ htail
  obtain rfl := List.map_injective_iff.mpr hinj htake
  exact ⟨rfl, by rw [ht, hu], List.append_cancel_left htail⟩

theorem head_listingItems {index : Nat} {ts : List Tree} :
    ∀ p, (listingItems index ts).head? = some p → p.1.length = 1 := by
  intro p hp
  cases ts with
  | nil => cases hp
  | cons t rest =>
    obtain ⟨form, places, ht, -⟩ := t.listing_cases
    rw [listingItems, ht] at hp
    obtain rfl := Option.some.inj hp
    rfl

theorem head_listingEntries {d : List (String × Tree)} :
    ∀ p, (listingEntries d).head? = some p → p.1.length = 1 := by
  intro p hp
  cases d with
  | nil => cases hp
  | cons pair rest =>
    obtain ⟨form, places, ht, -⟩ := pair.2.listing_cases
    rw [listingEntries, ht] at hp
    obtain rfl := Option.some.inj hp
    rfl

mutual
/-- A tree is known by its listing. -/
theorem listing_inj {t u : Tree} (h : t.listing = u.listing) : t = u := by
  match t, u with
  | .null, .null => rfl
  | .bool _, .bool _ | .number _, .number _ | .string _, .string _ => simpa [listing] using h
  | .list ts, .list us => rw [listingItems_inj (List.cons.inj h).2]
  | .map d, .map e => rw [listingEntries_inj (List.cons.inj h).2]
theorem listingItems_inj {index : Nat} {ts us : List Tree}
    (h : listingItems index ts = listingItems index us) : ts = us := by
  match ts, us with
  | [], [] => rfl
  | [], u :: us =>
    obtain ⟨form, places, hu, -⟩ := u.listing_cases
    rw [listingItems, listingItems, hu] at h
    cases h
  | t :: ts, [] =>
    obtain ⟨form, places, ht, -⟩ := t.listing_cases
    rw [listingItems, listingItems, ht] at h
    cases h
  | t :: ts, u :: us =>
    obtain ⟨-, ht, hts⟩ := under_append_inj head_listingItems head_listingItems h
    rw [listing_inj ht, listingItems_inj hts]
theorem listingEntries_inj {d e : List (String × Tree)}
    (h : listingEntries d = listingEntries e) : d = e := by
  match d, e with
  | [], [] => rfl
  | [], (_, u) :: e =>
    obtain ⟨form, places, hu, -⟩ := u.listing_cases
    rw [listingEntries, listingEntries, hu] at h
    cases h
  | (_, t) :: d, [] =>
    obtain ⟨form, places, ht, -⟩ := t.listing_cases
    rw [listingEntries, listingEntries, ht] at h
    cases h
  | (key, t) :: d, (key', u) :: e =>
    obtain ⟨hkey, ht, hd⟩ := under_append_inj head_listingEntries head_listingEntries h
    rw [Step.entry.inj hkey, listing_inj ht, listingEntries_inj hd]
end

end AgentGraph.Tree
