import AgentGraph.Proofs.Load.Descent
/-!
# Cycles of references

An entry refers to another if its record, or a record nested in it, holds a reference to the other. A
load of builtin kinds reports a cycle only at an entry that comes back to itself. And it never succeeds
over an entry that comes back to itself, if the ids of the document tell its records apart: a record
that was loaded has nothing below it that goes on forever.
-/
namespace AgentGraph
open Relation (ReflTransGen TransGen)

namespace Load
section
variable (naming : NamingMode)

/-- The second record is nested in the first: it stands in a component field, with a discriminator and
without a reference. -/
def Nests (f g : Dict Tree) : Prop :=
  g ∈ places naming f ∧ Dict.has g naming.protocol.componentType = true ∧
    Dict.get? g naming.protocol.componentRef = none

/-- A record, or one nested in it, holds a reference in a component field. -/
def Mentions (f : Dict Tree) (id : String) : Prop :=
  ∃ g, ReflTransGen (Nests naming) f g ∧
    [(naming.protocol.componentRef, .string id)] ∈ places naming g

/-- The record of the first entry, or one nested in it, holds a reference to the second id. -/
def Refers (sidecar : Dict (Dict Tree)) (x y : String) : Prop :=
  ∃ f, Dict.get? sidecar x = some f ∧ Mentions naming f y

/-- The ids that a load comes to: those to which the root leads, or, if there is no root, those to
which an entry of the sidecar leads. -/
def Reached (document : Tree) (x : String) : Prop :=
  let fields := document.entries?.getD []
  ∃ y, ReflTransGen (Refers naming (definedIn naming document)) y x ∧
    if Dict.has fields naming.protocol.componentType then Mentions naming fields y
    else ∃ sidecar, Dict.get? fields naming.protocol.referencedComponents = some sidecar ∧
      y ∈ Dict.keys (sidecar.entries?.getD [])

/-- A record of a document: the root, an entry, or a record nested in one of these. -/
def IsRecord (document : Tree) (f : Dict Tree) : Prop :=
  ∃ top, ReflTransGen (Nests naming) top f ∧
    (Dict.has top naming.protocol.componentType = true ∧ document = .map top ∨
      ∃ x, Dict.get? (definedIn naming document) x = some top)

/-- The ids of a document tell its records apart, and the entries are keyed by theirs. -/
structure Identified (document : Tree) : Prop where
  declared : ∀ f, IsRecord naming document f → declaredId? f ≠ none
  apart : ∀ f g, IsRecord naming document f → IsRecord naming document g →
    declaredId? f = declaredId? g → f = g
  keyed : ∀ x f, Dict.get? (definedIn naming document) x = some f → declaredId? f = some x

/-- Loading the first record comes to the second: it is nested there, or it is the entry of a
reference. -/
def StepsTo (sidecar : Dict (Dict Tree)) (f g : Dict Tree) : Prop :=
  Nests naming f g ∨ ∃ x, [(naming.protocol.componentRef, .string x)] ∈ places naming f ∧
    Dict.get? sidecar x = some g

/-- A record below which nothing goes on forever. -/
def Grounded (sidecar : Dict (Dict Tree)) (f : Dict Tree) : Prop :=
  Acc (fun g f => StepsTo naming sidecar f g) f

end

variable {naming : NamingMode} {sidecar : Dict (Dict Tree)} {document : Tree} {f g : Dict Tree}
  {x y : String}

theorem pluginOf_builtin {type : String} {plugin : Plugin}
    (h : pluginOf .builtin type = .ok plugin) : type ∈ Builtin.types := by
  unfold pluginOf at h
  split at h
  · rename_i owner howner
    rcases Registry.owner?_cases howner with hextension | ⟨hbuiltin, -⟩
    · cases hextension
    · exact hbuiltin
  · cases h

theorem knownPlugins_builtin : KnownPlugins .builtin := by
  have hregistry : Registry.ofPlugins [] = .ok .builtin := rfl
  exact knownPlugins_of_generic hregistry fun _ hplugin => nomatch hplugin

/-! ## A reported cycle is one -/

/-- All ids of some set lead to a record: the entry that holds it is one to which they refer. -/
def LeadTo (naming : NamingMode) (sidecar : Dict (Dict Tree)) (P : String → Prop) (f : Dict Tree) :
    Prop :=
  ∀ x, P x → ∃ y g, ReflTransGen (Refers naming sidecar) x y ∧ Dict.get? sidecar y = some g ∧
    ReflTransGen (Nests naming) g f

/-- Only ids of a set are in progress. -/
def OnlyOpen (P : String → Prop) (ids : Dict Resolution) : Prop :=
  ∀ x, Dict.get? ids x = some .inProgress → P x

/-- A failure that is no cycle, or one at an id that comes back to itself. -/
def TrueCycle (naming : NamingMode) (sidecar : Dict (Dict Tree)) (e : LoadError) : Prop :=
  ∀ x, e = .circularReference x → TransGen (Refers naming sidecar) x x

variable {P : String → Prop}

theorem LeadTo.nested (h : LeadTo naming sidecar P f) (hfg : Nests naming f g) :
    LeadTo naming sidecar P g := by
  intro x hx
  obtain ⟨y, k, hxy, hk, hkf⟩ := h x hx
  exact ⟨y, k, hxy, hk, hkf.tail hfg⟩

theorem LeadTo.refers (h : LeadTo naming sidecar P f)
    (hy : [(naming.protocol.componentRef, .string y)] ∈ places naming f) (hx : P x) :
    TransGen (Refers naming sidecar) x y := by
  obtain ⟨z, g, hxz, hg, hgf⟩ := h x hx
  exact .tail' hxz ⟨g, hg, f, hgf, hy⟩

/-- In the record of an entry, the id of the entry is one more that leads there. -/
theorem LeadTo.entered (h : LeadTo naming sidecar P f)
    (hy : [(naming.protocol.componentRef, .string y)] ∈ places naming f)
    (hg : Dict.get? sidecar y = some g) :
    LeadTo naming sidecar (fun x => P x ∨ x = y) g := by
  rintro x (hx | rfl)
  · exact ⟨y, g, (h.refers hy hx).to_reflTransGen, hg, .refl⟩
  · exact ⟨x, g, .refl, hg, .refl⟩

theorem OnlyOpen.begun {ids : Dict Resolution} (h : OnlyOpen P ids) :
    OnlyOpen (fun z => P z ∨ z = y) (Dict.put ids y .inProgress) := by
  intro z hz
  rw [Dict.get?_put] at hz
  split at hz
  · rename_i heq
    exact .inr heq.symm
  · exact .inl (h z hz)

theorem OnlyOpen.noted {ids : Dict Resolution} {c : Component}
    (h : OnlyOpen (fun z => P z ∨ z = y) ids) : OnlyOpen P (Dict.put ids y (.resolved c)) := by
  intro z hz
  rw [Dict.get?_put] at hz
  split at hz
  · cases hz
  · rename_i hne
    exact (h z hz).resolve_right fun heq => hne heq.symm

theorem trueCycle_of_local (e : LoadError) (h : e.IsLocal) : TrueCycle naming sidecar e := by
  rintro x rfl
  exact h.elim

variable {ctx : Context}

theorem trueCycle_follow {load : Dict Tree → LoadM Component} (hsupplied : ctx.supplied = [])
    (hopen : P x → TransGen (Refers ctx.naming ctx.sidecar) x x)
    (hload : ∀ g, Dict.get? ctx.sidecar x = some g →
      KeepsIds (OnlyOpen fun z => P z ∨ z = x) (TrueCycle ctx.naming ctx.sidecar) (load g)
        fun _ => True) :
    KeepsIds (OnlyOpen P) (TrueCycle ctx.naming ctx.sidecar) (follow ctx load x) fun _ => True := by
  refine keeps_follow ?_ (fun _ _ _ _ => trivial) ?_ ?_ (fun ids => OnlyOpen.begun) hload
    (fun g ids c _ _ => OnlyOpen.noted)
  · rintro ids hids hget z ⟨⟩
    exact hopen (hids x hget)
  · intro ids c _ hc
    simp [hsupplied] at hc
  · rintro _ _ z ⟨⟩

theorem trueCycle_record (hregistry : ctx.registry = .builtin) (hsupplied : ctx.supplied = [])
    (room : Nat) (hf : LeadTo ctx.naming ctx.sidecar P f) :
    KeepsIds (OnlyOpen P) (TrueCycle ctx.naming ctx.sidecar) (record ctx room f) fun _ => True := by
  induction room generalizing f P with
  | zero => exact Ends.throw (trueCycle_of_local _ trivial)
  | succ room ih =>
    have hanswers : Reader.Answers (OnlyOpen P) (TrueCycle ctx.naming ctx.sidecar)
        (· ∈ places ctx.naming f) (fun _ => True)
        ⟨ctx.release, ctx.naming, record ctx room, follow ctx (record ctx room)⟩ := by
      constructor
      · intro use huse href
        cases htype : Dict.has use ctx.naming.protocol.componentType with
        | true => exact ih (hf.nested ⟨huse, htype, href⟩)
        | false => exact keeps_untyped trueCycle_of_local htype
      · intro x hx
        exact trueCycle_follow hsupplied (hf.refers hx) fun g hg => ih (hf.entered hx hg)
      · rintro use target - - - x ⟨⟩
      · rintro target - - x ⟨⟩
      · exact trueCycle_of_local
    refine keeps_record trueCycle_of_local (fun type plugin htype hplugin => ?_)
      (fun _ _ _ _ _ _ => trivial) fun ids id c _ hids _ => .noted fun z hz => .inl (hids z hz)
    rw [hregistry] at hplugin
    exact (keeps_pluginRead knownPlugins_builtin htype hplugin hanswers (fun _ huse => huse)
      fun hother => absurd (pluginOf_builtin hplugin) hother).mono fun _ _ => trivial

theorem trueCycle_root {disaggregatedOnly : Bool} (hregistry : ctx.registry = .builtin)
    (hsupplied : ctx.supplied = []) :
    KeepsIds (OnlyOpen fun _ => False) (TrueCycle ctx.naming ctx.sidecar)
      (root ctx disaggregatedOnly f) fun _ => True := by
  have hrecord {P : String → Prop} (g : Dict Tree) (hg : LeadTo ctx.naming ctx.sidecar P g) :=
    trueCycle_record hregistry hsupplied ctx.maxDepth hg
  refine keeps_root trueCycle_of_local (fun _ => hrecord f fun _ h => h.elim) fun _ sidecar _ => ?_
  refine (keeps_entries (Q := fun _ => True) fun x _ => ?_).mono fun _ _ => trivial
  refine trueCycle_follow hsupplied (fun h => h.elim) fun g hg => hrecord g ?_
  rintro z (hz | rfl)
  · exact hz.elim
  · exact ⟨z, g, .refl, hg, .refl⟩

/-! ## A cycle is never loaded -/

theorem not_rel_self_of_acc {α : Type} {r : α → α → Prop} {a : α} (h : Acc r a) : ¬ r a a := by
  induction h with
  | intro a _ ih => exact fun ha => ih a ha ha

theorem Grounded.not_stepsTo (h : Grounded naming sidecar f) :
    ¬ TransGen (StepsTo naming sidecar) f f := fun hf =>
  not_rel_self_of_acc (Acc.transGen h) (Relation.transGen_swap.mpr hf)

theorem Grounded.below (h : Grounded naming sidecar f)
    (hfg : ReflTransGen (StepsTo naming sidecar) f g) : Grounded naming sidecar g := by
  induction hfg with
  | refl => exact h
  | tail _ hstep ih => exact ih.inv hstep

theorem Mentions.stepsTo (h : Mentions naming f x) (hg : Dict.get? sidecar x = some g) :
    TransGen (StepsTo naming sidecar) f g := by
  obtain ⟨k, hfk, hx⟩ := h
  have hsteps : ReflTransGen (StepsTo naming sidecar) f k :=
    hfk.lift id fun _ _ hnests => .inl hnests
  exact .tail' hsteps (.inr ⟨x, hx, hg⟩)

/-- Where one entry leads to another by references, its record leads to the other's. -/
theorem stepsTo_of_refers (h : TransGen (Refers naming sidecar) x y)
    (hg : Dict.get? sidecar y = some g) :
    ∃ f, Dict.get? sidecar x = some f ∧ TransGen (StepsTo naming sidecar) f g := by
  induction h using TransGen.head_induction_on with
  | single h =>
    obtain ⟨f, hf, hmentions⟩ := h
    exact ⟨f, hf, hmentions.stepsTo hg⟩
  | head h _ ih =>
    obtain ⟨f, hf, hmentions⟩ := h
    obtain ⟨k, hk, hkg⟩ := ih
    exact ⟨f, hf, (hmentions.stepsTo hk).trans hkg⟩

theorem Grounded.not_refers (h : Grounded naming sidecar f) (hf : Dict.get? sidecar x = some f) :
    ¬ TransGen (Refers naming sidecar) x x := by
  intro hx
  obtain ⟨g, hg, hgf⟩ := stepsTo_of_refers hx hf
  obtain rfl := Option.some.inj (hf.symm.trans hg)
  exact h.not_stepsTo hgf

/-- Only ids under which all records are grounded were resolved. -/
def OnlyGrounded (naming : NamingMode) (document : Tree) (ids : Dict Resolution) : Prop :=
  ∀ x c, Dict.get? ids x = some (.resolved c) → ∀ f, IsRecord naming document f →
    declaredId? f = some x → Grounded naming (definedIn naming document) f

theorem OnlyGrounded.begun {ids : Dict Resolution} (h : OnlyGrounded naming document ids) :
    OnlyGrounded naming document (Dict.put ids x .inProgress) := by
  intro y c hy
  rw [Dict.get?_put] at hy
  split at hy
  · cases hy
  · exact h y c hy

theorem OnlyGrounded.noted {ids : Dict Resolution} {c : Component}
    (hids : Identified naming document) (h : OnlyGrounded naming document ids)
    (hf : IsRecord naming document f) (hx : declaredId? f = some x)
    (hground : Grounded naming (definedIn naming document) f) :
    OnlyGrounded naming document (Dict.put ids x (.resolved c)) := by
  intro y d hy g hg hgy
  rw [Dict.get?_put] at hy
  split at hy
  · rename_i heq
    obtain rfl := hids.apart f g hf hg (by rw [hx, hgy, heq])
    exact hground
  · exact h y d hy g hg hgy

/-- All that a mapping can stand for is grounded: itself, if it is a record, or the entry to which it
refers. -/
def GroundedUse (naming : NamingMode) (sidecar : Dict (Dict Tree)) (use : Dict Tree) : Prop :=
  ∀ g, (Dict.has use naming.protocol.componentType = true ∧
      Dict.get? use naming.protocol.componentRef = none ∧ g = use) ∨
    (∃ x, use = [(naming.protocol.componentRef, .string x)] ∧ Dict.get? sidecar x = some g) →
    Grounded naming sidecar g

theorem isRecord_entry (h : Dict.get? (definedIn naming document) x = some f) :
    IsRecord naming document f := ⟨f, .refl, .inr ⟨x, h⟩⟩

theorem IsRecord.nested (h : IsRecord naming document f) (hfg : Nests naming f g) :
    IsRecord naming document g := by
  obtain ⟨top, htop, hplace⟩ := h
  exact ⟨top, htop.tail hfg, hplace⟩

section
variable (hids : Identified ctx.naming document) (hsupplied : ctx.supplied = [])
  (hsidecar : ctx.sidecar = definedIn ctx.naming document)
include hids hsupplied hsidecar

theorem grounded_follow {load : Dict Tree → LoadM Component}
    (hload : ∀ g, Dict.get? ctx.sidecar x = some g →
      KeepsIds (OnlyGrounded ctx.naming document) (fun _ => True) (load g) fun _ =>
        Grounded ctx.naming ctx.sidecar g) :
    KeepsIds (OnlyGrounded ctx.naming document) (fun _ => True) (follow ctx load x) fun _ =>
      ∀ g, Dict.get? ctx.sidecar x = some g → Grounded ctx.naming ctx.sidecar g := by
  refine keeps_follow (fun _ _ _ => trivial) ?_ ?_ (fun _ _ => trivial)
    (fun ids => OnlyGrounded.begun) (fun g hg => (hload g hg).mono fun _ hground k hk => ?_) ?_
  · intro ids c hids' hget g hg
    rw [hsidecar] at hg ⊢
    exact hids' x c hget g (isRecord_entry hg) (hids.keyed x g hg)
  · intro ids c _ hc
    simp [hsupplied] at hc
  · exact Option.some.inj (hg.symm.trans hk) ▸ hground
  · intro g ids c hg hground hids'
    have hground' := hground g hg
    rw [hsidecar] at hg hground'
    exact hids'.noted hids (isRecord_entry hg) (hids.keyed x g hg) hground'

/-- Nested records are grounded by whatever loads them, and references by the entries they stand for. -/
theorem answers_grounded {load : Dict Tree → LoadM Component}
    (huntyped : ∀ use, Dict.has use ctx.naming.protocol.componentType = false →
      KeepsIds (OnlyGrounded ctx.naming document) (fun _ => True) (load use) fun _ =>
        GroundedUse ctx.naming ctx.sidecar use)
    (hload : ∀ g, IsRecord ctx.naming document g →
      KeepsIds (OnlyGrounded ctx.naming document) (fun _ => True) (load g) fun _ =>
        Grounded ctx.naming ctx.sidecar g)
    (hf : IsRecord ctx.naming document f) :
    Reader.Answers (OnlyGrounded ctx.naming document) (fun _ => True) (· ∈ places ctx.naming f)
      (GroundedUse ctx.naming ctx.sidecar) ⟨ctx.release, ctx.naming, load, follow ctx load⟩ := by
  constructor
  · intro use huse href
    cases htype : Dict.has use ctx.naming.protocol.componentType with
    | false => exact huntyped use htype
    | true =>
      refine (hload use (hf.nested ⟨huse, htype, href⟩)).mono fun _ hground => ?_
      rintro g (⟨-, -, rfl⟩ | ⟨x, rfl, -⟩)
      · exact hground
      · simp [Dict.get?] at href
  · intro x _
    refine (grounded_follow hids hsupplied hsidecar fun g hg => ?_).mono fun _ hground => ?_
    · exact hload g (isRecord_entry (hsidecar ▸ hg))
    · rintro g (⟨-, href, -⟩ | ⟨y, heq, hg⟩)
      · simp [Dict.get?] at href
      · simp only [List.cons.injEq, Prod.mk.injEq, Tree.string.injEq, true_and, and_true] at heq
        exact hground g (heq ▸ hg)
  · exact fun _ _ _ _ _ => trivial
  · exact fun _ _ _ => trivial
  · exact fun _ _ => trivial

theorem grounded_record (hregistry : ctx.registry = .builtin) (room : Nat)
    (hf : IsRecord ctx.naming document f) :
    KeepsIds (OnlyGrounded ctx.naming document) (fun _ => True) (record ctx room f) fun _ =>
      Grounded ctx.naming ctx.sidecar f := by
  induction room generalizing f with
  | zero => exact Ends.throw trivial
  | succ room ih =>
    have hanswers := answers_grounded hids hsupplied hsidecar
      (fun _ => keeps_untyped fun _ _ => trivial) (fun _ => ih) hf
    refine keeps_record (fun _ _ => trivial) (fun type plugin htype hplugin => ?_) ?_ ?_
    · rw [hregistry] at hplugin
      have htypes := pluginOf_builtin hplugin
      refine (keeps_pluginRead knownPlugins_builtin htype hplugin hanswers (fun _ huse => huse)
        fun hother => absurd htypes hother).mono fun _ hsettled => ?_
      constructor
      rintro g (⟨hplace, hg⟩ | ⟨x, hplace, hg⟩)
      · exact hsettled htypes g hplace g (.inl ⟨hg.1, hg.2, rfl⟩)
      · exact hsettled htypes _ hplace g (.inr ⟨x, rfl, hg⟩)
    · intro ids id c hids' hget hid
      obtain ⟨x, hx⟩ := Option.ne_none_iff_exists'.mp (hids.declared f hf)
      rw [hsidecar]
      exact hids' id c hget f hf (hid x hx ▸ hx)
    · intro ids id c hground hids' hid
      obtain ⟨x, hx⟩ := Option.ne_none_iff_exists'.mp (hids.declared f hf)
      rw [hsidecar] at hground
      exact hids'.noted hids hf (hid x hx ▸ hx) hground

/-- A load that ends well comes to grounded entries only. -/
theorem grounded_root {disaggregatedOnly : Bool} (hregistry : ctx.registry = .builtin)
    (hdocument : document = .map f) :
    KeepsIds (OnlyGrounded ctx.naming document) (fun _ => True) (root ctx disaggregatedOnly f) fun _ =>
      ∀ x, Reached ctx.naming document x → ∀ g, Dict.get? ctx.sidecar x = some g →
        Grounded ctx.naming ctx.sidecar g := by
  have hfields : document.entries?.getD [] = f := by rw [hdocument]; rfl
  refine keeps_root (fun _ _ => trivial) (fun htype => ?_) fun htype sidecar hget => ?_
  · have hroot : IsRecord ctx.naming document f := ⟨f, .refl, .inl ⟨htype, hdocument⟩⟩
    refine (grounded_record hids hsupplied hsidecar hregistry _ hroot).mono ?_
    rintro _ hground x ⟨y, hyx, hy⟩ g hg
    rw [hfields, if_pos htype] at hy
    rw [← hsidecar] at hyx
    rcases Relation.reflTransGen_iff_eq_or_transGen.mp hyx with rfl | hyx
    · exact hground.below (hy.stepsTo hg).to_reflTransGen
    · obtain ⟨k, hk, hkg⟩ := stepsTo_of_refers hyx hg
      exact hground.below ((hy.stepsTo hk).trans hkg).to_reflTransGen
  · refine (keeps_entries fun x _ => grounded_follow hids hsupplied hsidecar fun g hg =>
      grounded_record hids hsupplied hsidecar hregistry ctx.maxDepth
        (isRecord_entry (hsidecar ▸ hg))).mono ?_
    rintro _ hground x ⟨y, hyx, hy⟩ g hg
    rw [hfields, if_neg (by simp [htype])] at hy
    obtain ⟨other, hother, hkey⟩ := hy
    obtain rfl := Option.some.inj (hget.symm.trans hother)
    rw [← hsidecar] at hyx
    rcases Relation.reflTransGen_iff_eq_or_transGen.mp hyx with rfl | hyx
    · exact hground _ hkey g hg
    · obtain ⟨k, hk, hkg⟩ := stepsTo_of_refers hyx hg
      exact (hground y hkey k hk).below hkg.to_reflTransGen

end
end Load

/-- Without supplied components, a load of builtin kinds reports a cycle only at an entry that leads
back to itself by references; and if the ids of a document tell its records apart, it does not load
when an entry that it comes to leads back to itself. -/
theorem load_cycles {options : LoadOptions} (hsupplied : options.supplied = []) (document : Tree)
    (supply : Supply) :
    (∀ x, load .builtin options document supply = .error (.circularReference x) →
      TransGen (Load.Refers options.naming (Load.definedIn options.naming document.strip)) x x) ∧
    (Load.Identified options.naming document.strip →
      ∀ x, Load.Reached options.naming document.strip x →
        TransGen (Load.Refers options.naming (Load.definedIn options.naming document.strip)) x x →
        ∀ loaded, load .builtin options document supply ≠ .ok loaded) := by
  constructor
  · intro x hload
    have hends := Load.load_ends (Q := True)
      (F := Load.TrueCycle options.naming (Load.definedIn options.naming document.strip)) hload
      Load.trueCycle_of_local
      (fun e he y hy => absurd (hy ▸ he) Scan.ofDocument_not_circular)
      (fun fields release scan _ hscan => by
        rw [← Load.definedIn_of_ofDocument hscan]
        refine Ends.mono (Ends.strengthen (Load.trueCycle_root rfl hsupplied) ?_)
          fun _ _ _ => trivial
        rintro s hs y hy
        rw [hs] at hy
        cases hy)
    exact hends x rfl
  · intro hids x hreached hcycle loaded hload
    have hends := Load.load_ends (F := fun _ => True)
      (Q := ∀ x, Load.Reached options.naming document.strip x → ∀ g,
        Dict.get? (Load.definedIn options.naming document.strip) x = some g →
        Load.Grounded options.naming (Load.definedIn options.naming document.strip) g)
      hload (fun _ _ => trivial) (fun _ _ => trivial)
      (fun fields release scan hstrip hscan => by
        have hdefined := Load.definedIn_of_ofDocument hscan
        rw [← hdefined]
        refine Ends.mono (Ends.strengthen
          (Load.grounded_root hids hsupplied hdefined rfl hstrip) ?_) fun _ _ h => h.1
        rintro s hs y c hy
        rw [hs] at hy
        cases hy)
    obtain ⟨f, hf, -⟩ := Relation.TransGen.head'_iff.mp hcycle |>.choose_spec.1
    exact (hends x hreached f hf).not_refers hf hcycle

/-! A swarm over two entries, of which the second comes back to the first through a record nested in
it. -/
namespace Sample

def swarmRecord (id : String) (first : Tree) : Dict Tree :=
  [("component_type", .string "Swarm"), ("id", .string id), ("name", .string "Swarm"),
    ("first_agent", first)]

def referenceTo (id : String) : Tree := .map [("$component_ref", .string id)]

def loopEntries : Dict (Dict Tree) :=
  [("a", swarmRecord "a" (referenceTo "b")),
    ("b", swarmRecord "b" (.map (swarmRecord "c" (referenceTo "a"))))]

def loopRoot : Dict Tree :=
  swarmRecord "r" (referenceTo "a") ++
    [("$referenced_components", .map (loopEntries.map fun entry => (entry.1, .map entry.2)))]

theorem definedIn_loopRoot : Load.definedIn .canonical (.map loopRoot) = loopEntries := by
  with_unfolding_all rfl

/-- Every record of the loop. -/
def loopRecords : List (Dict Tree) :=
  loopRoot :: swarmRecord "c" (referenceTo "a") :: Dict.values loopEntries

theorem mem_loopRecords {f : Dict Tree} (h : Load.IsRecord .canonical (.map loopRoot) f) :
    f ∈ loopRecords := by
  obtain ⟨top, hnested, htop⟩ := h
  have hstart : top ∈ loopRecords := by
    rcases htop with ⟨-, hroot⟩ | ⟨x, hx⟩
    · rw [← Tree.map.inj hroot]
      exact List.mem_cons_self
    · rw [definedIn_loopRoot] at hx
      exact List.mem_cons_of_mem _ (List.mem_cons_of_mem _
        (List.mem_map.mpr ⟨_, Dict.mem_of_get? hx, rfl⟩))
  induction hnested with
  | refl => exact hstart
  | @tail g k _ hgk ih =>
    -- only the record of b has a record nested in it
    obtain ⟨hplace, -, href⟩ := hgk
    have hplaces : ∀ f ∈ loopRecords, ∀ k ∈ Load.places .canonical f,
        Dict.get? k "$component_ref" = none → k = swarmRecord "c" (referenceTo "a") := by
      intro f hf
      simp only [loopRecords, loopEntries, Dict.values, List.map_cons, List.map_nil, List.mem_cons,
        List.not_mem_nil, or_false] at hf
      rcases hf with rfl | rfl | rfl | rfl
      all_goals
        rintro k hk hnone
        obtain rfl := List.mem_singleton.mp hk
        first | rfl | cases hnone
    rw [hplaces g ih k hplace href]
    exact List.mem_cons_of_mem _ List.mem_cons_self

theorem identified_loop : Load.Identified .canonical (.map loopRoot) where
  declared f hf := by
    have hall : ∀ f ∈ loopRecords, Load.declaredId? f ≠ none := by
      decide
    exact hall f (mem_loopRecords hf)
  apart f g hf hg h := by
    have hnodup : (loopRecords.map Load.declaredId?).Nodup := by decide
    exact List.inj_on_of_nodup_map hnodup (mem_loopRecords hf) (mem_loopRecords hg) h
  keyed x f hf := by
    rw [definedIn_loopRoot] at hf
    have hall : ∀ entry ∈ loopEntries, Load.declaredId? entry.2 = some entry.1 := by decide
    exact hall (x, f) (Dict.mem_of_get? hf)

theorem reached_loop : Load.Reached .canonical (.map loopRoot) "a" := by
  have hmentions : Load.Mentions .canonical loopRoot "a" :=
    ⟨loopRoot, .refl, List.mem_cons_self⟩
  exact ⟨"a", .refl, hmentions⟩

end Sample

theorem load_cycles_loop :
    TransGen (Load.Refers .canonical Sample.loopEntries) "a" "a" ∧
      ∀ loaded, load .builtin .default (.map Sample.loopRoot) ⟨0, 0⟩ ≠ .ok loaded := by
  have hfails : load .builtin .default (.map Sample.loopRoot) ⟨0, 0⟩ =
      .error (.circularReference "a") := error_of_map (f := fun _ => ()) (by decide +kernel)
  have hstrip : (Tree.map Sample.loopRoot).strip = .map Sample.loopRoot := rfl
  have hsupplied : LoadOptions.default.supplied = [] := rfl
  have hcycles := load_cycles hsupplied (.map Sample.loopRoot) ⟨0, 0⟩
  have hloop := hcycles.1 "a" hfails
  rw [hstrip] at hcycles hloop
  refine ⟨?_, hcycles.2 Sample.identified_loop "a" Sample.reached_loop hloop⟩
  rw [← Sample.definedIn_loopRoot]
  exact hloop

end AgentGraph
