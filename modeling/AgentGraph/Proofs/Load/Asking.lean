import AgentGraph.Plugin.Builtin
import AgentGraph.Proofs.Catalog
import AgentGraph.Proofs.Load.Shapes
import AgentGraph.Proofs.Run
/-!
# What a reading asks for

A plugin that reads a record asks for the components of some values, one after the other, and in
between it reads data of the record and checks what it was given. So a reading that ends well was given
an answer to each of its questions, in a fixed order, and one that fails does so for the record itself
or as one of the questions fails. The same answers lead to the same result, whoever gives them; and if
an answer fails after others that would lead to a result, the reading fails as the answer does.
-/
namespace AgentGraph
open List (Forall₂)

/-- A failure that has nothing to do with references and the sidecar. -/
def LoadError.IsLocal : LoadError → Prop
  | .malformedReference _ | .malformedSidecar _ | .duplicateEntry _ | .missingReferences _
  | .circularReference _ => False
  | _ => True

namespace Load

/-- A computation that never fails for a reference or the sidecar. -/
def FailsLocally {α : Type} (x : Except LoadError α) : Prop := ∀ e, x = .error e → e.IsLocal

namespace FailsLocally
variable {α β : Type} {x : Except LoadError α} {f : α → Except LoadError β}

theorem ok (a : α) : FailsLocally (.ok a : Except LoadError α) := fun _ h => nomatch h

theorem error {e : LoadError} (h : e.IsLocal) : FailsLocally (.error e : Except LoadError α) := by
  rintro _ ⟨⟩
  exact h

theorem bind (h : FailsLocally x) (k : ∀ a, FailsLocally (f a)) : FailsLocally (x >>= f) := by
  cases x with
  | error e =>
    rintro _ ⟨⟩
    exact h e rfl
  | ok a => exact k a

theorem property (x : Except PropertyError α) : FailsLocally (x.mapError .property) := by
  cases x with
  | error e => exact error trivial
  | ok a => exact ok a

end FailsLocally
end Load

namespace Record
open Load
variable {r : Record} {field : String}

theorem optionalText_local : FailsLocally (r.optionalText field) := by
  unfold optionalText
  split
  · exact .ok _
  · exact .ok _
  · exact .error trivial

theorem requiredText_local : FailsLocally (r.requiredText field) := by
  refine .bind optionalText_local fun text => ?_
  split
  · exact .ok _
  · exact .error trivial

theorem optionalBool_local : FailsLocally (r.optionalBool field) := by
  unfold optionalBool
  split
  · exact .ok _
  · exact .ok _
  · exact .error trivial

theorem mapping?_local : FailsLocally (r.mapping? field) := by
  unfold mapping?
  split
  · exact .ok _
  · exact .ok _
  · exact .error trivial

theorem mapping_local : FailsLocally (r.mapping field) :=
  .bind mapping?_local fun _ => .ok _

theorem texts_local (entries : Dict Tree) : FailsLocally (r.texts field entries) := by
  induction entries with
  | nil => exact .ok _
  | cons pair rest ih =>
    unfold texts
    split
    · exact .bind ih fun _ => .ok _
    · exact .error trivial

theorem textMapping_local : FailsLocally (r.textMapping field) :=
  .bind mapping_local fun _ => texts_local _

theorem properties_local : FailsLocally (r.properties field) := by
  unfold properties
  split
  · exact .ok _
  · exact .property _
  · exact .error trivial

theorem slots_local : FailsLocally r.slots :=
  .bind properties_local fun _ => .bind properties_local fun _ => .property _

end Record

namespace Reader

/-- Asks for the components of the values of some fields, one field after the other. -/
def askFor (reader : Reader) (r : Record) :
    List (String × List Tree) → LoadM (List (List Component))
  | [] => return []
  | (field, values) :: rest => do
    let found ← reader.componentsOf r field values
    return found :: (← reader.askFor r rest)

variable {α β : Type} {reader : Reader} {r : Record} {field : String} {value : Tree}
  {values : List Tree} {questions rest : List (String × List Tree)}
  {later : List (List Component)} {cs : List Component} {s t u : LoadState} {e : LoadError}

theorem componentsOf_cons_inv (h : reader.componentsOf r field (value :: values) s = .ok (cs, t)) :
    ∃ c u ds, reader.componentOf r field value s = .ok (c, u) ∧
      reader.componentsOf r field values u = .ok (ds, t) ∧ cs = c :: ds := by
  obtain ⟨c, u, hc, h⟩ := run_bind_ok h
  obtain ⟨ds, v, hds, h⟩ := run_bind_ok h
  obtain ⟨rfl, rfl⟩ := run_pure_ok h
  exact ⟨c, u, ds, hc, hds, rfl⟩

theorem componentsOf_singleton_ok {c : Component}
    (h : reader.componentsOf r field [value] s = .ok ([c], t)) :
    reader.componentOf r field value s = .ok (c, t) := by
  obtain ⟨d, u, ds, hd, hds, heq⟩ := componentsOf_cons_inv h
  obtain ⟨rfl, rfl⟩ := List.cons.inj heq
  obtain ⟨-, rfl⟩ := run_pure_ok hds
  exact hd

theorem componentsOf_append (values others : List Tree) :
    reader.componentsOf r field (values ++ others) = do
      let cs ← reader.componentsOf r field values
      let ds ← reader.componentsOf r field others
      return cs ++ ds := by
  induction values with
  | nil => simp [componentsOf]
  | cons value rest ih => simp [componentsOf, ih]

theorem askFor_cons_inv
    (h : reader.askFor r ((field, values) :: rest) s = .ok (cs :: later, t)) :
    ∃ u, reader.componentsOf r field values s = .ok (cs, u) ∧
      reader.askFor r rest u = .ok (later, t) := by
  obtain ⟨found, u, hfound, h⟩ := run_bind_ok h
  obtain ⟨others, v, hothers, h⟩ := run_bind_ok h
  cases h
  exact ⟨u, hfound, hothers⟩

/-- A computation that asks for the components of some values of a field, in order. If it ends well,
the answers and the result fit together. If it fails, it does so for the record itself, or since a
question fails. -/
structure AsksAt (reader : Reader) (r : Record) (field : String) (values : List Tree) (m : LoadM α)
    (P : List Component → α → Prop) : Prop where
  ok : ∀ s a t, m s = .ok (a, t) →
    ∃ cs, reader.componentsOf r field values s = .ok (cs, t) ∧ P cs a
  error : ∀ s e, m s = .error e → e.IsLocal ∨ reader.componentsOf r field values s = .error e

namespace AsksAt
variable {others : List Tree} {m : LoadM α} {f : α → LoadM β} {P : List Component → α → Prop}
  {Q : List Component → β → Prop}

theorem pure {a : α} (h : P [] a) : reader.AsksAt r field [] (Pure.pure a) P where
  ok s b t hrun := by
    obtain ⟨rfl, rfl⟩ := run_pure_ok hrun
    exact ⟨[], rfl, h⟩
  error _ _ hrun := nomatch hrun

theorem throw (he : e.IsLocal) :
    reader.AsksAt r field values (MonadExcept.throw e : LoadM α) P where
  ok _ _ _ hrun := (run_throw_ok hrun).elim
  error s e' hrun := by
    cases hrun
    exact .inl he

theorem bind (h : reader.AsksAt r field values m P)
    (k : ∀ cs a, P cs a → reader.AsksAt r field others (f a) fun ds => Q (cs ++ ds)) :
    reader.AsksAt r field (values ++ others) (m >>= f) Q where
  ok s b t hrun := by
    obtain ⟨a, u, hm, hrun⟩ := run_bind_ok hrun
    obtain ⟨cs, hcs, ha⟩ := h.ok s a u hm
    obtain ⟨ds, hds, hb⟩ := (k cs a ha).ok u b t hrun
    refine ⟨cs ++ ds, ?_, hb⟩
    rw [componentsOf_append, run_bind_of_ok hcs, run_bind_of_ok hds]
    rfl
  error s e hrun := by
    rw [componentsOf_append]
    rcases run_bind_error hrun with hm | ⟨a, u, hm, hrun⟩
    · exact (h.error s e hm).imp_right run_bind_of_error
    · obtain ⟨cs, hcs, ha⟩ := h.ok s a u hm
      rw [run_bind_of_ok hcs]
      exact ((k cs a ha).error u e hrun).imp_right run_bind_of_error

theorem map {g : α → β} (h : reader.AsksAt r field values m P) (k : ∀ cs a, P cs a → Q cs (g a)) :
    reader.AsksAt r field values (m >>= fun a => Pure.pure (g a)) Q := by
  rw [← List.append_nil values]
  refine h.bind fun cs a ha => pure ?_
  rw [List.append_nil]
  exact k cs a ha

theorem mono {Q : List Component → α → Prop} (h : reader.AsksAt r field values m P)
    (k : ∀ cs a, P cs a → Q cs a) : reader.AsksAt r field values m Q where
  ok s a t hrun := by
    obtain ⟨cs, hcs, ha⟩ := h.ok s a t hrun
    exact ⟨cs, hcs, k cs a ha⟩
  error := h.error

theorem componentOf :
    reader.AsksAt r field [value] (reader.componentOf r field value) fun cs c => cs = [c] where
  ok s c t h := ⟨[c], by rw [Reader.componentsOf, run_bind_of_ok h]; rfl, rfl⟩
  error s e h := .inr (by rw [Reader.componentsOf, run_bind_of_error h])

theorem componentsOf (values : List Tree) :
    reader.AsksAt r field values (reader.componentsOf r field values) (· = ·) where
  ok _ cs _ h := ⟨cs, h, rfl⟩
  error _ _ h := .inr h

theorem pairsOf (items : List Tree) :
    reader.AsksAt r field (Builtin.pairItems items) (reader.pairsOf r field items) fun cs ps =>
      Builtin.Shape.pairs.Fits (.list items) ∧ cs = Kind.heldPairs ps := by
  induction items with
  | nil => exact pure ⟨⟨[], rfl⟩, rfl⟩
  | cons value rest ih =>
    unfold Reader.pairsOf
    split
    · refine componentOf.bind ?_
      rintro _ a rfl
      refine componentOf.bind ?_
      rintro _ b rfl
      refine ih.map ?_
      rintro _ ps ⟨hfits, rfl⟩
      exact ⟨Builtin.Shape.fits_pair.mpr hfits, rfl⟩
    · exact throw trivial

theorem component (hshape : Builtin.shapeOf field = .one) :
    reader.AsksAt r field (r.valuesAt field) (reader.component r field) fun cs c => cs = [c] := by
  unfold Reader.component
  cases hvalue : r.get? field with
  | none => exact throw trivial
  | some value =>
    rw [Record.valuesAt_some hvalue, hshape]
    exact componentOf

theorem componentList (hshape : Builtin.shapeOf field = .list) :
    reader.AsksAt r field (r.valuesAt field) (reader.componentList r field) fun cs found =>
      r.FitsAt field ∧ cs = found := by
  unfold Reader.componentList
  cases hvalue : r.get? field with
  | none =>
    rw [Record.valuesAt_none hvalue]
    exact pure ⟨Record.fitsAt_none hvalue, rfl⟩
  | some value =>
    rw [Record.valuesAt_some hvalue, Record.fitsAt_some hvalue, hshape]
    cases value with
    | list items => exact (componentsOf items).mono fun cs found heq => ⟨⟨items, rfl⟩, heq⟩
    | _ => exact throw trivial

theorem componentPairs (hshape : Builtin.shapeOf field = .pairs) :
    reader.AsksAt r field (r.valuesAt field) (reader.componentPairs r field) fun cs ps =>
      r.FitsAt field ∧ cs = Kind.heldPairs ps := by
  unfold Reader.componentPairs
  cases hvalue : r.get? field with
  | none =>
    rw [Record.valuesAt_none hvalue]
    exact pure ⟨Record.fitsAt_none hvalue, rfl⟩
  | some value =>
    rw [Record.valuesAt_some hvalue, Record.fitsAt_some hvalue, hshape]
    cases value with
    | list items => exact pairsOf items
    | _ => exact throw trivial

end AsksAt

/-- Some values are answered in a given way as far as it goes, and then an answer fails. -/
def StopsAt (reader : Reader) (r : Record) (field : String) :
    List Tree → List Component → LoadState → LoadError → Prop
  | value :: values, c :: cs, s, e =>
    reader.componentOf r field value s = .error e ∨
      ∃ t, reader.componentOf r field value s = .ok (c, t) ∧ reader.StopsAt r field values cs t e
  | _, _, _, _ => False

theorem StopsAt.componentsOf (h : reader.StopsAt r field values cs s e) :
    reader.componentsOf r field values s = .error e := by
  induction values generalizing cs s with
  | nil => exact h.elim
  | cons value rest ih =>
    cases cs with
    | nil => exact h.elim
    | cons c cs =>
      rw [Reader.componentsOf]
      rcases h with hvalue | ⟨t, hc, hrest⟩
      · exact run_bind_of_error hvalue
      · rw [run_bind_of_ok hc]
        exact run_bind_of_error (ih hrest)

/-- A computation that has a given result whenever the values of a field are answered in a given
way, and that fails as an answer fails if they are answered like that up to there. -/
structure FollowsAt (reader : Reader) (r : Record) (field : String) (values : List Tree)
    (cs : List Component) (m : LoadM α) (a : α) : Prop where
  ok : ∀ s t, reader.componentsOf r field values s = .ok (cs, t) → m s = .ok (a, t)
  error : ∀ s e, reader.StopsAt r field values cs s e → m s = .error e

namespace FollowsAt

theorem componentOf {c : Component} :
    reader.FollowsAt r field [value] [c] (reader.componentOf r field value) c where
  ok _ _ h := componentsOf_singleton_ok h
  error _ _ h := h.elim id fun ⟨_, _, hnone⟩ => hnone.elim

theorem componentsOf (values : List Tree) (cs : List Component) :
    reader.FollowsAt r field values cs (reader.componentsOf r field values) cs where
  ok _ _ h := h
  error _ _ h := h.componentsOf

theorem pairsOf {items : List Tree} (hfits : Builtin.Shape.pairs.Fits (.list items))
    (ps : List (Component × Component)) :
    reader.FollowsAt r field (Builtin.pairItems items) (Kind.heldPairs ps)
      (reader.pairsOf r field items) ps := by
  induction items generalizing ps with
  | nil =>
    refine ⟨fun s t h => ?_, fun s e h => h.elim⟩
    obtain ⟨hps, rfl⟩ := run_pure_ok h
    cases ps with
    | nil => rfl
    | cons p rest => cases hps
  | cons value rest ih =>
    obtain ⟨first, second, rfl⟩ := Builtin.Shape.fits_pairs_head hfits
    have hrest := Builtin.Shape.fits_pair.mp hfits
    constructor
    · intro s t h
      obtain ⟨a, u, ds, ha, hds, hheld⟩ := componentsOf_cons_inv h
      obtain ⟨b, v, es, hb, hes, rfl⟩ := componentsOf_cons_inv hds
      cases ps with
      | nil => cases hheld
      | cons p ps =>
        cases hheld
        have hpairs := (ih hrest ps).ok v t hes
        rw [Reader.pairsOf, run_bind_of_ok ha, run_bind_of_ok hb, run_bind_of_ok hpairs]
        rfl
    · intro s e h
      cases ps with
      | nil => exact h.elim
      | cons p ps =>
        rw [Reader.pairsOf]
        rcases h with hfirst | ⟨u, ha, hsecond | ⟨v, hb, hlater⟩⟩
        · exact run_bind_of_error hfirst
        · rw [run_bind_of_ok ha]
          exact run_bind_of_error hsecond
        · rw [run_bind_of_ok ha, run_bind_of_ok hb]
          exact run_bind_of_error ((ih hrest ps).error v e hlater)

theorem component (hshape : Builtin.shapeOf field = .one) (c : Component) :
    reader.FollowsAt r field (r.valuesAt field) [c] (reader.component r field) c := by
  unfold Reader.component
  cases hvalue : r.get? field with
  | none =>
    rw [Record.valuesAt_none hvalue]
    exact ⟨fun _ _ h => (nomatch h), fun _ _ h => h.elim⟩
  | some value =>
    rw [Record.valuesAt_some hvalue, hshape]
    exact componentOf

theorem componentList (hshape : Builtin.shapeOf field = .list) (hfits : r.FitsAt field)
    (cs : List Component) :
    reader.FollowsAt r field (r.valuesAt field) cs (reader.componentList r field) cs := by
  unfold Reader.componentList
  cases hvalue : r.get? field with
  | none =>
    rw [Record.valuesAt_none hvalue]
    exact componentsOf [] cs
  | some value =>
    rw [Record.fitsAt_some hvalue, hshape] at hfits
    obtain ⟨items, rfl⟩ := hfits
    rw [Record.valuesAt_some hvalue, hshape]
    exact componentsOf items cs

theorem componentPairs (hshape : Builtin.shapeOf field = .pairs) (hfits : r.FitsAt field)
    (ps : List (Component × Component)) :
    reader.FollowsAt r field (r.valuesAt field) (Kind.heldPairs ps)
      (reader.componentPairs r field) ps := by
  unfold Reader.componentPairs
  cases hvalue : r.get? field with
  | none =>
    rw [Record.valuesAt_none hvalue]
    have hnone : Builtin.Shape.pairs.Fits (.list []) := ⟨[], rfl⟩
    exact pairsOf hnone ps
  | some value =>
    rw [Record.fitsAt_some hvalue, hshape] at hfits
    obtain ⟨pairs, rfl⟩ := id hfits
    rw [Record.valuesAt_some hvalue, hshape]
    exact pairsOf hfits ps

end FollowsAt

/-- A computation that asks some questions, one field after the other. If it ends well, the answers
and the result fit together. If it fails, it does so for the record itself, or since a question
fails. -/
structure Asks (reader : Reader) (r : Record) (questions : List (String × List Tree)) (m : LoadM α)
    (P : List (List Component) → α → Prop) : Prop where
  ok : ∀ s a t, m s = .ok (a, t) →
    ∃ answers, reader.askFor r questions s = .ok (answers, t) ∧ P answers a
  error : ∀ s e, m s = .error e → e.IsLocal ∨ reader.askFor r questions s = .error e

namespace Asks
variable {m : LoadM α} {f : α → LoadM β} {P : List (List Component) → α → Prop}
  {Q : List (List Component) → β → Prop}

theorem pure {a : α} (h : P [] a) : reader.Asks r [] (Pure.pure a) P where
  ok s b t hrun := by
    obtain ⟨rfl, rfl⟩ := run_pure_ok hrun
    exact ⟨[], rfl, h⟩
  error _ _ hrun := nomatch hrun

theorem throw (he : e.IsLocal) : reader.Asks r questions (MonadExcept.throw e : LoadM α) P where
  ok _ _ _ hrun := (run_throw_ok hrun).elim
  error s e' hrun := by
    cases hrun
    exact .inl he

theorem lift {x : Except LoadError α} (hx : Load.FailsLocally x)
    (h : ∀ a, x = .ok a → reader.Asks r questions (f a) Q) :
    reader.Asks r questions (liftM x >>= f) Q := by
  cases x with
  | error e => exact throw (hx e rfl)
  | ok a => exact h a rfl

theorem lifted {x : Except LoadError α} (hx : Load.FailsLocally x) (h : ∀ a, x = .ok a → P [] a) :
    reader.Asks r [] (liftM x) P := by
  cases x with
  | error e => exact throw (hx e rfl)
  | ok a => exact pure (h a rfl)

theorem checked {x : Except ComponentError α} (h : ∀ a, x = .ok a → P [] a) :
    reader.Asks r [] (Builtin.checked x) P := by
  cases x with
  | error e => exact throw trivial
  | ok a => exact pure (h a rfl)

theorem checked_bind {x : Except ComponentError α}
    (h : ∀ a, x = .ok a → reader.Asks r questions (f a) Q) :
    reader.Asks r questions (Builtin.checked x >>= f) Q := by
  cases x with
  | error e => exact throw trivial
  | ok a => exact h a rfl

theorem mono {Q : List (List Component) → α → Prop} (h : reader.Asks r questions m P)
    (k : ∀ answers a, P answers a → Q answers a) : reader.Asks r questions m Q where
  ok s a t hrun := by
    obtain ⟨answers, hasked, ha⟩ := h.ok s a t hrun
    exact ⟨answers, hasked, k answers a ha⟩
  error := h.error

/-- The values of one field are asked for before the other fields. -/
theorem next {R : List Component → α → Prop} (h : reader.AsksAt r field values m R)
    (k : ∀ cs a, R cs a → reader.Asks r rest (f a) fun later => Q (cs :: later)) :
    reader.Asks r ((field, values) :: rest) (m >>= f) Q where
  ok s b t hrun := by
    obtain ⟨a, u, hm, hrun⟩ := run_bind_ok hrun
    obtain ⟨cs, hcs, ha⟩ := h.ok s a u hm
    obtain ⟨later, hlater, hb⟩ := (k cs a ha).ok u b t hrun
    refine ⟨cs :: later, ?_, hb⟩
    rw [askFor, run_bind_of_ok hcs, run_bind_of_ok hlater]
    rfl
  error s e hrun := by
    rw [askFor]
    rcases run_bind_error hrun with hm | ⟨a, u, hm, hrun⟩
    · exact (h.error s e hm).imp_right run_bind_of_error
    · obtain ⟨cs, hcs, ha⟩ := h.ok s a u hm
      rw [run_bind_of_ok hcs]
      exact ((k cs a ha).error u e hrun).imp_right run_bind_of_error

theorem component {f : Component → LoadM β} (hshape : Builtin.shapeOf field = .one)
    (k : ∀ c, reader.Asks r rest (f c) fun later => Q ([c] :: later)) :
    reader.Asks r ((field, r.valuesAt field) :: rest) (reader.component r field >>= f) Q := by
  refine next (.component hshape) ?_
  rintro _ c rfl
  exact k c

theorem componentList {f : List Component → LoadM β} (hshape : Builtin.shapeOf field = .list)
    (k : ∀ cs, r.FitsAt field → reader.Asks r rest (f cs) fun later => Q (cs :: later)) :
    reader.Asks r ((field, r.valuesAt field) :: rest) (reader.componentList r field >>= f) Q := by
  refine next (.componentList hshape) ?_
  rintro _ cs ⟨hfits, rfl⟩
  exact k _ hfits

theorem componentPairs {f : List (Component × Component) → LoadM β}
    (hshape : Builtin.shapeOf field = .pairs)
    (k : ∀ ps, r.FitsAt field →
      reader.Asks r rest (f ps) fun later => Q (Kind.heldPairs ps :: later)) :
    reader.Asks r ((field, r.valuesAt field) :: rest) (reader.componentPairs r field >>= f) Q := by
  refine next (.componentPairs hshape) ?_
  rintro _ ps ⟨hfits, rfl⟩
  exact k ps hfits

end Asks

/-- Some questions are answered in a given way as far as it goes, and then an answer fails. -/
def Stops (reader : Reader) (r : Record) :
    List (String × List Tree) → List (List Component) → LoadState → LoadError → Prop
  | (field, values) :: rest, cs :: later, s, e =>
    reader.StopsAt r field values cs s e ∨
      ∃ t, reader.componentsOf r field values s = .ok (cs, t) ∧ reader.Stops r rest later t e
  | _, _, _, _ => False

/-- A computation that has a given result whenever some questions are answered in a given way, and
that fails as an answer fails if they are answered like that up to there. -/
structure Follows (reader : Reader) (r : Record) (questions : List (String × List Tree))
    (answers : List (List Component)) (m : LoadM α) (a : α) : Prop where
  ok : ∀ s t, reader.askFor r questions s = .ok (answers, t) → m s = .ok (a, t)
  error : ∀ s e, reader.Stops r questions answers s e → m s = .error e

namespace Follows
variable {answers : List (List Component)} {m : LoadM α} {f : α → LoadM β} {a : α} {b : β}

theorem pure (a : α) : reader.Follows r [] [] (Pure.pure a) a where
  ok s t h := by
    obtain ⟨-, rfl⟩ := run_pure_ok h
    rfl
  error _ _ h := h.elim

theorem lift {x : Except LoadError α} (hx : x = .ok a)
    (h : reader.Follows r questions answers (f a) b) :
    reader.Follows r questions answers (liftM x >>= f) b := by
  rw [hx]
  exact h

theorem lifted {x : Except LoadError α} (hx : x = .ok a) :
    reader.Follows r [] [] (liftM x) a := by
  rw [hx]
  exact pure a

theorem checked {x : Except ComponentError α} (hx : x = .ok a) :
    reader.Follows r [] [] (Builtin.checked x) a := by
  rw [hx]
  exact pure a

theorem checked_bind {x : Except ComponentError α} (hx : x = .ok a)
    (h : reader.Follows r questions answers (f a) b) :
    reader.Follows r questions answers (Builtin.checked x >>= f) b := by
  rw [hx]
  exact h

theorem next (h : reader.FollowsAt r field values cs m a)
    (k : reader.Follows r rest later (f a) b) :
    reader.Follows r ((field, values) :: rest) (cs :: later) (m >>= f) b where
  ok s t hrun := by
    obtain ⟨u, hcs, hlater⟩ := askFor_cons_inv hrun
    rw [run_bind_of_ok (h.ok s u hcs)]
    exact k.ok u t hlater
  error s e hstops := by
    rcases hstops with hcs | ⟨u, hcs, hlater⟩
    · exact run_bind_of_error (h.error s e hcs)
    · rw [run_bind_of_ok (h.ok s u hcs)]
      exact k.error u e hlater

theorem component {f : Component → LoadM β} {c : Component}
    (hshape : Builtin.shapeOf field = .one) (k : reader.Follows r rest later (f c) b) :
    reader.Follows r ((field, r.valuesAt field) :: rest) ([c] :: later)
      (reader.component r field >>= f) b := next (.component hshape c) k

theorem componentList {f : List Component → LoadM β} (hshape : Builtin.shapeOf field = .list)
    (hfits : r.FitsAt field) (k : reader.Follows r rest later (f cs) b) :
    reader.Follows r ((field, r.valuesAt field) :: rest) (cs :: later)
      (reader.componentList r field >>= f) b := next (.componentList hshape hfits cs) k

theorem componentPairs {f : List (Component × Component) → LoadM β}
    {ps : List (Component × Component)} (hshape : Builtin.shapeOf field = .pairs)
    (hfits : r.FitsAt field) (k : reader.Follows r rest later (f ps) b) :
    reader.Follows r ((field, r.valuesAt field) :: rest) (Kind.heldPairs ps :: later)
      (reader.componentPairs r field >>= f) b := next (.componentPairs hshape hfits ps) k

end Follows

/-- What holds of the answers to single questions holds of all answers. -/
theorem preserves_askFor {I : LoadState → Prop} {F : LoadError → Prop}
    {S : Tree → Component → Prop}
    (h : ∀ q ∈ questions, ∀ value ∈ q.2, Preserves I F (reader.componentOf r q.1 value) (S value)) :
    Preserves I F (reader.askFor r questions)
      (Forall₂ (fun q cs => Forall₂ S q.2 cs) questions) := by
  have hvalues {field : String} {values : List Tree}
      (h : ∀ value ∈ values, Preserves I F (reader.componentOf r field value) (S value)) :
      Preserves I F (reader.componentsOf r field values) (Forall₂ S values) := by
    induction values with
    | nil => exact .pure .nil
    | cons value rest ih =>
      obtain ⟨hvalue, hrest⟩ := List.forall_mem_cons.mp h
      exact hvalue.bind fun c hc => (ih hrest).bind fun cs hcs => .pure (.cons hc hcs)
  induction questions with
  | nil => exact .pure .nil
  | cons q rest ih =>
    obtain ⟨hq, hrest⟩ := List.forall_mem_cons.mp h
    refine (hvalues hq).bind fun found hfound => (ih hrest).bind fun later hlater => .pure ?_
    exact .cons hfound hlater

/-- So it holds of the answers that a result is made of. -/
theorem Asks.preserves {I : LoadState → Prop} {F : LoadError → Prop} {S : Tree → Component → Prop}
    {m : LoadM α} {P : List (List Component) → α → Prop} (hm : reader.Asks r questions m P)
    (hlocal : ∀ e, e.IsLocal → F e)
    (h : ∀ q ∈ questions, ∀ value ∈ q.2, Preserves I F (reader.componentOf r q.1 value) (S value)) :
    Preserves I F m fun a =>
      ∃ answers, Forall₂ (fun q cs => Forall₂ S q.2 cs) questions answers ∧ P answers a := by
  intro s hs
  have hall := preserves_askFor h s hs
  cases hrun : m s with
  | error e =>
    rcases hm.error s e hrun with he | he
    · exact hlocal e he
    · rw [he] at hall
      exact hall
  | ok result =>
    obtain ⟨answers, hanswers, ha⟩ := hm.ok s result.1 result.2 hrun
    rw [hanswers] at hall
    exact ⟨⟨answers, hall.1, ha⟩, hall.2⟩

/-- The answers to all questions, in a row. -/
theorem forall₂_flatten {S : Tree → Component → Prop} {answers : List (List Component)}
    (h : Forall₂ (fun q cs => Forall₂ S q.2 cs) questions answers) :
    Forall₂ S (questions.flatMap (·.2)) answers.flatten := by
  rw [← List.flatMap_id]
  exact List.rel_flatMap h fun _ _ hq => hq

end Reader
end AgentGraph
