import LlvmSc.Generator
import LlvmSc.Lib.RangeFor

/-!
# A pass over a generator

The range-based `for` over a fresh generator. Its body sees what the coroutine yields; `begin` or the
last `operator++` finds the coroutine done, and throws the exception that ended it if there is one.
-/

namespace LlvmSc.Generator

variable {H α ε : Type} [DecidableEq H] {h : H} {frames : Frames H α ε} {u : Option ε}

/-- What the loop uses of the iterators. -/
def cursor : Cursor (Frames H α ε) (Error ε) (Iterator H) α where
  atEnd it := Comp.modifyGet fun frames => (it.isEnd frames, frames)
  deref it := Comp.ofEStateM it.deref
  incr it := Comp.ofEStateM do
    it.incr
    return it

/-- `for ( auto &x : g )`, with the values that the body sees. -/
def rangeFor (g : Generator H) : Comp (Frames H α ε) (List α × Error ε) (List α) := do
  let it ← (Comp.ofEStateM g.begin).tag []
  cursor.rangeFor it []

/-- The loop has seen the values of the body, and then it ends if the body returns and is left by the
exception that the body ends with otherwise. -/
def Ending (body : Body α ε) : Outcome (Frames H α ε) (List α × Error ε) (List α) → Prop
  | .done seen _ => seen = body.yields ∧ body.uncaught = none
  | .fault (seen, e) => seen = body.yields ∧ ∃ e', e = .exception e' ∧ body.uncaught = some e'
  | .timeout => False

/-! ## Resumptions -/

omit [DecidableEq H] in
theorem rethrowIfException_none (hexc : (frames h).exception = none) :
    rethrowIfException h frames = .ok () frames := by
  refine (EStateM.bind_ok rfl).trans ?_
  rw [hexc]
  rfl

omit [DecidableEq H] in
theorem rethrowIfException_some (hexc : (frames h).exception = some e) :
    rethrowIfException h frames = .error (.exception e) frames := by
  refine (EStateM.bind_ok rfl).trans ?_
  rw [hexc]
  rfl

theorem advance_yield (hc : frames h = ⟨⟨y :: ys, u⟩, false, v, exc⟩) :
    advance h frames = .ok () (Function.update frames h ⟨⟨ys, u⟩, false, some y, exc⟩) := by
  rw [advance_eq (by rw [hc]), hc]
  rfl

theorem advance_return (hc : frames h = ⟨⟨[], none⟩, false, v, exc⟩) :
    advance h frames = .ok () (Function.update frames h ⟨⟨[], none⟩, true, v, none⟩) := by
  rw [advance_eq (by rw [hc]), hc]
  refine rethrowIfException_none ?_
  rw [Function.update_self]
  rfl

theorem advance_throw (hc : frames h = ⟨⟨[], some e⟩, false, v, exc⟩) :
    advance h frames =
      .error (.exception e) (Function.update frames h ⟨⟨[], some e⟩, true, v, some e⟩) := by
  rw [advance_eq (by rw [hc]), hc]
  refine rethrowIfException_some ?_
  rw [Function.update_self]
  rfl

/-! ## Turns of the loop -/

theorem atEnd_yields (hc : (frames h).done = b) :
    (cursor.atEnd (⟨some h⟩ : Iterator H)).Yields frames (.done b frames) := by
  rw [← hc]
  exact Comp.yields_modifyGet _ frames

theorem atEnd_update (c : Coroutine α ε) :
    (cursor.atEnd (⟨some h⟩ : Iterator H)).Yields (Function.update frames h c)
      (.done c.done (Function.update frames h c)) :=
  atEnd_yields (congrArg Coroutine.done (Function.update_self ..))

theorem deref_yields (hc : (frames h).value = some x) :
    (cursor.deref (⟨some h⟩ : Iterator H)).Yields frames (.done x frames) := by
  refine Comp.yields_ofEStateM ((EStateM.bind_ok rfl).trans ?_)
  simp only [hc]
  rfl

theorem incr_yields (hadvance : advance h frames = .ok () frames') :
    (cursor.incr (⟨some h⟩ : Iterator H)).Yields frames (.done ⟨some h⟩ frames') :=
  Comp.yields_ofEStateM (EStateM.bind_ok hadvance)

theorem incr_yields_fault (hadvance : advance h frames = .error e frames') :
    (cursor.incr (⟨some h⟩ : Iterator H)).Yields frames (.fault e) :=
  Comp.yields_ofEStateM_fault (EStateM.bind_error hadvance)

theorem begin_yields (hadvance : advance h frames = .ok () frames') :
    ((Comp.ofEStateM (begin ⟨some h⟩)).tag ([] : List α)).Yields frames
      (.done ⟨some h⟩ frames') := by
  have hbegin : begin (⟨some h⟩ : Generator H) frames = .ok ⟨some h⟩ frames' :=
    EStateM.bind_ok hadvance
  exact (Comp.yields_ofEStateM hbegin).tag []

theorem begin_yields_fault (hadvance : advance h frames = .error e frames') :
    ((Comp.ofEStateM (begin ⟨some h⟩)).tag ([] : List α)).Yields frames (.fault ([], e)) := by
  have hbegin : begin (⟨some h⟩ : Generator H) frames = .error e frames' :=
    EStateM.bind_error hadvance
  exact (Comp.yields_ofEStateM_fault hbegin).tag_fault []

/-- From where the coroutine is suspended behind a yield, by induction on the yields that are left. -/
theorem rangeFor_suspended (hc : frames h = ⟨⟨ys, u⟩, false, some x, exc⟩) (seen : List α) :
    ∃ o, (cursor.rangeFor (⟨some h⟩ : Iterator H) seen).Yields frames o ∧
      Ending ⟨seen ++ x :: ys, u⟩ o := by
  induction ys generalizing frames x seen with
  | nil =>
    have hend := atEnd_yields (congrArg Coroutine.done hc)
    have hx := deref_yields (congrArg Coroutine.value hc)
    cases u with
    | none =>
      have hincr := incr_yields (advance_return hc)
      exact ⟨_, Cursor.rangeFor_next hend hx hincr (Cursor.rangeFor_end (atEnd_update _)),
        rfl, rfl⟩
    | some e =>
      have hadvance := advance_throw hc
      exact ⟨_, Cursor.rangeFor_fault hend hx (incr_yields_fault hadvance), rfl, e, rfl, rfl⟩
  | cons y ys ih =>
    have hend := atEnd_yields (congrArg Coroutine.done hc)
    have hx := deref_yields (congrArg Coroutine.value hc)
    have hadvance := advance_yield hc
    have hc' : Function.update frames h ⟨⟨ys, u⟩, false, some y, exc⟩ h =
        ⟨⟨ys, u⟩, false, some y, exc⟩ := Function.update_self ..
    obtain ⟨o, ho, hending⟩ := ih hc' (seen ++ [x])
    rw [List.append_assoc, List.singleton_append] at hending
    exact ⟨o, Cursor.rangeFor_next hend hx (incr_yields hadvance) ho, hending⟩

/-- A loop over a fresh generator sees what its body yields, each value once, and ends as the body
does. -/
theorem rangeFor_ending (frames : Frames H α ε) (h : H) (body : Body α ε) :
    ∃ o, (rangeFor ⟨some h⟩).Yields (Function.update frames h (.create body)) o ∧
      Ending body o := by
  obtain ⟨ys, u⟩ := body
  have hc : Function.update frames h (.create ⟨ys, u⟩) h =
      (⟨⟨ys, u⟩, false, none, none⟩ : Coroutine α ε) := Function.update_self ..
  cases ys with
  | nil =>
    cases u with
    | none =>
      have hbegin := begin_yields (advance_return hc)
      exact ⟨_, hbegin.bind (Cursor.rangeFor_end (atEnd_update _)), rfl, rfl⟩
    | some e =>
      have hbegin := begin_yields_fault (advance_throw hc)
      exact ⟨_, hbegin.bind_fault, rfl, e, rfl, rfl⟩
  | cons y ys =>
    have hbegin := begin_yields (advance_yield hc)
    have hc' : Function.update (Function.update frames h (.create ⟨y :: ys, u⟩)) h
        ⟨⟨ys, u⟩, false, some y, none⟩ h = (⟨⟨ys, u⟩, false, some y, none⟩ : Coroutine α ε) :=
      Function.update_self ..
    obtain ⟨o, ho, hending⟩ := rangeFor_suspended hc' []
    exact ⟨o, hbegin.bind ho, hending⟩

end LlvmSc.Generator
