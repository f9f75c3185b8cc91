import LlvmSc.Lib.Run
import LlvmSc.Lib.EState
import Mathlib.Logic.Function.Basic
import Mathlib.Data.List.Count

/-!
# Generators

The `generator` of `generator.hpp` and its iterators. A coroutine is the values that it still yields
and what ends it; it is resumed by `begin` and by `operator++`. The comparison with `end()` says
whether the coroutine is done, but `begin` resumes it in any case: where iterators are used only
while they differ from `end()`, a coroutine is resumed once it is done exactly if some `begin` comes
after more resumptions than the coroutine has yields (`notResumedDone_iff`).
-/

namespace LlvmSc

/-- `generator`, with handles `H` of coroutines; `none` is the null handle. -/
structure Generator (H : Type) where
  coroutine : Option H

namespace Generator

/-- A body with values `α`, which ends with an uncaught exception or returns. -/
structure Body (α ε : Type) where
  yields : List α
  uncaught : Option ε

/-- A coroutine and its promise. -/
structure Coroutine (α ε : Type) where
  /-- What is left of the body. -/
  body : Body α ε
  done : Bool
  /-- `_value`; `none` before the first yield. -/
  value : Option α
  /-- `_exception` -/
  exception : Option ε

inductive Error (ε : Type) where
  | exception (e : ε)
  | resumedDone
  | nullHandle
  | uninitialized

variable {H α ε : Type} [DecidableEq H]

abbrev Frames (H α ε : Type) := H → Coroutine α ε

abbrev M (H α ε : Type) := EStateM (Error ε) (Frames H α ε)

namespace Coroutine

/-- The coroutine is suspended at its start. -/
def create (body : Body α ε) : Coroutine α ε := ⟨body, false, none, none⟩

/-- The coroutine where it is suspended next: behind `yield_value`, or at its end behind
`return_void` or `unhandled_exception`. -/
def next (c : Coroutine α ε) : Coroutine α ε :=
  match c.body.yields with
  | y :: yields => { c with body := { c.body with yields := yields }, value := some y }
  | [] => { c with done := true, exception := c.body.uncaught }

end Coroutine

/-- `coroutine_handle::resume` -/
def resume (h : H) : M H α ε Unit := do
  let frames ← get
  if (frames h).done then throw .resumedDone
  set (Function.update frames h (frames h).next)

def rethrowIfException (h : H) : M H α ε Unit := do
  match ((← get) h).exception with
  | some e => throw (.exception e)
  | none => return

/-- What `begin` and `operator++` share. -/
def advance (h : H) : M H α ε Unit := do
  resume h
  if ((← get) h).done then rethrowIfException h

structure Iterator (H : Type) where
  coroutine : Option H

namespace Iterator

/-- `it == end()` -/
def isEnd (it : Iterator H) (frames : Frames H α ε) : Bool :=
  match it.coroutine with
  | none => true
  | some h => (frames h).done

/-- `operator++` -/
def incr (it : Iterator H) : M H α ε Unit :=
  match it.coroutine with
  | none => throw .nullHandle
  | some h => advance h

/-- `operator*` -/
def deref (it : Iterator H) : M H α ε α := do
  match it.coroutine with
  | none => throw .nullHandle
  | some h =>
    match ((← get) h).value with
    | none => throw .uninitialized
    | some v => return v

end Iterator

def begin (g : Generator H) : M H α ε (Iterator H) := do
  if let some h := g.coroutine then advance h
  return ⟨g.coroutine⟩

/-! ## Sequences of operations -/

/-- An operation on a generator, or on the `k`-th iterator that it has given. -/
inductive Op where
  | begin
  | incr (k : Nat)
  | deref (k : Nat)
  deriving DecidableEq

def Op.resumes : Op → Bool
  | begin | incr _ => true
  | deref _ => false

structure State (H α ε : Type) where
  frames : Frames H α ε
  its : List (Iterator H)

/-- The iterators after an operation. -/
def Op.apply (g : Generator H) (its : List (Iterator H)) : Op → M H α ε (List (Iterator H))
  | begin => return its ++ [← g.begin]
  | incr k =>
    match its[k]? with
    | none => throw .nullHandle
    | some it => do
      it.incr
      return its
  | deref k =>
    match its[k]? with
    | none => throw .nullHandle
    | some it => do
      let _ ← it.deref
      return its

/-- An operation returns or throws an exception; every other error ends the sequence. -/
inductive Step (g : Generator H) : State H α ε → Op → State H α ε → Prop where
  | returned : op.apply g s.its s.frames = .ok its frames → Step g s op ⟨frames, its⟩
  | thrown : op.apply g s.its s.frames = .error (.exception e) frames →
      Step g s op ⟨frames, s.its⟩

/-- Iterators are used only while they differ from `end()`. -/
def Usable (s : State H α ε) : Op → Prop
  | .begin => True
  | .incr k | .deref k => ∃ it, s.its[k]? = some it ∧ it.isEnd s.frames = false

def NotResumedDone (g : Generator H) (s : State H α ε) (op : Op) : Prop :=
  ∀ frames, op.apply g s.its s.frames ≠ .error .resumedDone frames

/-- The generator of the coroutine `h` is made, among other coroutines. -/
def State.init (frames : Frames H α ε) (h : H) (body : Body α ε) : State H α ε :=
  ⟨Function.update frames h (.create body), []⟩

section
variable {s s' : State H α ε} {h : H} {frames : Frames H α ε} {op : Op} {n r : Nat}

/-! ## One resumption -/

theorem advance_done (hd : (frames h).done = true) :
    advance h frames = .error .resumedDone frames := by
  refine EStateM.bind_error ((EStateM.bind_ok rfl).trans ?_)
  rw [hd]
  rfl

omit [DecidableEq H] in
theorem rethrowIfException_cases : rethrowIfException h frames = .ok () frames ∨
    ∃ e, rethrowIfException h frames = .error (.exception e) frames := by
  cases hexc : (frames h).exception with
  | none =>
    refine .inl ((EStateM.bind_ok rfl).trans ?_)
    rw [hexc]
    rfl
  | some e =>
    refine .inr ⟨e, (EStateM.bind_ok rfl).trans ?_⟩
    rw [hexc]
    rfl

/-- The coroutine goes on, and its promise is asked for an exception if it is done then. -/
theorem advance_eq (hd : (frames h).done = false) :
    advance h frames = (if (frames h).next.done then rethrowIfException h else pure ())
      (Function.update frames h (frames h).next) := by
  have hresume : resume h frames = .ok () (Function.update frames h (frames h).next) := by
    refine (EStateM.bind_ok rfl).trans ?_
    rw [hd]
    rfl
  have hadvance : advance h frames = (if (Function.update frames h (frames h).next h).done then
      rethrowIfException h else pure ()) (Function.update frames h (frames h).next) :=
    (EStateM.bind_ok hresume).trans (EStateM.bind_ok rfl)
  rwa [Function.update_self] at hadvance

/-- The coroutine goes on, and its exception is thrown at its end. -/
theorem advance_cases (hd : (frames h).done = false) :
    advance h frames = .ok () (Function.update frames h (frames h).next) ∨
      ∃ e, advance h frames =
        .error (.exception e) (Function.update frames h (frames h).next) := by
  rw [advance_eq hd]
  split
  · exact rethrowIfException_cases
  · exact .inl rfl

/-- What holds of a coroutine with `n` yields after `r` resumptions. -/
structure Resumed (n r : Nat) (c : Coroutine α ε) : Prop where
  suspended : c.done = false → r + c.body.yields.length = n
  ended : c.done = true → n < r
  value : c.done = false → 0 < r → c.value.isSome

theorem Resumed.create (body : Body α ε) :
    Resumed body.yields.length 0 (Coroutine.create body) where
  suspended _ := Nat.zero_add _
  ended h := absurd h (by simp [Coroutine.create])
  value _ h := absurd h (Nat.lt_irrefl 0)

theorem Resumed.next {c : Coroutine α ε} (hc : Resumed n r c) (hd : c.done = false) :
    Resumed n (r + 1) c.next := by
  have hlen := hc.suspended hd
  cases hy : c.body.yields with
  | nil =>
    have hnext : c.next = { c with done := true, exception := c.body.uncaught } := by
      rw [Coroutine.next, hy]
    rw [hy, List.length_nil] at hlen
    rw [hnext]
    exact ⟨fun h => absurd h (by simp), fun _ => by omega, fun h => absurd h (by simp)⟩
  | cons y yields =>
    have hnext : c.next =
        { c with body := { c.body with yields := yields }, value := some y } := by
      rw [Coroutine.next, hy]
    rw [hy, List.length_cons] at hlen
    rw [hnext]
    refine ⟨fun _ => ?_, fun h => absurd (h.symm.trans hd) (by simp), fun _ _ => rfl⟩
    change r + 1 + yields.length = n
    omega

/-! ## Runs -/

/-- All iterators belong to the coroutine `h`, and there is one only after a resumption. -/
structure Inv (h : H) (n r : Nat) (s : State H α ε) : Prop where
  frame : Resumed n r (s.frames h)
  its : ∀ it ∈ s.its, it.coroutine = some h ∧ 0 < r

theorem Inv.init (frames : Frames H α ε) (h : H) (body : Body α ε) :
    Inv h body.yields.length 0 (.init frames h body) where
  frame := by simpa [State.init] using Resumed.create body
  its it hit := absurd hit List.not_mem_nil

theorem Inv.next (hs : Inv h n r s) (hd : (s.frames h).done = false) {its : List (Iterator H)}
    (hits : ∀ it ∈ its, it.coroutine = some h) :
    Inv h n (r + 1) ⟨Function.update s.frames h (s.frames h).next, its⟩ where
  frame := by simpa using hs.frame.next hd
  its it hit := ⟨hits it hit, Nat.succ_pos r⟩

/-- What an operation does while the coroutine is not resumed at its end. -/
theorem apply_cases (hs : Inv h n r s) (hu : Usable s op)
    (hd : op = .begin → (s.frames h).done = false) :
    (∃ its frames, op.apply ⟨some h⟩ s.its s.frames = .ok its frames ∧
      Inv h n (r + if op.resumes then 1 else 0) ⟨frames, its⟩) ∨
    ∃ e frames, op.apply ⟨some h⟩ s.its s.frames = .error (.exception e) frames ∧
      Inv h n (r + if op.resumes then 1 else 0) ⟨frames, s.its⟩ := by
  cases op with
  | begin =>
    have hd := hd rfl
    have hits := fun it hit => (hs.its it hit).1
    rcases advance_cases hd with hok | ⟨e, herr⟩
    · have hbegin : begin (⟨some h⟩ : Generator H) s.frames = .ok ⟨some h⟩ _ := EStateM.bind_ok hok
      refine .inl ⟨_, _, EStateM.bind_ok hbegin, hs.next hd fun it hit => ?_⟩
      rcases List.mem_append.mp hit with hit | hit
      · exact hits it hit
      · cases List.mem_singleton.mp hit
        rfl
    · have hbegin : begin (⟨some h⟩ : Generator H) s.frames = .error _ _ := EStateM.bind_error herr
      exact .inr ⟨e, _, EStateM.bind_error hbegin, hs.next hd hits⟩
  | incr k =>
    obtain ⟨⟨coroutine⟩, hk, hend⟩ := hu
    have hits := fun it hit => (hs.its it hit).1
    cases hits _ (List.mem_of_getElem? hk)
    have happly : (Op.incr k).apply (⟨some h⟩ : Generator H) s.its s.frames =
        (do advance h; return s.its) s.frames := by simp only [Op.apply, hk, Iterator.incr]
    rw [happly]
    rcases advance_cases hend with hok | ⟨e, herr⟩
    · exact .inl ⟨_, _, EStateM.bind_ok hok, hs.next hend hits⟩
    · exact .inr ⟨e, _, EStateM.bind_error herr, hs.next hend hits⟩
  | deref k =>
    obtain ⟨⟨coroutine⟩, hk, hend⟩ := hu
    obtain ⟨heq, hpos⟩ := hs.its _ (List.mem_of_getElem? hk)
    cases heq
    obtain ⟨v, hv⟩ := Option.isSome_iff_exists.mp (hs.frame.value hend hpos)
    have hderef : Iterator.deref ⟨some h⟩ s.frames = .ok v s.frames := by
      refine (EStateM.bind_ok rfl).trans ?_
      simp only [hv]
      rfl
    have happly : (Op.deref k).apply (⟨some h⟩ : Generator H) s.its s.frames =
        (do let _ ← Iterator.deref ⟨some h⟩; return s.its) s.frames := by
      simp only [Op.apply, hk]
    rw [happly]
    exact .inl ⟨_, _, EStateM.bind_ok hderef, hs⟩

theorem begin_done (hd : (s.frames h).done = true) :
    ¬ NotResumedDone ⟨some h⟩ s .begin := by
  intro hn
  have hbegin : begin (⟨some h⟩ : Generator H) s.frames = .error .resumedDone s.frames :=
    EStateM.bind_error (advance_done hd)
  exact hn _ (EStateM.bind_error hbegin)

/-- An operation that does not resume the coroutine at its end is followed by a state, and keeps the
invariant. -/
theorem step_of_usable (hs : Inv h n r s) (hu : Usable s op)
    (hd : op = .begin → (s.frames h).done = false) :
    NotResumedDone ⟨some h⟩ s op ∧ (∃ s', Step ⟨some h⟩ s op s') ∧
      ∀ s', Step ⟨some h⟩ s op s' → Inv h n (r + if op.resumes then 1 else 0) s' := by
  rcases apply_cases hs hu hd with ⟨its, frames, hok, hinv⟩ | ⟨e, frames, herr, hinv⟩
  · refine ⟨fun _ h => ?_, ⟨_, .returned hok⟩, fun s' hs' => ?_⟩
    · cases hok.symm.trans h
    · cases hs' with
      | returned h =>
        cases hok.symm.trans h
        exact hinv
      | thrown h => cases hok.symm.trans h
  · refine ⟨fun _ h => ?_, ⟨_, .thrown herr⟩, fun s' hs' => ?_⟩
    · cases herr.symm.trans h
    · cases hs' with
      | returned h => cases herr.symm.trans h
      | thrown h =>
        cases herr.symm.trans h
        exact hinv

/-- Every `begin` comes after at most `n` resumptions, `r` of them before the sequence. -/
def BeginsBy (n r : Nat) (ops : List Op) : Prop :=
  ∀ pre post, ops = pre ++ .begin :: post → r + pre.countP Op.resumes ≤ n

theorem beginsBy_nil : BeginsBy n r [] := fun _ _ h => by simp at h

theorem beginsBy_cons {ops : List Op} : BeginsBy n r (op :: ops) ↔
    (op = .begin → r ≤ n) ∧ BeginsBy n (r + if op.resumes then 1 else 0) ops := by
  constructor
  · intro h
    refine ⟨fun hop => h [] ops (by rw [hop]; rfl), fun pre post heq => ?_⟩
    have hpre := h (op :: pre) post (by rw [heq]; rfl)
    rw [List.countP_cons] at hpre
    omega
  · intro ⟨hop, hops⟩ pre post heq
    cases pre with
    | nil =>
      cases heq
      exact hop rfl
    | cons o pre =>
      cases heq
      have hpre := hops pre post rfl
      rw [List.countP_cons]
      omega

theorem notResumedDone_of_inv {ops : List Op} (hs : Inv h n r s)
    (hu : Along (Step ⟨some h⟩) Usable s ops) :
    Along (Step ⟨some h⟩) (NotResumedDone ⟨some h⟩) s ops ↔ BeginsBy n r ops := by
  induction ops generalizing s r with
  | nil => exact ⟨fun _ => beginsBy_nil, fun _ => .nil⟩
  | cons op ops ih =>
    obtain ⟨hop, hops⟩ := Along.cons_iff.mp hu
    rw [Along.cons_iff, beginsBy_cons]
    constructor
    · intro ⟨hn, hrest⟩
      have hd : op = .begin → (s.frames h).done = false := by
        rintro rfl
        by_contra hd
        exact begin_done (by simpa using hd) hn
      obtain ⟨-, ⟨s', hs'⟩, hinv⟩ := step_of_usable hs hop hd
      refine ⟨fun hbegin => ?_, (ih (hinv s' hs') (hops s' hs')).mp (hrest s' hs')⟩
      have hlen := hs.frame.suspended (hd hbegin)
      omega
    · intro ⟨hr, hrest⟩
      have hd : op = .begin → (s.frames h).done = false := by
        intro hbegin
        by_contra hd
        have hlt := hs.frame.ended (by simpa using hd)
        have hle := hr hbegin
        omega
      obtain ⟨hn, -, hinv⟩ := step_of_usable hs hop hd
      exact ⟨hn, fun s' hs' => (ih (hinv s' hs') (hops s' hs')).mpr hrest⟩

/-- While iterators are used only where they differ from `end()`, the coroutine is never resumed at
its end exactly if every `begin` comes after at most as many resumptions as the body has yields. -/
theorem notResumedDone_iff (frames : Frames H α ε) (h : H) (body : Body α ε) (ops : List Op)
    (hu : Along (Step ⟨some h⟩) Usable (.init frames h body) ops) :
    Along (Step ⟨some h⟩) (NotResumedDone ⟨some h⟩) (.init frames h body) ops ↔
      BeginsBy body.yields.length 0 ops :=
  notResumedDone_of_inv (.init frames h body) hu

end

/-- A coroutine with the given yields that returns. -/
def State.sample (yields : List Nat) : State Unit Nat Unit :=
  .init (fun _ => .create ⟨yields, none⟩) () ⟨yields, none⟩

/-- A pass that is abandoned at its first value, and another pass. -/
theorem notResumedDone_sample : Along (Step ⟨some ()⟩) (NotResumedDone ⟨some ()⟩)
    (.sample [1]) [.begin, .deref 0, .begin] := by
  refine (notResumedDone_iff _ _ _ _ ?_).mpr (by simp [beginsBy_cons, beginsBy_nil, Op.resumes])
  refine Along.cons_iff.mpr ⟨trivial, fun s hs => Along.cons_iff.mpr ⟨?_, fun s' _ => ?_⟩⟩
  · cases hs with
    | returned h =>
      cases h
      exact ⟨_, rfl, rfl⟩
    | thrown h => cases h
  · exact Along.cons_iff.mpr ⟨trivial, fun _ _ => .nil⟩

/-- Two passes over a body without yields. -/
theorem not_notResumedDone :
    Along (Step ⟨some ()⟩) Usable (.sample []) [.begin, .begin] ∧
      ¬ Along (Step ⟨some ()⟩) (NotResumedDone ⟨some ()⟩) (.sample []) [.begin, .begin] := by
  constructor
  · exact Along.cons_iff.mpr ⟨trivial, fun _ _ => Along.cons_iff.mpr ⟨trivial, fun _ _ => .nil⟩⟩
  · intro h
    obtain ⟨-, hrest⟩ := Along.cons_iff.mp h
    have hfirst : Step ⟨some ()⟩ (.sample []) .begin _ := .returned rfl
    exact begin_done rfl (Along.cons_iff.mp (hrest _ hfirst)).1

end Generator

end LlvmSc
