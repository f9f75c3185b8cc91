import LlvmSc.Generator.Pass
import LlvmSc.Generator.Several

/-!
# A coroutine over a generator

A coroutine whose body is a `for` over another generator that yields the values that satisfy `p`, as
`annotation::enumerate_in_namespace` is. A resumption runs the loop up to the next such value, so
that the inner coroutine is suspended at the value that the outer one shows (`Follows`). A loop over
the outer generator sees the values of the inner one that satisfy `p`, and ends as the inner one
does (`filter_rangeFor`).
-/

namespace LlvmSc.Generator

/-- The outer coroutine and its promise. -/
structure Filter (H α ε : Type) where
  /-- The iterator of the loop; `none` before the loop. -/
  it : Option (Iterator H)
  done : Bool
  value : Option α
  exception : Option ε

variable {H α β ε : Type}

/-- An exception that is thrown is a result. -/
def catching (m : M H α ε β) : Comp (Frames H α ε) (Error ε) (Except ε β) := fun _ frames =>
  match m frames with
  | .ok b frames => .done (.ok b) frames
  | .error (.exception e) frames => .done (.error e) frames
  | .error e _ => .fault e

namespace Filter

/-- The coroutine is suspended at its start. -/
def create : Filter H α ε := ⟨none, false, none, none⟩

variable [DecidableEq H] (p : α → Bool)

/-- One turn of the loop, up to the increment behind it. -/
def turn (it : Iterator H) :
    Comp (Frames H α ε) (Error ε) (Iterator H ⊕ Except ε (Option (Iterator H × α))) := do
  if ← Generator.cursor.atEnd it then pure (.inr (.ok none)) else do
    let ann ← Generator.cursor.deref it
    if p ann then pure (.inr (.ok (some (it, ann)))) else do
      match ← catching it.incr with
      | .ok _ => pure (.inl it)
      | .error e => pure (.inr (.error e))

/-- The loop up to the next value that is yielded, or to its end. -/
def seek (it : Iterator H) :
    Comp (Frames H α ε) (Error ε) (Except ε (Option (Iterator H × α))) :=
  Comp.loop (turn p) it

/-- The body up to where it is suspended next, for the inner generator `g`. -/
def continue_ (g : Generator H) (c : Filter H α ε) :
    Comp (Frames H α ε) (Error ε) (Except ε (Option (Iterator H × α))) := do
  let it ← match c.it with
    | none => catching g.begin
    | some it => catching do
      it.incr
      return it
  match it with
  | .ok it => seek p it
  | .error e => pure (.error e)

/-- `coroutine_handle::resume` -/
def resume (g : Generator H) (c : Filter H α ε) :
    Comp (Frames H α ε) (Error ε) (Filter H α ε) := do
  if c.done then Comp.raise .resumedDone else do
    match ← c.continue_ p g with
    | .ok (some (it, ann)) => pure ⟨some it, false, some ann, c.exception⟩
    | .ok none => pure { c with done := true }
    | .error e => pure { c with done := true, exception := some e }

/-- What `begin` and `operator++` share. -/
def advance (g : Generator H) (c : Filter H α ε) :
    Comp (Frames H α ε) (Error ε) (Filter H α ε) := do
  let c ← c.resume p g
  if c.done then
    match c.exception with
    | some e => Comp.raise (.exception e)
    | none => pure c
  else pure c

/-- What a loop over the outer generator uses of its iterators. -/
def cursor (g : Generator H) : Cursor (Frames H α ε) (Error ε) (Filter H α ε) α where
  atEnd c := pure c.done
  deref c :=
    match c.value with
    | none => Comp.raise .uninitialized
    | some ann => pure ann
  incr c := c.advance p g

/-- `for ( auto &ann : f() )` for the coroutine function `f`. -/
def rangeFor (g : Generator H) : Comp (Frames H α ε) (List α × Error ε) (List α) := do
  let c ← (create.advance p g).tag []
  (cursor p g).rangeFor c []

/-- The coroutine after `n` resumptions. -/
def resumed (g : Generator H) : Nat → Comp (Frames H α ε) (Error ε) (Filter H α ε)
  | 0 => pure create
  | n + 1 => do
    let c ← resumed g n
    c.resume p g

/-! ## The loop up to its next yield -/

/-- What the loop finds in the values `vs`, which it has not seen yet. -/
inductive Sought (h : H) (vs : List α) (u : Option ε) (frames : Frames H α ε) :
    Except ε (Option (Iterator H × α)) → Prop
  | found (pre y rest) : vs = pre ++ y :: rest → pre.filter p = [] → p y = true →
    frames h = ⟨⟨rest, u⟩, false, some y, none⟩ → Sought h vs u frames (.ok (some (⟨some h⟩, y)))
  | returned : vs.filter p = [] → u = none → Sought h vs u frames (.ok none)
  | thrown (e) : vs.filter p = [] → u = some e → Sought h vs u frames (.error e)

end Filter

/-- Nothing happens to the other coroutines. -/
def Untouched (h : H) (frames frames' : Frames H α ε) : Prop :=
  ∀ h', h' ≠ h → frames' h' = frames h'

theorem Untouched.trans {h : H} {frames frames' frames'' : Frames H α ε}
    (hf : Untouched h frames frames') (hf' : Untouched h frames' frames'') :
    Untouched h frames frames'' :=
  fun h' hne => (hf' h' hne).trans (hf h' hne)

section
variable {m : M H α ε β} {frames frames' : Frames H α ε}

theorem catching_ok (hm : m frames = .ok b frames') :
    (catching m).Yields frames (.done (.ok b) frames') := by
  refine ⟨0, fun _ _ => ?_⟩
  rw [catching, hm]

theorem catching_exception (hm : m frames = .error (.exception e) frames') :
    (catching m).Yields frames (.done (.error e) frames') := by
  refine ⟨0, fun _ _ => ?_⟩
  rw [catching, hm]

end

variable [DecidableEq H]

theorem Untouched.update (h : H) (frames : Frames H α ε) (c : Coroutine α ε) :
    Untouched h frames (Function.update frames h c) :=
  fun _ hne => Function.update_of_ne hne ..

namespace Filter

section
variable {p : α → Bool} {h : H} {frames frames' : Frames H α ε} {u : Option ε} {body : Body α ε}
  {c : Filter H α ε}

omit [DecidableEq H] in
theorem Sought.cons {x : α} {vs : List α} {r : Except ε (Option (Iterator H × α))}
    (hx : p x = false) (hs : Sought p h vs u frames r) : Sought p h (x :: vs) u frames r := by
  cases hs with
  | found pre y rest hvs hpre hy hframe =>
    exact .found (x :: pre) y rest (by rw [hvs]; rfl) (by simp [hx, hpre]) hy hframe
  | returned hvs hu => exact .returned (by simp [hx, hvs]) hu
  | thrown e hvs hu => exact .thrown e (by simp [hx, hvs]) hu

theorem turn_end (hd : (frames h).done = true) :
    (turn p (⟨some h⟩ : Iterator H)).Yields frames (.done (.inr (.ok none)) frames) :=
  (atEnd_yields hd).bind (Comp.yields_pure _ _)

/-- A value that is not yielded, and the increment behind it. -/
theorem turn_next (hc : frames h = ⟨⟨ys, u⟩, false, some x, none⟩) (hx : p x = false)
    (hadvance : Generator.advance h frames = .ok () frames') :
    (turn p (⟨some h⟩ : Iterator H)).Yields frames (.done (.inl ⟨some h⟩) frames') := by
  have hend := atEnd_yields (congrArg Coroutine.done hc)
  have hderef := deref_yields (congrArg Coroutine.value hc)
  refine hend.bind (hderef.bind ?_)
  rw [hx]
  exact (catching_ok hadvance).bind (Comp.yields_pure _ _)

theorem turn_throw (hc : frames h = ⟨⟨ys, u⟩, false, some x, none⟩) (hx : p x = false)
    (hadvance : Generator.advance h frames = .error (.exception e) frames') :
    (turn p (⟨some h⟩ : Iterator H)).Yields frames (.done (.inr (.error e)) frames') := by
  have hend := atEnd_yields (congrArg Coroutine.done hc)
  have hderef := deref_yields (congrArg Coroutine.value hc)
  refine hend.bind (hderef.bind ?_)
  rw [hx]
  exact (catching_exception hadvance).bind (Comp.yields_pure _ _)

theorem seek_found (hc : frames h = ⟨⟨ys, u⟩, false, some x, none⟩) (hx : p x = true) :
    ∃ r frames', (seek p (⟨some h⟩ : Iterator H)).Yields frames (.done r frames') ∧
      Sought p h (x :: ys) u frames' r ∧ Untouched h frames frames' := by
  have hend := atEnd_yields (congrArg Coroutine.done hc)
  have hderef := deref_yields (congrArg Coroutine.value hc)
  have hturn : (turn p (⟨some h⟩ : Iterator H)).Yields frames
      (.done (.inr (.ok (some (⟨some h⟩, x)))) frames) := by
    refine hend.bind (hderef.bind ?_)
    rw [hx]
    exact Comp.yields_pure _ _
  exact ⟨_, _, hturn.loop_done, .found [] x ys rfl rfl hx hc, fun _ _ => rfl⟩

/-- By induction on the values that are left in the inner coroutine. -/
theorem seek_sought (hc : frames h = ⟨⟨ys, u⟩, false, some x, none⟩) : ∃ r frames',
    (seek p (⟨some h⟩ : Iterator H)).Yields frames (.done r frames') ∧
      Sought p h (x :: ys) u frames' r ∧ Untouched h frames frames' := by
  induction ys generalizing frames x with
  | nil =>
    cases hx : p x with
    | true => exact seek_found hc hx
    | false =>
      cases u with
      | none =>
        have hturn := turn_next hc hx (advance_return hc)
        have hdone : (Function.update frames h ⟨⟨[], none⟩, true, some x, none⟩ h).done = true := by
          rw [Function.update_self]
        exact ⟨_, _, hturn.loop_next (turn_end hdone).loop_done, .returned (by simp [hx]) rfl,
          Untouched.update _ _ _⟩
      | some e =>
        exact ⟨_, _, (turn_throw hc hx (advance_throw hc)).loop_done, .thrown e (by simp [hx]) rfl,
          Untouched.update _ _ _⟩
  | cons y ys ih =>
    cases hx : p x with
    | true => exact seek_found hc hx
    | false =>
      obtain ⟨r, frames', hseek, hs, hu⟩ := ih (Function.update_self ..)
      exact ⟨r, frames', (turn_next hc hx (advance_yield hc)).loop_next hseek, hs.cons hx,
        (Untouched.update _ _ _).trans hu⟩

/-! ## Resumptions -/

/-- The body goes on in the loop over the values `ys` that the inner coroutine still yields. -/
theorem continue_sought (hc : frames h = ⟨⟨ys, u⟩, false, v, none⟩)
    (hit : c.it = none ∨ c.it = some ⟨some h⟩) : ∃ r frames',
      (c.continue_ p ⟨some h⟩).Yields frames (.done r frames') ∧ Sought p h ys u frames' r ∧
        Untouched h frames frames' := by
  -- at its start the body calls `begin`, and behind a yield it increments its iterator
  obtain ⟨m, hm, hok, herror⟩ : ∃ m : M H α ε (Iterator H),
      (c.continue_ p ⟨some h⟩ = do
        match ← catching m with
        | .ok it => seek p it
        | .error e => pure (.error e)) ∧
      (∀ frames', Generator.advance h frames = .ok () frames' → m frames = .ok ⟨some h⟩ frames') ∧
      ∀ e frames', Generator.advance h frames = .error e frames' → m frames = .error e frames' := by
    obtain ⟨it, d, v, x⟩ := c
    rcases hit with rfl | rfl
    · refine ⟨begin ⟨some h⟩, rfl, fun frames' ha => EStateM.bind_ok ha, fun e frames' ha => ?_⟩
      exact EStateM.bind_error ha
    · refine ⟨_, rfl, fun frames' ha => EStateM.bind_ok ha, fun e frames' ha => ?_⟩
      exact EStateM.bind_error ha
  rw [hm]
  cases ys with
  | nil =>
    cases u with
    | none =>
      have hdone : (Function.update frames h ⟨⟨[], none⟩, true, v, none⟩ h).done = true := by
        rw [Function.update_self]
      refine ⟨_, _, (catching_ok (hok _ (advance_return hc))).bind (turn_end hdone).loop_done, ?_⟩
      exact ⟨.returned rfl rfl, .update _ _ _⟩
    | some e =>
      have hcatch := catching_exception (herror _ _ (advance_throw hc))
      exact ⟨_, _, hcatch.bind (Comp.yields_pure _ _), .thrown e rfl rfl, .update _ _ _⟩
  | cons y ys =>
    have hcatch := catching_ok (hok _ (advance_yield hc))
    have hc' : Function.update frames h ⟨⟨ys, u⟩, false, some y, none⟩ h =
        ⟨⟨ys, u⟩, false, some y, none⟩ := Function.update_self ..
    obtain ⟨r, frames', hseek, hs, hu⟩ := seek_sought (p := p) hc'
    exact ⟨r, frames', hcatch.bind hseek, hs, (Untouched.update _ _ _).trans hu⟩

end

/-- The outer coroutine after `n` resumptions. It is at its start, or the inner one is suspended at
the `n`-th value that satisfies `p`, which is the value of both, or it has ended as the inner one
has. -/
inductive Follows (p : α → Bool) (h : H) (body : Body α ε) (frames : Frames H α ε) :
    Filter H α ε → Nat → Prop
  | start : frames h = .create body → Follows p h body frames create 0
  | yielded (pre x rest) : body.yields = pre ++ x :: rest → p x = true →
    frames h = ⟨⟨rest, body.uncaught⟩, false, some x, none⟩ →
    Follows p h body frames ⟨some ⟨some h⟩, false, some x, none⟩ ((pre.filter p).length + 1)
  | ended (it v) : Follows p h body frames ⟨it, true, v, body.uncaught⟩
    ((body.yields.filter p).length + 1)

section
variable {p : α → Bool} {h : H} {frames frames' : Frames H α ε} {body : Body α ε}
  {c : Filter H α ε}

theorem resume_of_sought (pre : List α) (hd : c.done = false) (hexc : c.exception = none)
    (hcont : (c.continue_ p ⟨some h⟩).Yields frames (.done r frames'))
    (hyields : body.yields = pre ++ ys) (hs : Sought p h ys body.uncaught frames' r) :
    ∃ c', (c.resume p ⟨some h⟩).Yields frames (.done c' frames') ∧
      Follows p h body frames' c' ((pre.filter p).length + 1) := by
  obtain ⟨it, d, v, x⟩ := c
  cases hd
  cases hexc
  cases hs with
  | found pre' y rest hys hpre hy hframe =>
    have hyields' : body.yields = (pre ++ pre') ++ y :: rest := by
      rw [hyields, hys, List.append_assoc]
    have hlen : ((pre ++ pre').filter p).length = (pre.filter p).length := by
      rw [List.filter_append, hpre, List.append_nil]
    refine ⟨_, hcont.bind (Comp.yields_pure _ _), ?_⟩
    rw [← hlen]
    exact .yielded _ y rest hyields' hy hframe
  | returned hys hu =>
    have hlen : (body.yields.filter p).length = (pre.filter p).length := by
      rw [hyields, List.filter_append, hys, List.append_nil]
    refine ⟨_, hcont.bind (Comp.yields_pure _ _), ?_⟩
    rw [← hlen]
    have hended : Follows p h body frames' ⟨it, true, v, body.uncaught⟩ _ := .ended it v
    rwa [hu] at hended
  | thrown e hys hu =>
    have hlen : (body.yields.filter p).length = (pre.filter p).length := by
      rw [hyields, List.filter_append, hys, List.append_nil]
    refine ⟨_, hcont.bind (Comp.yields_pure _ _), ?_⟩
    rw [← hlen]
    have hended : Follows p h body frames' ⟨it, true, v, body.uncaught⟩ _ := .ended it v
    rwa [hu] at hended

/-- A resumption of the outer coroutine leads from one value to the next one. -/
theorem resume_follows (hf : Follows p h body frames c n) (hd : c.done = false) : ∃ c' frames',
    (c.resume p ⟨some h⟩).Yields frames (.done c' frames') ∧ Follows p h body frames' c' (n + 1) ∧
      Untouched h frames frames' := by
  cases hf with
  | start hframe =>
    obtain ⟨r, frames', hcont, hs, hu⟩ := continue_sought (p := p) (c := create) hframe (.inl rfl)
    obtain ⟨c', hresume, hf'⟩ := resume_of_sought [] rfl rfl hcont rfl hs
    exact ⟨c', frames', hresume, hf', hu⟩
  | yielded pre x rest hyields hx hframe =>
    obtain ⟨r, frames', hcont, hs, hu⟩ :=
      continue_sought (p := p) (c := ⟨some ⟨some h⟩, false, some x, none⟩) hframe (.inr rfl)
    have hyields' : body.yields = (pre ++ [x]) ++ rest := by
      rw [hyields, List.append_assoc, List.singleton_append]
    obtain ⟨c', hresume, hf'⟩ := resume_of_sought _ rfl rfl hcont hyields' hs
    rw [List.filter_append, List.filter_cons_of_pos hx, List.length_append] at hf'
    exact ⟨c', frames', hresume, hf', hu⟩
  | ended => cases hd

omit [DecidableEq H] in
/-- The coroutine shows what one would show that yields the values that satisfy `p`. -/
theorem Follows.shows (hf : Follows p h body frames c n) :
    c.done = (Body.after ⟨body.yields.filter p, body.uncaught⟩ n).done ∧
      c.exception = (Body.after ⟨body.yields.filter p, body.uncaught⟩ n).exception ∧
      (c.done = false →
        c.value = (Body.after ⟨body.yields.filter p, body.uncaught⟩ n).value) := by
  cases hf with
  | start hframe => exact ⟨rfl, rfl, fun _ => rfl⟩
  | yielded pre x rest hyields hx hframe =>
    have hfilter : body.yields.filter p = pre.filter p ++ x :: rest.filter p := by
      rw [hyields, List.filter_append, List.filter_cons_of_pos hx]
    have hle : ¬ (body.yields.filter p).length < (pre.filter p).length + 1 := by
      rw [hfilter, List.length_append, List.length_cons]
      omega
    have htake : (body.yields.filter p).take ((pre.filter p).length + 1) = pre.filter p ++ [x] := by
      rw [hfilter, List.take_length_add_append]
      rfl
    simp [Body.after, hle, htake]
  | ended it v => simp [Body.after]

theorem resumed_follows (frames : Frames H α ε) (hn : n ≤ (body.yields.filter p).length + 1) :
    ∃ c frames', (resumed p ⟨some h⟩ n).Yields (Function.update frames h (.create body))
      (.done c frames') ∧ Follows p h body frames' c n ∧ Untouched h frames frames' := by
  induction n with
  | zero =>
    exact ⟨create, _, Comp.yields_pure _ _, .start (Function.update_self ..), .update _ _ _⟩
  | succ n ih =>
    obtain ⟨c, frames₁, hyields, hf, hu⟩ := ih (Nat.le_of_succ_le hn)
    have hd : c.done = false := by
      rw [hf.shows.1]
      exact decide_eq_false (Nat.not_lt_of_le (Nat.le_of_succ_le_succ hn))
    obtain ⟨c', frames', hresume, hf', hu'⟩ := resume_follows hf hd
    exact ⟨c', frames', hyields.bind hresume, hf', hu.trans hu'⟩

/-- After every number of resumptions the coroutine shows what one would show that yields the values
that satisfy `p`, the inner coroutine is suspended at the value that is shown, and the other ones
are untouched. -/
theorem filter_resumed (p : α → Bool) (frames : Frames H α ε) (h : H) (body : Body α ε) (n : Nat)
    (hn : n ≤ (body.yields.filter p).length + 1) : ∃ c frames',
      (resumed p ⟨some h⟩ n).Yields (Function.update frames h (.create body)) (.done c frames') ∧
      Follows p h body frames' c n ∧ Untouched h frames frames' ∧
      c.done = (Body.after ⟨body.yields.filter p, body.uncaught⟩ n).done ∧
      c.exception = (Body.after ⟨body.yields.filter p, body.uncaught⟩ n).exception ∧
      (c.done = false →
        c.value = (Body.after ⟨body.yields.filter p, body.uncaught⟩ n).value) := by
  obtain ⟨c, frames', hyields, hf, hu⟩ := resumed_follows (p := p) (h := h) frames hn
  exact ⟨c, frames', hyields, hf, hu, hf.shows⟩

/-! ## The loop over the outer generator -/

/-- A resumption that does not end the coroutine, one that ends it, and one that throws. -/
theorem advance_cases (hf : Follows p h body frames c n) (hd : c.done = false) : ∃ c' frames',
    Follows p h body frames' c' (n + 1) ∧
      ((c'.done = false ∧ (c.advance p ⟨some h⟩).Yields frames (.done c' frames')) ∨
        (c'.done = true ∧ n = (body.yields.filter p).length ∧
          ((body.uncaught = none ∧ (c.advance p ⟨some h⟩).Yields frames (.done c' frames')) ∨
            ∃ e, body.uncaught = some e ∧
              (c.advance p ⟨some h⟩).Yields frames (.fault (.exception e))))) := by
  obtain ⟨c', frames', hresume, hf', -⟩ := resume_follows hf hd
  refine ⟨c', frames', hf', ?_⟩
  cases hf' with
  | yielded pre x rest =>
    exact .inl ⟨rfl, hresume.bind (Comp.yields_pure _ _)⟩
  | ended it v =>
    refine .inr ⟨rfl, rfl, ?_⟩
    cases hu : body.uncaught with
    | none =>
      refine .inl ⟨rfl, hresume.bind ?_⟩
      simp only [hu]
      exact Comp.yields_pure _ _
    | some e =>
      refine .inr ⟨e, rfl, hresume.bind ?_⟩
      simp only [hu]
      exact Comp.yields_raise _ _

theorem atEnd_yields (hd : c.done = b) (frames : Frames H α ε) :
    ((cursor p ⟨some h⟩).atEnd c).Yields frames (.done b frames) := by
  rw [← hd]
  exact Comp.yields_pure _ _

theorem deref_yields (hv : c.value = some x) (frames : Frames H α ε) :
    ((cursor p ⟨some h⟩).deref c).Yields frames (.done x frames) := by
  simp only [cursor, hv]
  exact Comp.yields_pure _ _

omit [DecidableEq H] in
/-- A coroutine that has been resumed and has not ended shows the value of the last resumption. -/
theorem Follows.value (hf : Follows p h body frames c (n + 1)) (hd : c.done = false) :
    ∃ x, c.value = some x ∧
      (body.yields.filter p).take (n + 1) = (body.yields.filter p).take n ++ [x] := by
  obtain ⟨hdone, -, hvalue⟩ := hf.shows
  have hlt : n < (body.yields.filter p).length :=
    Nat.le_of_not_lt (of_decide_eq_false (hdone.symm.trans hd))
  have htake := List.take_succ_eq_append_getElem hlt
  refine ⟨(body.yields.filter p)[n], (hvalue hd).trans ?_, htake⟩
  rw [Body.after, htake, List.getLast?_concat]

/-- From where the coroutine shows a value, by induction on the number of those that follow. -/
theorem rangeFor_follows (hf : Follows p h body frames c (n + 1)) (hd : c.done = false) : ∃ o,
    ((cursor p ⟨some h⟩).rangeFor c ((body.yields.filter p).take n)).Yields frames o ∧
      Ending ⟨body.yields.filter p, body.uncaught⟩ o := by
  induction hk : (body.yields.filter p).length - n generalizing n c frames with
  | zero =>
    have hdone := hf.shows.1.symm.trans hd
    have hle := Nat.le_of_not_lt (of_decide_eq_false hdone)
    exact absurd hle (by simp only; omega)
  | succ k ih =>
    obtain ⟨x, hx, htake⟩ := hf.value hd
    have hend := atEnd_yields (p := p) (h := h) hd frames
    have hderef := deref_yields (p := p) (h := h) hx frames
    obtain ⟨c', frames', hf', ⟨hd', hincr⟩ | ⟨hd', hlen, hended⟩⟩ := advance_cases hf hd
    · obtain ⟨o, ho, hending⟩ := ih hf' hd' (by omega)
      rw [htake] at ho
      exact ⟨o, Cursor.rangeFor_next hend hderef hincr ho, hending⟩
    · have hall : (body.yields.filter p).take n ++ [x] = body.yields.filter p := by
        rw [← htake, hlen, List.take_length]
      rcases hended with ⟨hu, hincr⟩ | ⟨e, hu, hincr⟩
      · exact ⟨_, Cursor.rangeFor_next hend hderef hincr (Cursor.rangeFor_end (atEnd_yields hd' _)),
          hall, hu⟩
      · exact ⟨_, Cursor.rangeFor_fault hend hderef hincr, hall, e, rfl, hu⟩

/-- A loop over the outer generator sees the values of the inner one that satisfy `p`, each of them
once and in order, and ends as the inner one does. -/
theorem filter_rangeFor (p : α → Bool) (frames : Frames H α ε) (h : H) (body : Body α ε) : ∃ o,
    (rangeFor p ⟨some h⟩).Yields (Function.update frames h (.create body)) o ∧
      Ending ⟨body.yields.filter p, body.uncaught⟩ o := by
  have hf : Follows p h body (Function.update frames h (.create body)) create 0 :=
    .start (Function.update_self ..)
  obtain ⟨c, frames', hf', ⟨hd, hadvance⟩ | ⟨hd, hlen, hended⟩⟩ := advance_cases hf rfl
  · obtain ⟨o, ho, hending⟩ := rangeFor_follows hf' hd
    exact ⟨o, (hadvance.tag []).bind ho, hending⟩
  · have hnil := List.length_eq_zero_iff.1 hlen.symm
    rcases hended with ⟨hu, hadvance⟩ | ⟨e, hu, hadvance⟩
    · exact ⟨_, (hadvance.tag []).bind (Cursor.rangeFor_end (atEnd_yields hd _)), hnil.symm, hu⟩
    · exact ⟨_, (hadvance.tag_fault []).bind_fault, hnil.symm, e, rfl, hu⟩

end

/-- The second even number among four. -/
theorem filter_resumed_sample : ∃ (c : Filter Unit Nat Unit) (frames : Frames Unit Nat Unit),
    c.value = some 4 ∧ c.done = false ∧
      Follows (· % 2 == 0) () ⟨[2, 3, 4, 5], none⟩ frames c 2 := by
  obtain ⟨c, frames, -, hf, -, hd, -, hvalue⟩ := filter_resumed (· % 2 == 0)
    (fun _ => .create ⟨[], none⟩) () (⟨[2, 3, 4, 5], none⟩ : Body Nat Unit) 2 (by decide)
  exact ⟨c, frames, hvalue hd, hd, hf⟩

end Filter

end LlvmSc.Generator
