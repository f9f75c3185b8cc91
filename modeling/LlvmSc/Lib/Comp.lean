import Mathlib.Tactic.Common

/-!
# Fuelled computations with a state and faults

`Comp σ ε α` is a computation over a state `σ` that returns a value, stops with a fault, or runs
out of fuel. Only `loop` spends fuel. `Yields c s o` says that `c` started in `s` ends with `o`
whatever the fuel is, once there is enough of it; an outcome that is yielded is the only one
(`Yields.unique`). `wp` is the total weakest precondition with a postcondition for the returned
value and one for the fault; `Ensures` is `wp` without faults.
-/

universe u v w

/-- What a computation ends with. -/
inductive Outcome (σ : Type u) (ε : Type v) (α : Type w) where
  | done (a : α) (s : σ)
  | fault (e : ε)
  | timeout

/-- A computation: fuel and a state to an outcome. -/
def Comp (σ : Type u) (ε : Type v) (α : Type w) := Nat → σ → Outcome σ ε α

namespace Comp

variable {σ : Type u} {ε : Type v} {α β τ : Type w}

protected def pure (a : α) : Comp σ ε α := fun _ s => .done a s

protected def bind (c : Comp σ ε α) (f : α → Comp σ ε β) : Comp σ ε β := fun n s =>
  match c n s with
  | .done a s' => f a n s'
  | .fault e => .fault e
  | .timeout => .timeout

instance : Monad (Comp σ ε) where
  pure := Comp.pure
  bind := Comp.bind

/-- Stop with a fault. -/
def raise (e : ε) : Comp σ ε α := fun _ _ => .fault e

/-- Read and replace the state. -/
def modifyGet (f : σ → α × σ) : Comp σ ε α := fun _ s => .done (f s).1 (f s).2

/-- Repeat `step` until it answers `inr`. Each turn spends one unit of fuel, and the turn itself
runs with what is left. -/
def loop (step : τ → Comp σ ε (τ ⊕ β)) : τ → Comp σ ε β
  | _, 0, _ => .timeout
  | t, n + 1, s =>
    match step t n s with
    | .done (.inl t') s' => loop step t' n s'
    | .done (.inr b) s' => .done b s'
    | .fault e => .fault e
    | .timeout => .timeout

/-- With enough fuel, `c` started in `s` ends with `o`. -/
def Yields (c : Comp σ ε α) (s : σ) (o : Outcome σ ε α) : Prop := ∃ n, ∀ m, n ≤ m → c m s = o

theorem Yields.unique {c : Comp σ ε α} {s : σ} {o o' : Outcome σ ε α} (h : c.Yields s o)
    (h' : c.Yields s o') : o = o' := by
  obtain ⟨n, h⟩ := h
  obtain ⟨n', h'⟩ := h'
  rw [← h _ (Nat.le_max_left n n'), h' _ (Nat.le_max_right n n')]

theorem yields_pure (a : α) (s : σ) : (pure a : Comp σ ε α).Yields s (.done a s) :=
  ⟨0, fun _ _ => rfl⟩

theorem yields_raise (e : ε) (s : σ) : (raise e : Comp σ ε α).Yields s (.fault e) :=
  ⟨0, fun _ _ => rfl⟩

theorem yields_modifyGet (f : σ → α × σ) (s : σ) :
    (modifyGet f : Comp σ ε α).Yields s (.done (f s).1 (f s).2) :=
  ⟨0, fun _ _ => rfl⟩

theorem Yields.bind {c : Comp σ ε α} {f : α → Comp σ ε β} {s s' : σ} {a : α} {o : Outcome σ ε β}
    (h : c.Yields s (.done a s')) (k : (f a).Yields s' o) : (c >>= f).Yields s o := by
  obtain ⟨n, h⟩ := h
  obtain ⟨n', k⟩ := k
  refine ⟨max n n', fun m hm => ?_⟩
  change Comp.bind c f m s = o
  rw [Comp.bind, h m (by omega)]
  exact k m (by omega)

theorem Yields.bind_fault {c : Comp σ ε α} {f : α → Comp σ ε β} {s : σ} {e : ε}
    (h : c.Yields s (.fault e)) : (c >>= f).Yields s (.fault e) := by
  obtain ⟨n, h⟩ := h
  refine ⟨n, fun m hm => ?_⟩
  change Comp.bind c f m s = _
  rw [Comp.bind, h m hm]

section
variable {step : τ → Comp σ ε (τ ⊕ β)} {t t' : τ} {s s' : σ}

theorem Yields.loop_done {b : β} (h : (step t).Yields s (.done (.inr b) s')) :
    (loop step t).Yields s (.done b s') := by
  obtain ⟨n, h⟩ := h
  refine ⟨n + 1, fun m hm => ?_⟩
  obtain ⟨m, rfl⟩ : ∃ k, m = k + 1 := ⟨m - 1, by omega⟩
  rw [loop, h m (by omega)]

theorem Yields.loop_fault {e : ε} (h : (step t).Yields s (.fault e)) :
    (loop step t).Yields s (.fault e) := by
  obtain ⟨n, h⟩ := h
  refine ⟨n + 1, fun m hm => ?_⟩
  obtain ⟨m, rfl⟩ : ∃ k, m = k + 1 := ⟨m - 1, by omega⟩
  rw [loop, h m (by omega)]

theorem Yields.loop_next {o : Outcome σ ε β} (h : (step t).Yields s (.done (.inl t') s'))
    (k : (loop step t').Yields s' o) : (loop step t).Yields s o := by
  obtain ⟨n, h⟩ := h
  obtain ⟨n', k⟩ := k
  refine ⟨max n n' + 1, fun m hm => ?_⟩
  obtain ⟨m, rfl⟩ : ∃ k, m = k + 1 := ⟨m - 1, by omega⟩
  rw [loop, h m (by omega)]
  exact k m (by omega)

end

/-! ## Total weakest preconditions -/

/-- `c` started in `s` returns with `Q`, or stops with a fault that satisfies `F`. -/
def wp (c : Comp σ ε α) (Q : α → σ → Prop) (F : ε → Prop) (s : σ) : Prop :=
  (∃ a s', c.Yields s (.done a s') ∧ Q a s') ∨ ∃ e, c.Yields s (.fault e) ∧ F e

/-- `c` started in `s` returns with `Q`. -/
def Ensures (c : Comp σ ε α) (Q : α → σ → Prop) (s : σ) : Prop := c.wp Q (fun _ => False) s

section
variable {c : Comp σ ε α} {f : α → Comp σ ε β} {Q R : α → σ → Prop} {F : ε → Prop}
  {Q' : β → σ → Prop} {s : σ}

theorem wp_pure {a : α} (h : Q a s) : (pure a : Comp σ ε α).wp Q F s :=
  .inl ⟨a, s, yields_pure a s, h⟩

theorem wp_raise {e : ε} (h : F e) : (raise e : Comp σ ε α).wp Q F s :=
  .inr ⟨e, yields_raise e s, h⟩

theorem wp_modifyGet {g : σ → α × σ} (h : Q (g s).1 (g s).2) :
    (modifyGet g : Comp σ ε α).wp Q F s :=
  .inl ⟨_, _, yields_modifyGet g s, h⟩

theorem wp_bind (h : c.wp (fun a s' => (f a).wp Q' F s') F s) : (c >>= f).wp Q' F s := by
  rcases h with ⟨a, s', hc, ⟨b, s'', hf, hQ⟩ | ⟨e, hf, hF⟩⟩ | ⟨e, hc, hF⟩
  · exact .inl ⟨b, s'', hc.bind hf, hQ⟩
  · exact .inr ⟨e, hc.bind hf, hF⟩
  · exact .inr ⟨e, hc.bind_fault, hF⟩

/-- A branch on a test whose outcome is known to be the truth value of `p`. -/
theorem wp_ite {d e : Comp σ ε α} {p : Prop} [Decidable p] (hd : p → d.wp Q F s)
    (he : ¬p → e.wp Q F s) : (if decide p = true then d else e).wp Q F s := by
  by_cases hp : p
  · rw [if_pos (decide_eq_true hp)]
    exact hd hp
  · rw [if_neg (mt of_decide_eq_true hp)]
    exact he hp

theorem wp.imp' {G : ε → Prop} (h : c.wp R G s) (k : ∀ a s', R a s' → Q a s')
    (l : ∀ e, G e → F e) : c.wp Q F s := by
  rcases h with ⟨a, s', hc, hR⟩ | ⟨e, hc, hG⟩
  · exact .inl ⟨a, s', hc, k a s' hR⟩
  · exact .inr ⟨e, hc, l e hG⟩

theorem wp.imp (h : c.wp R F s) (k : ∀ a s', R a s' → Q a s') : c.wp Q F s :=
  h.imp' k fun _ hF => hF

theorem Ensures.wp (h : c.Ensures R s) (k : ∀ a s', R a s' → Q a s') : c.wp Q F s := by
  rcases h with ⟨a, s', hc, hR⟩ | ⟨_, _, hF⟩
  · exact .inl ⟨a, s', hc, k a s' hR⟩
  · exact hF.elim

theorem Ensures.bind (h : c.Ensures R s) (k : ∀ a s', R a s' → (f a).wp Q' F s') :
    (c >>= f).wp Q' F s :=
  wp_bind (h.wp k)

theorem Ensures.yields (h : c.Ensures R s) : ∃ a s', c.Yields s (.done a s') ∧ R a s' := by
  rcases h with h | ⟨_, _, hF⟩
  · exact h
  · exact hF.elim

/-- What a computation returns is unique, so two postconditions hold of the same result. -/
theorem Ensures.and (h : c.Ensures Q s) (h' : c.Ensures R s) :
    c.Ensures (fun a s' => Q a s' ∧ R a s') s := by
  obtain ⟨a, s₁, hc, hQ⟩ := h.yields
  obtain ⟨b, s₂, hc', hR⟩ := h'.yields
  obtain ⟨rfl, rfl⟩ : a = b ∧ s₁ = s₂ := by simpa using hc.unique hc'
  exact .inl ⟨a, s₁, hc, hQ, hR⟩

end

/-- The loop rule: `I k` is an invariant whose index drops at every turn that goes on. -/
theorem wp_loop {step : τ → Comp σ ε (τ ⊕ β)} {Q : β → σ → Prop} {F : ε → Prop}
    (I : Nat → τ → σ → Prop)
    (h : ∀ k t s, I k t s → (step t).wp
      (fun r s' => Sum.elim (fun t' => ∃ j < k, I j t' s') (fun b => Q b s') r) F s)
    {k : Nat} {t : τ} {s : σ} (hI : I k t s) : (loop step t).wp Q F s := by
  induction k using Nat.strongRecOn generalizing t s with
  | ind k ih =>
    rcases h k t s hI with ⟨r, s', hr, hQ⟩ | ⟨e, he, hF⟩
    · cases r with
      | inl t' =>
        obtain ⟨j, hj, hI'⟩ := hQ
        rcases ih j hj hI' with ⟨b, s'', hb, hQ⟩ | ⟨e, he, hF⟩
        · exact .inl ⟨b, s'', hr.loop_next hb, hQ⟩
        · exact .inr ⟨e, hr.loop_next he, hF⟩
      | inr b => exact .inl ⟨b, s', hr.loop_done, hQ⟩
    · exact .inr ⟨e, he.loop_fault, hF⟩

/-! ## Computations without fuel -/

/-- A computation that needs no fuel; the state of a failure is lost. -/
def ofEStateM {σ ε α : Type u} (m : EStateM ε σ α) : Comp σ ε α := fun _ s =>
  match m s with
  | .ok a s' => .done a s'
  | .error e _ => .fault e

section
variable {σ ε α : Type u} {m : EStateM ε σ α} {s s' : σ}

theorem yields_ofEStateM {a : α} (h : m s = .ok a s') : (ofEStateM m).Yields s (.done a s') := by
  refine ⟨0, fun _ _ => ?_⟩
  rw [ofEStateM, h]

theorem yields_ofEStateM_fault {e : ε} (h : m s = .error e s') :
    (ofEStateM m).Yields s (.fault e) := by
  refine ⟨0, fun _ _ => ?_⟩
  rw [ofEStateM, h]

end

end Comp
