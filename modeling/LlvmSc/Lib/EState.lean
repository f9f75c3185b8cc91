import Mathlib.Tactic.Common

/-!
# Stateful computations that fail

Rules for `EStateM`, and one for `Except`. `Simulates R m n` says that every successful run of `m`
is matched by one of `n` from every related state. `FailsIn P m` says which errors `m` fails with.
`Tracks abs e f m s` says that `f`, which sees only the abstraction `abs` of the state `s`, predicts
whether `m` fails with `e`, and the abstraction of the state after `m`. `Learns I K need m us` says
that `m` keeps the invariant `I` and the facts `K`, and that what it returns adds facts to those
that it needs.
-/

universe u

theorem Except.bind_eq_ok {ε α β : Type u} {b : β} {x : Except ε α} {f : α → Except ε β} :
    x >>= f = .ok b ↔ ∃ a, x = .ok a ∧ f a = .ok b := by
  constructor
  · intro h
    cases x with
    | error e => cases h
    | ok a => exact ⟨a, rfl, h⟩
  · rintro ⟨a, rfl, h⟩
    exact h

namespace EStateM

variable {ε σ τ υ α β : Type u}

section
variable {m : EStateM ε σ α} {f : α → EStateM ε σ β}

theorem bind_ok (h : m s = .ok a s') : (m >>= f) s = f a s' := by
  change EStateM.bind m f s = _
  rw [EStateM.bind, h]

theorem bind_error (h : m s = .error e s') : (m >>= f) s = .error e s' := by
  change EStateM.bind m f s = _
  rw [EStateM.bind, h]

theorem bind_eq_ok : (m >>= f) s = .ok b s'' ↔ ∃ a s', m s = .ok a s' ∧ f a s' = .ok b s'' := by
  cases h : m s with
  | ok a s' =>
    rw [bind_ok h]
    constructor
    · intro hf
      exact ⟨a, s', rfl, hf⟩
    · rintro ⟨_, _, heq, hf⟩
      cases heq
      exact hf
  | error e s' =>
    rw [bind_error h]
    constructor
    · intro hf
      cases hf
    · rintro ⟨_, _, heq, _⟩
      cases heq

end

/-! ## Simulation -/

def Simulates (R : σ → τ → Prop) (m : EStateM ε σ α) (n : EStateM ε τ α) : Prop :=
  ∀ ⦃s t⦄, R s t → ∀ a s', m s = .ok a s' → ∃ t', n t = .ok a t' ∧ R s' t'

namespace Simulates

variable {R : σ → τ → Prop}

theorem pure (a : α) : Simulates R (pure a : EStateM ε σ α) (pure a : EStateM ε τ α) := by
  rintro s t h _ _ ⟨⟩
  exact ⟨t, rfl, h⟩

theorem bind {m : EStateM ε σ α} {n : EStateM ε τ α} {f : α → EStateM ε σ β}
    {g : α → EStateM ε τ β} (h : Simulates R m n) (k : ∀ a, Simulates R (f a) (g a)) :
    Simulates R (m >>= f) (n >>= g) := by
  intro s t hst b s'' hb
  obtain ⟨a, s', ha, hb⟩ := bind_eq_ok.1 hb
  obtain ⟨t', ha', hst'⟩ := h hst a s' ha
  obtain ⟨t'', hb', hst''⟩ := k a hst' b s'' hb
  exact ⟨t'', bind_eq_ok.2 ⟨a, t', ha', hb'⟩, hst''⟩

theorem throw (e : ε) (n : EStateM ε τ α) : Simulates R (throw e) n := by
  rintro s t _ _ _ ⟨⟩

end Simulates

/-! ## Failures -/

/-- `m` fails with errors in `P` only. -/
def FailsIn (P : ε → Prop) (m : EStateM ε σ α) : Prop := ∀ s e s', m s = .error e s' → P e

namespace FailsIn

variable {P : ε → Prop}

theorem of_ok {m : EStateM ε σ α} (h : ∀ s, ∃ a s', m s = .ok a s') : FailsIn P m := by
  intro s e s' he
  obtain ⟨a, s'', hok⟩ := h s
  cases hok.symm.trans he

theorem pure (a : α) : FailsIn P (pure a : EStateM ε σ α) := of_ok fun s => ⟨a, s, rfl⟩

theorem throw {e : ε} (h : P e) : FailsIn P (throw e : EStateM ε σ α) := by
  intro s e' s' he
  cases he
  exact h

theorem bind {m : EStateM ε σ α} {f : α → EStateM ε σ β} (h : FailsIn P m)
    (k : ∀ a, FailsIn P (f a)) : FailsIn P (m >>= f) := by
  intro s e s' he
  cases hm : m s with
  | ok a s₁ =>
    rw [bind_ok hm] at he
    exact k a s₁ e s' he
  | error e₁ s₁ =>
    rw [bind_error hm] at he
    cases he
    exact h s e s' hm

end FailsIn

/-! ## Prediction of a failure -/

def Tracks (abs : σ → τ) (e : ε) (f : τ → Option τ) (m : EStateM ε σ α) (s : σ) : Prop :=
  match m s with
  | .ok _ s' => f (abs s) = some (abs s')
  | .error e' _ => e' = e → f (abs s) = none

namespace Tracks

variable {abs : σ → τ} {e : ε} {f g : τ → Option τ}

theorem pure (a : α) (s : σ) : Tracks abs e some (pure a : EStateM ε σ α) s := rfl

theorem throw {e' : ε} (h : e' ≠ e) (s : σ) : Tracks abs e f (throw e' : EStateM ε σ α) s :=
  fun heq => absurd heq h

theorem of_ok {m : EStateM ε σ α} (hm : m s = .ok a s') (h : f (abs s) = some (abs s')) :
    Tracks abs e f m s := by
  rw [Tracks, hm]
  exact h

theorem of_error {m : EStateM ε σ α} (hm : m s = .error e' s') (h : e' = e → f (abs s) = none) :
    Tracks abs e f m s := by
  rw [Tracks, hm]
  exact h

theorem of_eq {m n : EStateM ε σ α} (hm : m s = n s) (h : Tracks abs e f n s) :
    Tracks abs e f m s := by
  rw [Tracks, hm]
  exact h

theorem ok {m : EStateM ε σ α} (h : Tracks abs e f m s) (hm : m s = .ok a s') :
    f (abs s) = some (abs s') := by
  rwa [Tracks, hm] at h

theorem bind {m : EStateM ε σ α} {k : α → EStateM ε σ β} (h : Tracks abs e f m s)
    (hk : ∀ a s', m s = .ok a s' → Tracks abs e g (k a) s') :
    Tracks abs e (fun t => (f t).bind g) (m >>= k) s := by
  unfold Tracks at h ⊢
  cases hm : m s with
  | ok a s' =>
    rw [hm] at h
    have hk := hk a s' hm
    rw [bind_ok hm]
    simp only [h, Option.bind_some]
    exact hk
  | error e' s' =>
    rw [hm] at h
    rw [bind_error hm]
    intro he
    change (f (abs s)).bind g = none
    rw [h he, Option.bind_none]

theorem congr {m : EStateM ε σ α} (h : Tracks abs e f m s) (hfg : f (abs s) = g (abs s)) :
    Tracks abs e g m s := by
  unfold Tracks at h ⊢
  rwa [← hfg]

/-- If nothing else fails, a run fails exactly where this is predicted. -/
theorem error_iff {m : EStateM ε σ α} (h : Tracks abs e f m s)
    (hother : ∀ e' s', m s = .error e' s' → e' = e) :
    (∃ s', m s = .error e s') ↔ f (abs s) = none := by
  unfold Tracks at h
  cases hm : m s with
  | ok a s' =>
    rw [hm] at h
    constructor
    · rintro ⟨_, heq⟩
      cases heq
    · intro hnone
      rw [h] at hnone
      cases hnone
  | error e' s' =>
    rw [hm] at h
    cases hother e' s' hm
    exact ⟨fun _ => h rfl, fun _ => ⟨s', rfl⟩⟩

end Tracks

/-! ## Facts about what a computation returns -/

/-- If `need` is known in a state with `I`, then so are the `us` of what `m` returns, in a state
with `I` in which everything is known that was. -/
def Learns (I : σ → Prop) (K : σ → κ → Prop) (need : List κ) (m : EStateM ε σ α)
    (us : α → List κ) : Prop :=
  ∀ s a s', I s → (∀ k ∈ need, K s k) → m s = .ok a s' →
    I s' ∧ (∀ k, K s k → K s' k) ∧ ∀ k ∈ us a, K s' k

namespace Learns

variable {κ : Type u} {I : σ → Prop} {K : σ → κ → Prop} {need : List κ}

theorem pure (a : α) (us : α → List κ) (h : ∀ k ∈ us a, k ∈ need) :
    Learns I K need (pure a : EStateM ε σ α) us := by
  rintro s _ _ hI hneed ⟨⟩
  exact ⟨hI, fun _ hk => hk, fun k hk => hneed k (h k hk)⟩

theorem throw (e : ε) (us : α → List κ) : Learns I K need (throw e : EStateM ε σ α) us := by
  rintro s _ _ _ _ ⟨⟩

theorem bind {m : EStateM ε σ α} {f : α → EStateM ε σ β} {us : α → List κ} {ws : β → List κ}
    (h : Learns I K need m us) (k : ∀ a, Learns I K (us a ++ need) (f a) ws) :
    Learns I K need (m >>= f) ws := by
  intro s b s'' hI hneed hb
  obtain ⟨a, s', ha, hb⟩ := bind_eq_ok.1 hb
  obtain ⟨hI', hkept, hus⟩ := h s a s' hI hneed ha
  have hneed' : ∀ k ∈ us a ++ need, K s' k := by
    intro k hk
    cases List.mem_append.1 hk with
    | inl hk => exact hus k hk
    | inr hk => exact hkept k (hneed k hk)
  obtain ⟨hI'', hkept', hws⟩ := k a s' b s'' hI' hneed' hb
  exact ⟨hI'', fun k hk => hkept' k (hkept k hk), hws⟩

end Learns
end EStateM
