import LlvmSc.Generator
import Mathlib.Logic.Equiv.Basic

/-!
# Who destroys a coroutine

The special members of `generator` on any number of variables. A coroutine is named by its number in
the order of creation. An assignment is three steps: the by-value parameter `other` of `operator=` is
made, swapped with the variable, and destroyed. Along every sequence of operations each coroutine is
held by one generator or has been destroyed once, in the states within an assignment too
(`owned_of_reached`). Operations whose variables are alive as they need them are carried out
(`exists_run`).
-/

namespace LlvmSc

namespace Ownership

/-- Where a generator lives. -/
inductive Place (V : Type) where
  | var (x : V)
  /-- The parameter of `operator=`. -/
  | other
  deriving DecidableEq

structure State (V : Type) where
  /-- `none` where no generator is alive. -/
  generators : Place V → Option (Generator Nat)
  /-- How many coroutines have been created. -/
  created : Nat
  /-- How often a coroutine has been destroyed. -/
  destroyed : Nat → Nat

variable {V : Type}

/-- The handle that a generator at `p` holds. -/
def State.handle (s : State V) (p : Place V) : Option Nat :=
  (s.generators p).bind Generator.coroutine

/-- No generator is alive. -/
def State.empty : State V := ⟨fun _ => none, 0, fun _ => 0⟩

inductive Prim (V : Type) where
  /-- A call of a coroutine function, whose generator is made in place. -/
  | create (p : Place V)
  /-- `generator(generator&& other)` -/
  | moveConstruct (p q : Place V)
  | swap (p q : Place V)
  /-- `~generator` -/
  | destroy (p : Place V)

section
variable [DecidableEq V]

/-- A generator is made where none is alive, and used where one is. -/
def Prim.apply (s : State V) : Prim V → Option (State V)
  | create p =>
    match s.generators p with
    | some _ => none
    | none => some { s with
        generators := Function.update s.generators p (some ⟨some s.created⟩)
        created := s.created + 1 }
  | moveConstruct p q =>
    match s.generators p, s.generators q with
    | none, some g => some { s with
        generators := Function.update
          (Function.update s.generators p (some ⟨g.coroutine⟩)) q (some ⟨none⟩) }
    | _, _ => none
  | swap p q =>
    match s.generators p, s.generators q with
    | some g, some g' => some { s with
        generators := Function.update
          (Function.update s.generators p (some ⟨g'.coroutine⟩)) q (some ⟨g.coroutine⟩) }
    | _, _ => none
  | destroy p =>
    match s.generators p with
    | none => none
    | some g => some { s with
        generators := Function.update s.generators p none
        destroyed := match g.coroutine with
          | none => s.destroyed
          | some h => Function.update s.destroyed h (s.destroyed h + 1) }

def Step (s : State V) (p : Prim V) (s' : State V) : Prop := p.apply s = some s'

end

/-- What is done with the variables. -/
inductive Op (V : Type) where
  | create (x : V)
  /-- `generator x(std::move(y))` -/
  | moveConstruct (x y : V)
  /-- `x = std::move(y)` -/
  | assign (x y : V)
  /-- `x = f()` for a coroutine function `f` -/
  | assignCreate (x : V)
  /-- `x.swap(y)` -/
  | swap (x y : V)
  | destroy (x : V)

def Op.prims : Op V → List (Prim V)
  | create x => [.create (.var x)]
  | moveConstruct x y => [.moveConstruct (.var x) (.var y)]
  | assign x y => [.moveConstruct .other (.var y), .swap (.var x) .other, .destroy .other]
  | assignCreate x => [.create .other, .swap (.var x) .other, .destroy .other]
  | swap x y => [.swap (.var x) (.var y)]
  | destroy x => [.destroy (.var x)]

/-- The variable that the operation makes is not alive, and those that it uses are. -/
def Op.Allowed (s : State V) : Op V → Prop
  | create x => s.generators (.var x) = none
  | moveConstruct x y => s.generators (.var x) = none ∧ (s.generators (.var y)).isSome
  | assign x y | swap x y => (s.generators (.var x)).isSome ∧ (s.generators (.var y)).isSome
  | assignCreate x | destroy x => (s.generators (.var x)).isSome

section
variable [DecidableEq V] {s s' : State V} {p q : Place V} {k : Nat}

/-! ## One step -/

/-- A step permutes the handles, or makes a coroutine where there was no handle, or destroys the
coroutine of a handle and takes the handle away. -/
inductive Effect (s s' : State V) : Prop where
  | permute (e : Equiv.Perm (Place V)) (handle : s'.handle = s.handle ∘ e)
    (created : s'.created = s.created) (destroyed : s'.destroyed = s.destroyed)
  | create (p : Place V) (free : s.handle p = none)
    (handle : s'.handle = Function.update s.handle p (some s.created))
    (created : s'.created = s.created + 1) (destroyed : s'.destroyed = s.destroyed)
  | destroy (p : Place V) (k : Nat) (held : s.handle p = some k)
    (handle : s'.handle = Function.update s.handle p none) (created : s'.created = s.created)
    (destroyed : s'.destroyed = Function.update s.destroyed k (s.destroyed k + 1))

theorem handle_update (gs : Place V → Option (Generator Nat)) (p : Place V)
    (g : Option (Generator Nat)) (c : Nat) (d : Nat → Nat) :
    (⟨Function.update gs p g, c, d⟩ : State V).handle =
      Function.update (⟨gs, c, d⟩ : State V).handle p (g.bind Generator.coroutine) := by
  funext q
  by_cases hq : q = p
  · subst hq
    simp [State.handle]
  · simp [State.handle, hq]

theorem update_swap {f : Place V → Option Nat} :
    Function.update (Function.update f p (f q)) q (f p) = f ∘ Equiv.swap p q := by
  funext r
  simp only [Function.comp, Equiv.swap_apply_def, Function.update_apply]
  by_cases hp : r = p
  · by_cases hq : r = q
    · rw [if_pos hq, if_pos hp, ← hp, hq]
    · rw [if_neg hq, if_pos hp, if_pos hp]
  · by_cases hq : r = q
    · rw [if_pos hq, if_neg hp, if_pos hq]
    · rw [if_neg hq, if_neg hp, if_neg hp, if_neg hq]

omit [DecidableEq V] in
theorem handle_eq {g : Generator Nat} (hp : s.generators p = some g) :
    s.handle p = g.coroutine := by
  rw [State.handle, hp]
  rfl

omit [DecidableEq V] in
theorem handle_none (hp : s.generators p = none) : s.handle p = none := by
  rw [State.handle, hp]
  rfl

/-- The places `p` and `q` exchange their handles. -/
theorem handle_exchange (hp : s.handle p = h) (hq : s.handle q = h') :
    (⟨Function.update (Function.update s.generators p (some ⟨h'⟩)) q (some ⟨h⟩), s.created,
      s.destroyed⟩ : State V).handle = s.handle ∘ Equiv.swap p q := by
  rw [handle_update, handle_update, ← update_swap, hp, hq]
  rfl

theorem step_effect {prim : Prim V} (h : Step s prim s') : Effect s s' := by
  cases prim with
  | create p =>
    simp only [Step, Prim.apply] at h
    split at h
    · cases h
    · next hp =>
      cases h
      exact .create p (handle_none hp) (handle_update _ _ _ _ _) rfl rfl
  | moveConstruct p q =>
    simp only [Step, Prim.apply] at h
    split at h
    · next g hp hq =>
      cases h
      have hhandle := handle_exchange (handle_none hp) (handle_eq hq)
      exact .permute (Equiv.swap p q) hhandle rfl rfl
    · cases h
  | swap p q =>
    simp only [Step, Prim.apply] at h
    split at h
    · next g g' hp hq =>
      cases h
      have hhandle := handle_exchange (handle_eq hp) (handle_eq hq)
      exact .permute (Equiv.swap p q) hhandle rfl rfl
    · cases h
  | destroy p =>
    simp only [Step, Prim.apply] at h
    split at h
    · cases h
    · next g hp =>
      cases h
      have hheld := handle_eq hp
      cases hg : g.coroutine with
      | none =>
        refine .permute (Equiv.refl _) ?_ rfl rfl
        rw [handle_update]
        exact Function.update_eq_self_iff.mpr (hheld.trans hg).symm
      | some k => exact .destroy p k (hheld.trans hg) (handle_update _ _ _ _ _) rfl rfl

/-! ## The ledger of coroutines -/

/-- What has become of the coroutine `k`. -/
inductive Ledger (s : State V) (k : Nat) : Prop where
  | future (created : s.created ≤ k) (free : ∀ p, s.handle p ≠ some k)
    (destroyed : s.destroyed k = 0)
  | held (p : Place V) (created : k < s.created) (only : ∀ q, s.handle q = some k ↔ q = p)
    (destroyed : s.destroyed k = 0)
  | ended (created : k < s.created) (free : ∀ p, s.handle p ≠ some k)
    (destroyed : s.destroyed k = 1)

omit [DecidableEq V] in
theorem Ledger.empty (k : Nat) : Ledger (.empty : State V) k :=
  .future (Nat.zero_le k) (fun _ h => by cases h) rfl

omit [DecidableEq V] in
/-- A coroutine that a step neither makes nor destroys changes its place at most. -/
theorem Ledger.transfer (e : Equiv.Perm (Place V)) (hk : Ledger s k)
    (hhandle : ∀ q, s'.handle q = some k ↔ s.handle (e q) = some k)
    (hcreated : s'.created ≤ k ↔ s.created ≤ k) (hdestroyed : s'.destroyed k = s.destroyed k) :
    Ledger s' k := by
  have hlt : k < s'.created ↔ k < s.created := by omega
  cases hk with
  | future hc hf hd =>
    exact .future (hcreated.mpr hc) (fun q => (hhandle q).not.mpr (hf _)) (hdestroyed.trans hd)
  | held p hc ho hd =>
    refine .held (e.symm p) (hlt.mpr hc) (fun q => ?_) (hdestroyed.trans hd)
    rw [hhandle q, ho, Equiv.eq_symm_apply]
  | ended hc hf hd =>
    exact .ended (hlt.mpr hc) (fun q => (hhandle q).not.mpr (hf _)) (hdestroyed.trans hd)

theorem Ledger.step {prim : Prim V} (hs : ∀ k, Ledger s k) (h : Step s prim s') (k : Nat) :
    Ledger s' k := by
  cases step_effect h with
  | permute e hhandle hcreated hdestroyed =>
    refine (hs k).transfer e (fun q => ?_) (by rw [hcreated]) (by rw [hdestroyed])
    rw [hhandle, Function.comp]
  | create p hp hhandle hcreated hdestroyed =>
    by_cases hk : k = s.created
    · subst hk
      cases hs s.created with
      | future _ hf hd =>
        refine .held p (by omega) (fun q => ?_) (by rw [hdestroyed, hd])
        rw [hhandle, Function.update_apply]
        split
        · next hq => simp [hq]
        · next hq => simp [hq, hf q]
      | held _ hc => omega
      | ended hc => omega
    · refine (hs k).transfer (Equiv.refl _) (fun q => ?_) (by omega) (by rw [hdestroyed])
      rw [hhandle, Function.update_apply, Equiv.refl_apply]
      split
      · next hq => simp [hq, hp, Ne.symm hk]
      · rfl
  | destroy p j hp hhandle hcreated hdestroyed =>
    by_cases hk : k = j
    · subst hk
      cases hs k with
      | future _ hf => exact absurd hp (hf p)
      | ended _ hf => exact absurd hp (hf p)
      | held r hc ho hd =>
        refine .ended (by omega) (fun q => ?_) (by rw [hdestroyed, Function.update_self, hd])
        rw [hhandle, Function.update_apply]
        split
        · simp
        · next hq => rwa [Ne, ho, ← (ho p).mp hp]
    · refine (hs k).transfer (Equiv.refl _) (fun q => ?_) (by omega)
        (by rw [hdestroyed, Function.update_of_ne hk])
      rw [hhandle, Function.update_apply, Equiv.refl_apply]
      split
      · next hq => simp [hq, hp, Ne.symm hk]
      · rfl

/-- In every state that operations pass through, no two generators hold one coroutine, each coroutine
that has been created is held by one generator and not destroyed, or held by none and destroyed once,
and what a generator holds has been created and is not destroyed. -/
theorem owned_of_reached (ops : List (Op V))
    (h : Reached Step .empty (ops.flatMap Op.prims) s) :
    (∀ p q k, s.handle p = some k → s.handle q = some k → p = q) ∧
      (∀ k, k < s.created →
        (∃ p, ∀ q, s.handle q = some k ↔ q = p) ∧ s.destroyed k = 0 ∨
        (∀ p, s.handle p ≠ some k) ∧ s.destroyed k = 1) ∧
      ∀ p k, s.handle p = some k → k < s.created ∧ s.destroyed k = 0 := by
  have hs : ∀ k, Ledger s k := by
    refine h.inv (C := fun _ _ => True) (fun _ _ _ hs _ hstep => Ledger.step hs hstep) ?_
      Ledger.empty
    exact fun _ _ _ _ _ _ => trivial
  refine ⟨fun p q k hp hq => ?_, fun k hk => ?_, fun p k hp => ?_⟩
  · cases hs k with
    | future _ hf => exact absurd hp (hf p)
    | ended _ hf => exact absurd hp (hf p)
    | held r _ ho => exact ((ho p).mp hp).trans ((ho q).mp hq).symm
  · cases hs k with
    | future hc => omega
    | held r _ ho hd => exact .inl ⟨⟨r, ho⟩, hd⟩
    | ended _ hf hd => exact .inr ⟨hf, hd⟩
  · cases hs k with
    | future _ hf => exact absurd hp (hf p)
    | ended _ hf => exact absurd hp (hf p)
    | held _ hc _ hd => exact ⟨hc, hd⟩

/-- A generator assigned to itself, and one assigned over another. -/
theorem owned_of_reached_sample : ∃ s, Reached Step (.empty : State Nat)
      ([.create 0, .create 1, .assign 0 0, .assign 0 1].flatMap Op.prims) s ∧
    (∃ p, ∀ q, s.handle q = some 1 ↔ q = p) ∧ ∀ p, s.handle p ≠ some 0 := by
  have hrun : ∃ s, Run Step (.empty : State Nat)
      [.create (.var 0), .create (.var 1),
        .moveConstruct .other (.var 0), .swap (.var 0) .other, .destroy .other,
        .moveConstruct .other (.var 1), .swap (.var 0) .other, .destroy .other] s ∧
      s.created = 2 ∧ s.destroyed 0 = 1 ∧ s.destroyed 1 = 0 :=
    ⟨_, .cons rfl (.cons rfl (.cons rfl (.cons rfl (.cons rfl (.cons rfl (.cons rfl
      (.cons rfl .nil))))))), rfl, rfl, rfl⟩
  obtain ⟨s, hrun, hcreated, h0, h1⟩ := hrun
  have hreached : Reached Step (.empty : State Nat)
      ([.create 0, .create 1, .assign 0 0, .assign 0 1].flatMap Op.prims) s :=
    ⟨_, [], (List.append_nil _).symm, hrun⟩
  obtain ⟨-, howned, -⟩ := owned_of_reached _ hreached
  refine ⟨s, hreached, ?_, ?_⟩
  · rcases howned 1 (by omega) with ⟨h, -⟩ | ⟨-, h⟩
    · exact h
    · omega
  · rcases howned 0 (by omega) with ⟨-, h⟩ | ⟨h, -⟩
    · omega
    · exact h

/-! ## Operations within lifetimes -/

theorem step_create (hp : s.generators p = none) : ∃ s', Step s (.create p) s' ∧
    s'.generators = Function.update s.generators p (some ⟨some s.created⟩) := by
  simp [Step, Prim.apply, hp]

theorem step_moveConstruct {g : Generator Nat} (hp : s.generators p = none)
    (hq : s.generators q = some g) : ∃ s', Step s (.moveConstruct p q) s' ∧
      s'.generators = Function.update
        (Function.update s.generators p (some ⟨g.coroutine⟩)) q (some ⟨none⟩) := by
  simp [Step, Prim.apply, hp, hq]

theorem step_swap {g g' : Generator Nat} (hp : s.generators p = some g)
    (hq : s.generators q = some g') : ∃ s', Step s (.swap p q) s' ∧
      s'.generators = Function.update
        (Function.update s.generators p (some ⟨g'.coroutine⟩)) q (some ⟨g.coroutine⟩) := by
  simp [Step, Prim.apply, hp, hq]

theorem step_destroy {g : Generator Nat} (hp : s.generators p = some g) :
    ∃ s', Step s (.destroy p) s' ∧ s'.generators = Function.update s.generators p none := by
  simp [Step, Prim.apply, hp]

/-- What `operator=` does once its parameter is made. -/
theorem exists_run_swap_destroy {x : V} {g g' : Generator Nat}
    (hx : s.generators (.var x) = some g) (hother : s.generators .other = some g') :
    ∃ s', Run Step s [.swap (.var x) .other, .destroy .other] s' ∧
      s'.generators .other = none := by
  obtain ⟨s₁, hswap, hs₁⟩ := step_swap hx hother
  have hother₁ : s₁.generators .other = some ⟨g.coroutine⟩ := by simp [hs₁]
  obtain ⟨s₂, hdestroy, hs₂⟩ := step_destroy hother₁
  exact ⟨s₂, .cons hswap (.cons hdestroy .nil), by simp [hs₂]⟩

/-- An operation whose variables are alive as it needs them is carried out, and the parameter of an
assignment does not outlive it. -/
theorem exists_run {op : Op V} (hother : s.generators .other = none) (h : op.Allowed s) :
    ∃ s', Run Step s op.prims s' ∧ s'.generators .other = none := by
  cases op with
  | create x =>
    obtain ⟨s', hs', hgenerators⟩ := step_create h
    exact ⟨s', .cons hs' .nil, by simpa [hgenerators] using hother⟩
  | moveConstruct x y =>
    obtain ⟨hx, hy⟩ := h
    obtain ⟨g, hy⟩ := Option.isSome_iff_exists.mp hy
    obtain ⟨s', hs', hgenerators⟩ := step_moveConstruct hx hy
    exact ⟨s', .cons hs' .nil, by simpa [hgenerators] using hother⟩
  | assign x y =>
    obtain ⟨hx, hy⟩ := h
    obtain ⟨g', hy⟩ := Option.isSome_iff_exists.mp hy
    obtain ⟨s₁, hmove, hs₁⟩ := step_moveConstruct hother hy
    have hother₁ : s₁.generators .other = some ⟨g'.coroutine⟩ := by simp [hs₁]
    have hx₁ : (s₁.generators (.var x)).isSome := by
      rw [hs₁, Function.update_apply]
      split
      · rfl
      · simpa using hx
    obtain ⟨g, hx₁⟩ := Option.isSome_iff_exists.mp hx₁
    obtain ⟨s', hrun, hs'⟩ := exists_run_swap_destroy hx₁ hother₁
    exact ⟨s', .cons hmove hrun, hs'⟩
  | assignCreate x =>
    obtain ⟨g, hx⟩ := Option.isSome_iff_exists.mp h
    obtain ⟨s₁, hcreate, hs₁⟩ := step_create hother
    have hother₁ : s₁.generators .other = some ⟨some s.created⟩ := by simp [hs₁]
    have hx₁ : s₁.generators (.var x) = some g := by simpa [hs₁] using hx
    obtain ⟨s', hrun, hs'⟩ := exists_run_swap_destroy hx₁ hother₁
    exact ⟨s', .cons hcreate hrun, hs'⟩
  | swap x y =>
    obtain ⟨hx, hy⟩ := h
    obtain ⟨g, hx⟩ := Option.isSome_iff_exists.mp hx
    obtain ⟨g', hy⟩ := Option.isSome_iff_exists.mp hy
    obtain ⟨s', hs', hgenerators⟩ := step_swap hx hy
    exact ⟨s', .cons hs' .nil, by simpa [hgenerators] using hother⟩
  | destroy x =>
    obtain ⟨g, hx⟩ := Option.isSome_iff_exists.mp h
    obtain ⟨s', hs', hgenerators⟩ := step_destroy hx
    exact ⟨s', .cons hs' .nil, by simpa [hgenerators] using hother⟩

end

end Ownership

end LlvmSc
