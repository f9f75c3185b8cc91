import Mathlib.Tactic.Common

/-!
# Runs of a labelled transition relation

`Run R s as s'`: the actions `as`, taken one after the other from `s`, lead to `s'`. `Along R C s
as` says that every action is taken in a state in which `C` holds of it. Invariants are carried
along runs by `Run.inv`, and `Along.congr` replaces one condition on the actions by another that is
equivalent to it under an invariant. `Along.run_flatMap` replaces actions by lists of actions.
`Recorded` keeps a record of the actions beside the state.
-/

universe u v

variable {σ : Type u} {α : Type v}

inductive Run (R : σ → α → σ → Prop) : σ → List α → σ → Prop
  | nil : Run R s [] s
  | cons : R s a s' → Run R s' as s'' → Run R s (a :: as) s''

/-- Every action of the run that is taken at all is taken in a state in which `C` holds of it. -/
def Along (R : σ → α → σ → Prop) (C : σ → α → Prop) (s : σ) (as : List α) : Prop :=
  ∀ pre a post s', as = pre ++ a :: post → Run R s pre s' → C s' a

/-- The states that the run passes through, the first and the last one included. -/
def Reached (R : σ → α → σ → Prop) (s : σ) (as : List α) (s' : σ) : Prop :=
  ∃ pre post, as = pre ++ post ∧ Run R s pre s'

variable {R : σ → α → σ → Prop} {C P : σ → α → Prop} {I : σ → Prop}

namespace Run

theorem nil_iff : Run R s [] s' ↔ s' = s := by
  constructor
  · intro h
    cases h
    rfl
  · rintro rfl
    exact .nil

theorem cons_iff : Run R s (a :: as) s'' ↔ ∃ s', R s a s' ∧ Run R s' as s'' := by
  constructor
  · intro h
    cases h with
    | cons ha has => exact ⟨_, ha, has⟩
  · rintro ⟨s', ha, has⟩
    exact .cons ha has

theorem append_iff : Run R s (as ++ bs) s'' ↔ ∃ s', Run R s as s' ∧ Run R s' bs s'' := by
  induction as generalizing s with
  | nil => simp [nil_iff]
  | cons a as ih =>
    simp only [List.cons_append, cons_iff, ih]
    constructor
    · rintro ⟨m, ha, s', has, hbs⟩
      exact ⟨s', ⟨m, ha, has⟩, hbs⟩
    · rintro ⟨s', ⟨m, ha, has⟩, hbs⟩
      exact ⟨m, ha, s', has, hbs⟩

end Run

namespace Along

theorem nil : Along R C s [] := fun _ _ _ _ h => by simp at h

theorem cons_iff : Along R C s (a :: as) ↔ C s a ∧ ∀ s', R s a s' → Along R C s' as := by
  constructor
  · intro h
    refine ⟨h [] a as s rfl .nil, fun s' ha pre b post s'' has hpre => ?_⟩
    exact h (a :: pre) b post s'' (by rw [has]; rfl) (.cons ha hpre)
  · rintro ⟨h, htail⟩ pre b post s'' has hpre
    cases pre with
    | nil =>
      cases has
      cases hpre
      exact h
    | cons c pre =>
      cases has
      obtain ⟨s', hc, hpre⟩ := Run.cons_iff.1 hpre
      exact htail s' hc pre b post s'' rfl hpre

theorem mono (h : Along R C s as) (k : ∀ s a, C s a → P s a) : Along R P s as :=
  fun pre a post s' has hpre => k s' a (h pre a post s' has hpre)

/-- Conditions that are equivalent under an invariant, on actions in `Q`, hold along the same runs
of such actions, if either keeps the invariant. -/
theorem congr_of_forall {Q : α → Prop} (hC : ∀ s a, Q a → I s → (P s a ↔ C s a))
    (hI : ∀ s a s', Q a → I s → C s a → R s a s' → I s') (has : ∀ a ∈ as, Q a) (h0 : I s) :
    Along R P s as ↔ Along R C s as := by
  induction as generalizing s with
  | nil => exact ⟨fun _ => nil, fun _ => nil⟩
  | cons a as ih =>
    have ha := has a List.mem_cons_self
    have has' := fun b hb => has b (List.mem_cons_of_mem a hb)
    rw [cons_iff, cons_iff, hC s a ha h0]
    constructor
    · rintro ⟨hc, hrest⟩
      exact ⟨hc, fun s' hs' => (ih has' (hI s a s' ha h0 hc hs')).1 (hrest s' hs')⟩
    · rintro ⟨hc, hrest⟩
      exact ⟨hc, fun s' hs' => (ih has' (hI s a s' ha h0 hc hs')).2 (hrest s' hs')⟩

theorem congr (hC : ∀ s a, I s → (P s a ↔ C s a)) (hI : ∀ s a s', I s → C s a → R s a s' → I s')
    (h0 : I s) : Along R P s as ↔ Along R C s as :=
  congr_of_forall (Q := fun _ => True) (fun s a _ => hC s a) (fun s a s' _ => hI s a s')
    (fun _ _ => trivial) h0

end Along

/-- An invariant of the actions that satisfy a condition holds after a run along which they do. -/
theorem Run.inv (hI : ∀ s a s', I s → C s a → R s a s' → I s') (h : Run R s as s')
    (hC : Along R C s as) (h0 : I s) : I s' := by
  induction h with
  | nil => exact h0
  | cons ha _ ih =>
    obtain ⟨hc, hrest⟩ := Along.cons_iff.1 hC
    exact ih (hrest _ ha) (hI _ _ _ h0 hc ha)

theorem Reached.inv (hI : ∀ s a s', I s → C s a → R s a s' → I s') (h : Reached R s as s')
    (hC : Along R C s as) (h0 : I s) : I s' := by
  obtain ⟨pre, post, rfl, hrun⟩ := h
  refine hrun.inv hI (fun l a r m hl hm => ?_) h0
  exact hC l a (r ++ post) m (by rw [hl]; simp) hm

/-- If every action does what the list that it is replaced by does, then so does the run. -/
theorem Along.run_flatMap {t : α → List α}
    (h : ∀ s a s', C s a → (R s a s' ↔ Run R s (t a) s')) (hC : Along R C s as) :
    Run R s as s' ↔ Run R s (as.flatMap t) s' := by
  induction as generalizing s with
  | nil => rfl
  | cons a as ih =>
    obtain ⟨hc, hrest⟩ := Along.cons_iff.1 hC
    rw [List.flatMap_cons, Run.cons_iff, Run.append_iff]
    constructor
    · rintro ⟨s₁, ha, has⟩
      exact ⟨s₁, (h s a s₁ hc).1 ha, (ih (hrest s₁ ha)).1 has⟩
    · rintro ⟨s₁, ha, has⟩
      have ha := (h s a s₁ hc).2 ha
      exact ⟨s₁, ha, (ih (hrest s₁ ha)).2 has⟩

/-! ## Records -/

/-- The transitions with a record of them, which `f` keeps. -/
def Recorded (R : σ → α → σ → Prop) (f : σ → α → γ → γ) (p : σ × γ) (a : α) (p' : σ × γ) : Prop :=
  R p.1 a p'.1 ∧ p'.2 = f p.1 a p.2

section
variable {γ : Type u} {f : σ → α → γ → γ} {p p' : σ × γ}

theorem Run.of_recorded (h : Run (Recorded R f) p as p') : Run R p.1 as p'.1 := by
  induction h with
  | nil => exact .nil
  | cons ha _ ih => exact .cons ha.1 ih

theorem Run.cons_recorded (ha : R s a s') (has : Run (Recorded R f) (s', f s a g) as p') :
    Run (Recorded R f) (s, g) (a :: as) p' :=
  .cons ⟨ha, rfl⟩ has

theorem Run.recorded (h : Run R s as s') (g : γ) : ∃ g', Run (Recorded R f) (s, g) as (s', g') := by
  induction h generalizing g with
  | nil => exact ⟨g, .nil⟩
  | @cons s a s' as s'' ha _ ih =>
    obtain ⟨g', hrest⟩ := ih (f s a g)
    exact ⟨g', .cons ⟨ha, rfl⟩ hrest⟩

theorem Along.recorded_iff :
    Along (Recorded R f) (fun p a => C p.1 a) p as ↔ Along R C p.1 as := by
  constructor
  · intro h pre a post s' has hpre
    obtain ⟨g', hrun⟩ := hpre.recorded (f := f) p.2
    exact h pre a post (s', g') has hrun
  · intro h pre a post p' has hpre
    exact h pre a post p'.1 has hpre.of_recorded

end
