import LlvmSc.Builder.Operand

/-!
# Returns

`ret` asks `functions.back()` whether it returns a value, and the return is inserted at the insertion
point, which may be in a block of another function. Along a run the returns match the functions they
are inserted into exactly if, where a `ret` is applied, both functions agree on it (`returns_iff`).
-/

namespace LlvmSc.Builder

variable {V T : Type} [DecidableEq T]

/-- The return that the action emits carries a value iff the function that owns its block returns
one. -/
def Returns (L : LLVM V T) (s : State V T) (a : Action V T) : Prop :=
  ∀ val b f s', a = .ret val → s.insertBlock = some b → b.parent = some f →
    apply L a s = .ok () s' → ∃ i w, s'.ir.created.head? = some (some b, i, w) ∧
      ((∃ v, i = .ret v) ↔ L.isVoidTy f.type.returnType = false)

/-- `functions.back()` returns a value iff the function that owns the insertion block does. -/
def LastMatches (L : LLVM V T) (s : State V T) (a : Action V T) : Prop :=
  ∀ val b f, a = .ret val → s.insertBlock = some b → b.parent = some f →
    (∃ s', apply L a s = .ok () s') → ∀ fn, s.functions.head? = some fn →
      L.isVoidTy fn.type.returnType = L.isVoidTy f.type.returnType

section
variable {L : LLVM V T} {s s' : State V T}

/-- What `ret` emits, and where. -/
theorem apply_ret (h : apply L (.ret val) s = .ok () s') :
    ∃ fn i w, s.functions.head? = some fn ∧ s'.ir.created.head? = some (s.insertBlock, i, w) ∧
      ((∃ v, i = .ret v) ↔ L.isVoidTy fn.type.returnType = false) := by
  cases hs : s.functions with
  | nil => cases (apply_ret_nil hs).symm.trans h
  | cons fn functions =>
    cases hvoid : L.isVoidTy fn.type.returnType with
    | true =>
      cases val with
      | some v => cases (apply_ret_void_some hs hvoid).symm.trans h
      | none =>
        cases (apply_ret_void hs hvoid).symm.trans h
        exact ⟨fn, .retVoid, _, rfl, rfl, by simp [hvoid]⟩
    | false =>
      rw [apply_ret_value hs hvoid] at h
      obtain ⟨v, s₁, hv, h⟩ := EStateM.bind_eq_ok.1 h
      obtain ⟨stack, rfl⟩ := popvalue_ok hv
      cases h
      exact ⟨fn, .ret v, _, rfl, rfl, by simp [hvoid]⟩

theorem returns_step (a : Action V T) : Returns L s a ↔ LastMatches L s a := by
  constructor
  · rintro h val b f rfl hb hf ⟨s', hs'⟩ fn hfn
    obtain ⟨i, w, hi, hreturn⟩ := h val b f s' rfl hb hf hs'
    obtain ⟨fn', i', w', hfn', hi', hreturn'⟩ := apply_ret hs'
    rw [hb] at hi'
    cases hfn.symm.trans hfn'
    cases hi.symm.trans hi'
    have hiff := hreturn'.symm.trans hreturn
    exact Bool.eq_iff_iff.2 (by simpa using not_congr hiff)
  · rintro h val b f s' rfl hb hf hs'
    obtain ⟨fn, i, w, hfn, hi, hreturn⟩ := apply_ret hs'
    rw [h val b f rfl hb hf ⟨s', hs'⟩ fn hfn] at hreturn
    exact ⟨i, w, by rw [hi, hb], hreturn⟩

/-- Along a run the returns match their functions exactly if the last function matches the one of the
insertion block at every `ret`. -/
theorem returns_iff (L : LLVM V T) (s : State V T) (as : List (Action V T)) :
    Along (Step L) (Returns L) s as ↔ Along (Step L) (LastMatches L) s as :=
  Along.congr (I := fun _ => True) (fun _ a _ => returns_step a) (fun _ _ _ _ _ _ => trivial) trivial

end

/-- A function that returns nothing, its block, and another function that returns a value. -/
theorem not_returns : ¬ Along (Step .integers) (Returns .integers) .init
    [.createFunction "f" true [] false, .createBlock "a", .createFunction "g" false [] false, .push 1,
      .ret none] := by
  intro h
  have hrun : Run (Step .integers) .init [.createFunction "f" true [] false, .createBlock "a",
      .createFunction "g" false [] false, .push 1] _ := run_iff.1 rfl
  obtain ⟨i, w, hi, hreturn⟩ := h _ (.ret none) [] _ rfl hrun none _ _ _ rfl rfl rfl rfl
  cases hi
  exact absurd (hreturn.1 ⟨1, rfl⟩) (by decide)

end LlvmSc.Builder
