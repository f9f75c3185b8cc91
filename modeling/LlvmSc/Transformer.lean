import LlvmSc.Lib.EState
import Mathlib.Data.Option.Basic

/-!
# Transformers

The `LLVMTransformer` of `transformer.hpp`: a pointer to an LLVM value with its static class, and
steps that go to an operand or cast. Behind a null pointer, a failed cast and a class without
`getOperand` the rest of the chain is null. The index of an operand is not compared with the number
of operands, so a chain gives what it leads to exactly if no step asks a value for an operand that
it does not have (`chain_eq_reach_iff`).
-/

namespace LlvmSc.Transformer

inductive Fault where
  /-- A null pointer is dereferenced. -/
  | nullPointer
  | outOfRange
  deriving DecidableEq, Repr

abbrev M := Except Fault

/-- A graph of LLVM values `N`, seen through the classes `C`. -/
structure Values (C N : Type) where
  operands : N → List (Option N)
  isa : C → N → Bool
  /-- The class that `getOperand` of a class points to; `none` if the class has no `getOperand`. -/
  getOperandClass : C → Option C

namespace Values

variable (g : Values C N)

/-- `v->getOperand(idx)` -/
def getOperand (idx : Nat) : Option N → M (Option N)
  | none => throw .nullPointer
  | some v =>
    match (g.operands v)[idx]? with
    | none => throw .outOfRange
    | some w => pure w

/-- `llvm::dyn_cast` -/
def dynCast (T : C) : Option N → M (Option N)
  | none => throw .nullPointer
  | some v => pure (if g.isa T v then some v else none)

end Values

/-- A pointer `state` to the class `Value`. -/
structure LLVMTransformer (C N : Type) where
  Value : C
  state : Option N
  deriving DecidableEq, Repr

namespace LLVMTransformer

/-- `apply`; the function returns a pointer to the class `R`. -/
def apply (t : LLVMTransformer C N) (R : C) (f : Option N → M (Option N)) :
    M (LLVMTransformer C N) := do
  if t.state.isSome then return ⟨R, ← f t.state⟩
  return ⟨R, none⟩

def operand (t : LLVMTransformer C N) (g : Values C N) (idx : UInt32) :
    M (LLVMTransformer C N) :=
  match g.getOperandClass t.Value with
  | some R => t.apply R (g.getOperand idx.toNat)
  | none => pure ⟨t.Value, none⟩

def cast (t : LLVMTransformer C N) (g : Values C N) (T : C) : M (LLVMTransformer C N) :=
  t.apply T (g.dynCast T)

def freeze (t : LLVMTransformer C N) : Option N := t.state

end LLVMTransformer

def transformer (c : C) (val : Option N) : LLVMTransformer C N := ⟨c, val⟩

/-! ## Chains -/

inductive Step (C : Type) where
  | operand (idx : UInt32)
  | cast (T : C)

namespace Step

variable (g : Values C N) (c : C)

def apply (t : LLVMTransformer C N) : Step C → M (LLVMTransformer C N)
  | operand idx => t.operand g idx
  | cast T => t.cast g T

/-- The class behind the step. -/
def class_ : Step C → C
  | operand _ => (g.getOperandClass c).getD c
  | cast T => T

/-- Where the step leads from a value; `none` where it is not applicable. -/
def target (v : N) : Step C → Option N
  | operand idx => if (g.getOperandClass c).isSome then (g.operands v)[idx.toNat]?.join else none
  | cast T => if g.isa T v then some v else none

/-- If the step goes to an operand, the value has it. -/
def InRange (v : Option N) (s : Step C) : Prop :=
  ∀ idx, s = operand idx → (g.getOperandClass c).isSome →
    ∀ n, v = some n → idx.toNat < (g.operands n).length

end Step

namespace Values

/-- A transformer with a chain of steps behind it. -/
def chain (g : Values C N) (t : LLVMTransformer C N) : List (Step C) → M (LLVMTransformer C N)
  | [] => pure t
  | s :: steps => do chain g (← s.apply g t) steps

/-- The value that a chain leads to; null from the first step on that is not applicable. -/
def reach (g : Values C N) (c : C) (v : Option N) : List (Step C) → Option N
  | [] => v
  | s :: steps => reach g (s.class_ g c) (v.bind (s.target g c)) steps

/-- The class behind a chain. -/
def class_ (g : Values C N) (c : C) : List (Step C) → C
  | [] => c
  | s :: steps => class_ g (s.class_ g c) steps

/-- Every value that the chain asks for an operand has it. -/
def InRange (g : Values C N) (c : C) (v : Option N) (steps : List (Step C)) : Prop :=
  ∀ pre s post, steps = pre ++ s :: post → s.InRange g (g.class_ c pre) (g.reach c v pre)

end Values

section
variable {g : Values C N} {c : C} {v : Option N} {s : Step C} {steps : List (Step C)}

@[simp] theorem LLVMTransformer.freeze_mk : LLVMTransformer.freeze ⟨c, v⟩ = v := rfl

@[simp] theorem LLVMTransformer.apply_none {f : Option N → M (Option N)} :
    LLVMTransformer.apply ⟨c, none⟩ R f = .ok ⟨R, none⟩ := rfl

theorem LLVMTransformer.apply_some {f : Option N → M (Option N)} :
    LLVMTransformer.apply ⟨c, some n⟩ R f = (f (some n)).map (LLVMTransformer.mk R) := by
  cases hf : f (some n) <;> simp [LLVMTransformer.apply, hf] <;> rfl

theorem LLVMTransformer.operand_eq (h : g.getOperandClass c = some R) :
    LLVMTransformer.operand ⟨c, v⟩ g idx =
      LLVMTransformer.apply ⟨c, v⟩ R (g.getOperand idx.toNat) := by
  simp [LLVMTransformer.operand, h]

theorem LLVMTransformer.operand_none (h : g.getOperandClass c = none) :
    LLVMTransformer.operand ⟨c, v⟩ g idx = .ok ⟨c, none⟩ := by
  simp [LLVMTransformer.operand, h]
  rfl

theorem Values.getOperand_of_lt {idx : Nat} (h : idx < (g.operands n).length) :
    g.getOperand idx (some n) = .ok (g.operands n)[idx]?.join := by
  simp [Values.getOperand, h]
  rfl

theorem Values.getOperand_of_le {idx : Nat} (h : (g.operands n).length ≤ idx) :
    g.getOperand idx (some n) = .error .outOfRange := by
  simp [Values.getOperand, h]
  rfl

@[simp] theorem Step.inRange_cast : (Step.cast T).InRange g c v := by
  intro idx h
  cases h

@[simp] theorem Step.inRange_operand : (Step.operand idx).InRange g c v ↔
    ((g.getOperandClass c).isSome → ∀ n, v = some n → idx.toNat < (g.operands n).length) := by
  simp [Step.InRange]

theorem Step.apply_ok (h : s.InRange g c v) :
    s.apply g ⟨c, v⟩ = .ok ⟨s.class_ g c, v.bind (s.target g c)⟩ := by
  cases s with
  | cast T => cases v <;> rfl
  | operand idx =>
    cases hR : g.getOperandClass c with
    | none =>
      have hnone : v.bind ((operand idx).target g c) = none := by cases v <;> simp [target, hR]
      simp [Step.apply, LLVMTransformer.operand_none hR, hnone, class_, hR]
    | some R =>
      rw [Step.apply, LLVMTransformer.operand_eq hR]
      cases v with
      | none => simp [class_, hR]
      | some n =>
        have hlt := h idx rfl (by simp [hR]) n rfl
        rw [LLVMTransformer.apply_some, Values.getOperand_of_lt hlt]
        simp [class_, target, hR, Except.map]

theorem Step.apply_error (h : ¬ s.InRange g c v) : s.apply g ⟨c, v⟩ = .error .outOfRange := by
  simp only [Step.InRange, not_forall, Nat.not_lt] at h
  obtain ⟨idx, rfl, hR, n, rfl, hle⟩ := h
  obtain ⟨R, hR⟩ := Option.isSome_iff_exists.mp hR
  rw [Step.apply, LLVMTransformer.operand_eq hR, LLVMTransformer.apply_some,
    Values.getOperand_of_le hle]
  rfl

namespace Values

@[simp] theorem inRange_nil : g.InRange c v [] := by
  intro pre s post h
  cases pre <;> cases h

theorem inRange_cons : g.InRange c v (s :: steps) ↔
    s.InRange g c v ∧ g.InRange (s.class_ g c) (v.bind (s.target g c)) steps := by
  constructor
  · intro h
    refine ⟨h [] s steps rfl, ?_⟩
    intro pre s' post heq
    exact h (s :: pre) s' post (by rw [heq, List.cons_append])
  · intro ⟨hs, hsteps⟩ pre s' post heq
    cases pre with
    | nil =>
      cases heq
      exact hs
    | cons p pre =>
      cases heq
      exact hsteps pre s' post rfl

theorem chain_ok (h : g.InRange c v steps) :
    g.chain ⟨c, v⟩ steps = .ok ⟨g.class_ c steps, g.reach c v steps⟩ := by
  induction steps generalizing c v with
  | nil => rfl
  | cons s steps ih =>
    obtain ⟨hs, hsteps⟩ := inRange_cons.mp h
    rw [chain, Step.apply_ok hs]
    exact ih hsteps

theorem chain_error (h : ¬ g.InRange c v steps) : g.chain ⟨c, v⟩ steps = .error .outOfRange := by
  induction steps generalizing c v with
  | nil => exact absurd inRange_nil h
  | cons s steps ih =>
    by_cases hs : s.InRange g c v
    · rw [chain, Step.apply_ok hs]
      exact ih fun hsteps => h (inRange_cons.mpr ⟨hs, hsteps⟩)
    · rw [chain, Step.apply_error hs]
      rfl

/-- A chain is followed to where it leads, without a fault, exactly if every value that it asks for
an operand has it. -/
theorem chain_eq_reach_iff (g : Values C N) (c : C) (v : Option N) (steps : List (Step C)) :
    (g.chain ⟨c, v⟩ steps).map LLVMTransformer.freeze = .ok (g.reach c v steps) ↔
      g.InRange c v steps := by
  constructor
  · intro h
    by_contra hr
    rw [chain_error hr] at h
    cases h
  · intro h
    rw [chain_ok h]
    rfl

/-- One value, without operands. -/
def leaf : Values Unit Unit where
  operands _ := []
  isa _ _ := true
  getOperandClass := some

theorem leaf_chain_ne : (leaf.chain ⟨(), some ()⟩ [.operand 0]).map LLVMTransformer.freeze ≠
    .ok (leaf.reach () (some ()) [.operand 0]) := by
  intro h
  cases h

end Values

end

end LlvmSc.Transformer
