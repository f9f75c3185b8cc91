import LlvmSc.Builder.Operand
import LlvmSc.Builder.Effect

/-!
# Explicit operands

An operand that an action brings could as well have been pushed before it. `Action.spelled` pushes
the operands before the first absent one, the last of them first, and leaves them out of the action;
where `keep_stack` is off, a run does the same with every action spelled out (`run_spelled`).
-/

namespace LlvmSc.Builder

variable {V T : Type}

/-- The operands before the first absent one. -/
def leading : List (Option V) → List V
  | some v :: os => v :: leading os
  | _ => []

/-- The operands without those. -/
def unsupplied : List (Option V) → List (Option V)
  | some _ :: os => none :: unsupplied os
  | os => os

/-- The action with other operands. -/
def Action.withOperands : Action V T → List (Option V) → Action V T
  | .loadPtr ty _, [from_] => .loadPtr ty from_
  | .store _ _, [val, dst] => .store val dst
  | .bin op _ _, [lhs, rhs] => .bin op lhs rhs
  | .cmp pred _ _, [lhs, rhs] => .cmp pred lhs rhs
  | .cast op _ to_, [val] => .cast op val to_
  | .condbr _ thenbb elsebb, [cond] => .condbr cond thenbb elsebb
  | .call fn _, args => .call fn args
  | .ret _, [val] => .ret val
  | a, _ => a

/-- The leading operands are pushed first. -/
def Action.spelled (a : Action V T) : List (Action V T) :=
  (leading a.operands).reverse.map .push ++ [a.withOperands (unsupplied a.operands)]

def State.pushAll (s : State V T) (vs : List V) : State V T := { s with stack := vs ++ s.stack }

/-- Operands come from the stack, and a void function is not given a value to return. -/
def Spellable (L : LLVM V T) (s : State V T) (a : Action V T) : Prop :=
  s.keepStack = false ∧ ∀ v, a = .ret (some v) → s.nonVoid L = true

section
variable {s s' : State V T}

/-- A value on top of the stack is the next operand. -/
theorem popvalue_pushed (hk : s.keepStack = false) (v : V) (vs : List V) :
    popvalue none (s.pushAll (v :: vs)) = .ok v (s.pushAll vs) :=
  popvalue_pop (s := s.pushAll (v :: vs)) hk

theorem popvalue_some (v : V) : popvalue (some v) s = .ok v s := rfl

/-- Both operands of an action. -/
theorem popvalue_unsupplied (hk : s.keepStack = false) (l r : Option V) {f : V → V → M V T α} :
    ∃ l' r', unsupplied [l, r] = [l', r'] ∧
      (do let v ← popvalue l'; let w ← popvalue r'; f v w) (s.pushAll (leading [l, r])) =
        (do let v ← popvalue l; let w ← popvalue r; f v w) s := by
  cases l with
  | none => exact ⟨none, r, rfl, rfl⟩
  | some l =>
    cases r with
    | none =>
      refine ⟨none, none, rfl, ?_⟩
      exact (EStateM.bind_ok (popvalue_pushed hk l [])).trans rfl
    | some r =>
      refine ⟨none, none, rfl, ?_⟩
      refine (EStateM.bind_ok (popvalue_pushed hk l [r])).trans ?_
      exact (EStateM.bind_ok (popvalue_pushed hk r [])).trans rfl

/-- The operand of an action that has one. -/
theorem popvalue_unsupplied_one (hk : s.keepStack = false) (o : Option V) {f : V → M V T α} :
    ∃ o', unsupplied [o] = [o'] ∧
      (popvalue o' >>= f) (s.pushAll (leading [o])) = (popvalue o >>= f) s := by
  cases o with
  | none => exact ⟨none, rfl, rfl⟩
  | some v => exact ⟨none, rfl, (EStateM.bind_ok (popvalue_pushed hk v [])).trans rfl⟩

variable {L : LLVM V T}

theorem nonVoid_iff : s.nonVoid L = true ↔
    ∃ fn functions, s.functions = fn :: functions ∧ L.isVoidTy fn.type.returnType = false := by
  unfold State.nonVoid
  cases s.functions with
  | nil => simp
  | cons fn functions => simp

variable [DecidableEq T]

/-- An argument of a call that has been popped, and those behind it. -/
def argument (L : LLVM V T) (before : Nat) (fn : FunctionCallee V T) (idx : Nat)
    (args : List (Option V)) (v : V) : M V T (List V) := do
  let to_ ← functionArgumentType fn idx
  let a ← castArgument L before idx v to_
  return a :: (← callArgs L before fn (idx + 1) args)

theorem callArgs_cons (before : Nat) (fn : FunctionCallee V T) (idx : Nat) (arg : Option V)
    (args : List (Option V)) :
    callArgs L before fn idx (arg :: args) = popvalue arg >>= argument L before fn idx args := rfl

/-- The arguments of a call; an argument without a parameter leaves the others on the stack. -/
theorem callArgs_unsupplied {fn : FunctionCallee V T} {args : List (Option V)} {vs : List V}
    (hk : s.keepStack = false) (before idx : Nat) :
    callArgs L before fn idx (unsupplied args) (s.pushAll (leading args)) = .ok vs s' ↔
      callArgs L before fn idx args s = .ok vs s' := by
  induction args generalizing idx s s' vs with
  | nil => rfl
  | cons arg args ih =>
    cases arg with
    | none => rfl
    | some v =>
      change callArgs L before fn idx (none :: unsupplied args) (s.pushAll (v :: leading args)) = _
        ↔ _
      -- both are left with `v`, and cast it to the same type
      have hpushed := EStateM.bind_ok (f := argument L before fn idx (unsupplied args))
        (popvalue_pushed hk v (leading args))
      have hgiven := EStateM.bind_ok (f := argument L before fn idx args) (popvalue_some (s := s) v)
      rw [callArgs_cons, callArgs_cons, hpushed, hgiven]
      cases hto : fn.type.params[idx]? with
      | none =>
        have herr (args : List (Option V)) (s : State V T) :
            argument L before fn idx args v s = .error .paramIndex s :=
          EStateM.bind_error (by rw [functionArgumentType, hto]; rfl)
        simp [herr]
      | some to_ =>
        obtain ⟨is, hcast⟩ := castArgument_emit (L := L) before idx v to_
        have hok (args : List (Option V)) (s : State V T) : argument L before fn idx args v s =
            (do return castTo L before idx v to_ :: (← callArgs L before fn (idx + 1) args))
              (s.emit is) := by
          have hto : functionArgumentType fn idx s = .ok to_ s := by
            rw [functionArgumentType, hto]
            rfl
          exact (EStateM.bind_ok hto).trans (EStateM.bind_ok (hcast s))
        rw [hok, hok, EStateM.bind_eq_ok, EStateM.bind_eq_ok]
        constructor
        · rintro ⟨bs, s₁, hbs, h⟩
          exact ⟨bs, s₁, (ih (s := s.emit is) hk (idx + 1)).1 hbs, h⟩
        · rintro ⟨bs, s₁, hbs, h⟩
          exact ⟨bs, s₁, (ih (s := s.emit is) hk (idx + 1)).2 hbs, h⟩

/-! ## Actions and runs -/

/-- The action finds its operands on the stack. -/
theorem apply_unsupplied {a : Action V T} (h : Spellable L s a) :
    Step L (s.pushAll (leading a.operands)) (a.withOperands (unsupplied a.operands)) s' ↔
      Step L s a s' := by
  obtain ⟨hk, hret⟩ := h
  unfold Step
  cases a with
  | loadPtr ty from_ =>
    obtain ⟨o, ho, heq⟩ := popvalue_unsupplied_one hk from_
      (f := fun p => create L s.site (.load ty p) >>= push)
    simp only [Action.operands, ho]
    exact Iff.of_eq (congrArg (· = _) heq)
  | store val dst =>
    obtain ⟨v, d, hvd, heq⟩ := popvalue_unsupplied hk val dst
      (f := fun v d => do let _ ← create L s.site (.store v d))
    simp only [Action.operands, hvd]
    exact Iff.of_eq (congrArg (· = _) heq)
  | bin op lhs rhs =>
    obtain ⟨l, r, hlr, heq⟩ := popvalue_unsupplied hk lhs rhs
      (f := fun l r => create L s.site (.bin op l r) >>= push)
    simp only [Action.operands, hlr]
    exact Iff.of_eq (congrArg (· = _) heq)
  | cmp pred lhs rhs =>
    obtain ⟨l, r, hlr, heq⟩ := popvalue_unsupplied hk lhs rhs
      (f := fun l r => create L s.site (.cmp pred l r) >>= push)
    simp only [Action.operands, hlr]
    exact Iff.of_eq (congrArg (· = _) heq)
  | cast op val to_ =>
    obtain ⟨o, ho, heq⟩ := popvalue_unsupplied_one hk val
      (f := fun v => create L s.site (.cast op v to_) >>= push)
    simp only [Action.operands, ho]
    exact Iff.of_eq (congrArg (· = _) heq)
  | condbr cond thenbb elsebb =>
    obtain ⟨o, ho, heq⟩ := popvalue_unsupplied_one hk cond
      (f := fun v => create L s.site (.condbr v thenbb elsebb) >>= push)
    simp only [Action.operands, ho]
    exact Iff.of_eq (congrArg (· = _) heq)
  | call fn args =>
    change (callArgs L s.ir.created.length fn 0 (unsupplied args) >>= fun args =>
        create L s.site (.call fn args) >>= push) (s.pushAll (leading args)) = _ ↔
      (callArgs L s.ir.created.length fn 0 args >>= fun args =>
        create L s.site (.call fn args) >>= push) s = _
    rw [EStateM.bind_eq_ok, EStateM.bind_eq_ok]
    simp only [callArgs_unsupplied hk]
  | ret val =>
    cases val with
    | none => rfl
    | some v =>
      obtain ⟨fn, functions, hfns, hvoid⟩ := nonVoid_iff.1 (hret v rfl)
      change apply L (.ret none) (s.pushAll [v]) = _ ↔ _
      rw [apply_ret_value (s := s.pushAll [v]) hfns hvoid, apply_ret_value hfns hvoid,
        EStateM.bind_ok (popvalue_pushed hk v []), EStateM.bind_ok (popvalue_some v)]
      rfl
  | _ => rfl

/-- The values are pushed one after the other. -/
theorem run_pushes (vs : List V) (a : Action V T) :
    Run (Step L) s (vs.reverse.map .push ++ [a]) s' ↔ Step L (s.pushAll vs) a s' := by
  induction vs generalizing a s' with
  | nil =>
    rw [List.reverse_nil, List.map_nil, List.nil_append, Run.cons_iff]
    simp only [Run.nil_iff]
    constructor
    · rintro ⟨_, h, rfl⟩
      exact h
    · exact fun h => ⟨s', h, rfl⟩
  | cons v vs ih =>
    rw [List.reverse_cons, List.map_append, Run.append_iff]
    have hpush (s₁ : State V T) :
        Run (Step L) s (vs.reverse.map .push ++ [.push v]) s₁ ↔ s₁ = s.pushAll (v :: vs) := by
      rw [ih]
      constructor
      · intro h
        cases h
        rfl
      · rintro rfl
        rfl
    constructor
    · rintro ⟨s₁, hpushes, h⟩
      cases (hpush s₁).1 hpushes
      obtain ⟨_, h, hnil⟩ := Run.cons_iff.1 h
      cases Run.nil_iff.1 hnil
      exact h
    · exact fun h => ⟨_, (hpush _).2 rfl, .cons h .nil⟩

/-- The actions of a run in which operands come from the stack can be spelled out, and pushes
followed by such actions can be folded into them. -/
theorem run_spelled (L : LLVM V T) (as : List (Action V T)) (s s' : State V T)
    (h : Along (Step L) (Spellable L) s as) :
    Run (Step L) s as s' ↔ Run (Step L) s (as.flatMap Action.spelled) s' := by
  refine Along.run_flatMap (fun s a s' ha => ?_) h
  rw [Action.spelled, run_pushes, apply_unsupplied ha]

end

/-- `5 - 3`, returned by a function. -/
theorem run_spelled_sub : ∃ s : State Int Bool, Run (Step .integers) .init
    [.createFunction "f" false [] false, .push 3, .push 5, .bin .sub none none, .push 2, .ret none]
      s := by
  have hrun : Run (Step .integers) .init
      [.createFunction "f" false [] false, .bin .sub (some 5) (some 3), .ret (some 2)] _ :=
    .cons rfl (.cons rfl (.cons rfl .nil))
  refine ⟨_, (run_spelled .integers _ _ _ ?_).1 hrun⟩
  refine Along.cons_iff.2 ⟨⟨rfl, fun _ h => by cases h⟩, fun s₁ h => ?_⟩
  cases h
  refine Along.cons_iff.2 ⟨⟨rfl, fun _ h => by cases h⟩, fun s₂ h => ?_⟩
  cases h
  exact Along.cons_iff.2 ⟨⟨rfl, fun _ _ => rfl⟩, fun _ _ => .nil⟩

end LlvmSc.Builder
