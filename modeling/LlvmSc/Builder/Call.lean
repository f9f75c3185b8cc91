import LlvmSc.Builder.KeepStack

/-!
# Calls

`apply( action::call )` asks the function type for a parameter at every argument. LLVM accepts more
arguments than parameters if the function type is variadic, but then the index runs over the end of
the parameters: the call that the arguments give is emitted exactly if there are no arguments beyond
the parameters (`emitsCall_iff`).
-/

namespace LlvmSc.Builder

variable {V T : Type}

/-- LLVM accepts `n` arguments. -/
def FunctionType.Accepts (type : FunctionType T) (n : Nat) : Prop :=
  if type.vararg then type.params.length ≤ n else n = type.params.length

theorem FunctionType.Accepts.le {type : FunctionType T} {n : Nat} (h : type.Accepts n) :
    type.params.length ≤ n := by
  unfold FunctionType.Accepts at h
  split at h
  · exact h
  · exact Nat.le_of_eq h.symm

/-- `popvalue` finds the stack empty, or gives the next value that fills the operands. -/
theorem popvalue_cases (o : Option V) (s : State V T) :
    popvalue o s = .error .emptyStack s ∨
      ∃ v stack, popvalue o s = .ok v { s with stack := stack } ∧
        ∀ os, fill s.keepStack (o :: os) s.stack = v :: fill s.keepStack os stack := by
  cases o with
  | some v => exact .inr ⟨v, s.stack, rfl, fun _ => rfl⟩
  | none =>
    cases hk : s.keepStack with
    | true =>
      rw [popvalue_keep hk]
      cases hs : s.stack with
      | nil => exact .inl (back_nil hs)
      | cons v stack =>
        refine .inr ⟨v, v :: stack, ?_, fun _ => rfl⟩
        rw [back_cons hs, ← hs, ← hk]
    | false =>
      rw [popvalue_pop hk]
      cases hs : s.stack with
      | nil => exact .inl (pop_nil hs)
      | cons v stack =>
        refine .inr ⟨v, stack, ?_, fun _ => rfl⟩
        rw [pop_cons hs, ← hk]

variable [DecidableEq T] {L : LLVM V T}

/-- What `castArgument` creates. -/
def castInsts (L : LLVM V T) (before idx : Nat) (v : V) (to_ : T) : List (Inst V T × V) :=
  if to_ ≠ L.getType v then [L.made ⟨before, some idx⟩ (.bitCast v to_)] else []

/-- The bitcasts of the arguments, from the index `idx` on. -/
def casts (L : LLVM V T) (before : Nat) (fn : FunctionCallee V T) (idx : Nat) :
    List V → List (Inst V T × V)
  | [] => []
  | v :: vs =>
    (fn.type.params[idx]?).elim [] (castInsts L before idx v) ++ casts L before fn (idx + 1) vs

/-- The call with the arguments that are given or popped. Argument `i` is cast to the type of
parameter `i`, if there is one and the types differ, and passed as it is otherwise. -/
def EmitsCall (L : LLVM V T) (fn : FunctionCallee V T) (args : List (Option V)) (s : State V T) :
    Prop :=
  ∃ s' vs, apply L (.call fn args) s = .ok () s' ∧ fill s.keepStack args s.stack = vs ∧
    vs.length = args.length ∧ s'.ir.created =
      ((L.made s.site (.call fn (vs.mapIdx fun i v =>
        (fn.type.params[i]?).elim v (castTo L s.ir.created.length i v))) ::
        (casts L s.ir.created.length fn 0 vs).reverse).map (Prod.mk s.insertBlock)) ++ s.ir.created

theorem castArgument_eq (before idx : Nat) (v : V) (to_ : T) (s : State V T) :
    castArgument L before idx v to_ s =
      .ok (castTo L before idx v to_) (s.emit (castInsts L before idx v to_)) := by
  unfold castArgument castTo castInsts
  split
  · rfl
  · rfl

theorem castInsts_reverse (before idx : Nat) (v : V) (to_ : T) :
    (castInsts L before idx v to_).reverse = castInsts L before idx v to_ := by
  unfold castInsts
  split
  · rfl
  · rfl

/-- The loop over the arguments, from an index on that is no larger than the number of parameters. -/
theorem callArgs_cases {fn : FunctionCallee V T} (before : Nat) (args : List (Option V))
    (idx : Nat) (s : State V T) (hidx : idx ≤ fn.type.params.length) :
    (∃ s', callArgs L before fn idx args s = .error .emptyStack s') ∨
    (fn.type.params.length < idx + args.length ∧
      ∃ s', callArgs L before fn idx args s = .error .paramIndex s') ∨
    (idx + args.length ≤ fn.type.params.length ∧
      (fill s.keepStack args s.stack).length = args.length ∧ ∃ stack,
        callArgs L before fn idx args s = .ok
          ((fill s.keepStack args s.stack).mapIdx fun i v =>
            (fn.type.params[idx + i]?).elim v (castTo L before (idx + i) v))
          (State.emit { s with stack := stack }
            (casts L before fn idx (fill s.keepStack args s.stack)).reverse)) := by
  induction args generalizing idx s with
  | nil => exact .inr (.inr ⟨hidx, rfl, s.stack, rfl⟩)
  | cons arg args ih =>
    rcases popvalue_cases arg s with hempty | ⟨v, stack, hv, hfill⟩
    · exact .inl ⟨s, EStateM.bind_error hempty⟩
    · cases hparam : fn.type.params[idx]? with
      | none =>
        have hty : functionArgumentType fn idx { s with stack := stack } =
            .error .paramIndex { s with stack := stack } := by
          rw [functionArgumentType, hparam]
          rfl
        have hle := List.getElem?_eq_none_iff.1 hparam
        refine .inr (.inl ⟨?_, _, (EStateM.bind_ok hv).trans (EStateM.bind_error hty)⟩)
        rw [List.length_cons]
        omega
      | some ty =>
        have hty : functionArgumentType fn idx { s with stack := stack } =
            .ok ty { s with stack := stack } := by
          rw [functionArgumentType, hparam]
          rfl
        have hlt := (List.getElem?_eq_some_iff.1 hparam).1
        have hcast := castArgument_eq (L := L) before idx v ty { s with stack := stack }
        have hstep : callArgs L before fn idx (arg :: args) s =
            (do return castTo L before idx v ty :: (← callArgs L before fn (idx + 1) args))
              (State.emit { s with stack := stack } (castInsts L before idx v ty)) :=
          (EStateM.bind_ok hv).trans ((EStateM.bind_ok hty).trans (EStateM.bind_ok hcast))
        rw [hstep, hfill, List.length_cons, List.length_cons]
        rcases ih (idx + 1) (State.emit { s with stack := stack } (castInsts L before idx v ty)) hlt
          with ⟨s', hrest⟩ | ⟨hlen, s', hrest⟩ | ⟨hlen, hlength, stack', hrest⟩
        · exact .inl ⟨s', EStateM.bind_error hrest⟩
        · exact .inr (.inl ⟨by omega, s', EStateM.bind_error hrest⟩)
        · refine .inr (.inr ⟨by omega, congrArg (· + 1) hlength, stack', ?_⟩)
          refine (EStateM.bind_ok hrest).trans ?_
          have hidx (i : Nat) : idx + 1 + i = idx + (i + 1) := by omega
          simp only [List.mapIdx_cons, Nat.add_zero, hparam, Option.elim_some, casts, hidx,
            List.reverse_append, castInsts_reverse]
          exact congrArg _ (State.emit_emit { s with stack := stack' } _ _)

/-- A call that finds its operands on the stack is emitted with the arguments that LLVM accepts
exactly if there are as many of them as parameters. -/
theorem emitsCall_iff (L : LLVM V T) (fn : FunctionCallee V T) (args : List (Option V))
    (s : State V T) (hargs : fn.type.Accepts args.length)
    (hstack : ∀ s', apply L (.call fn args) s ≠ .error .emptyStack s') :
    EmitsCall L fn args s ↔ args.length = fn.type.params.length := by
  have hle := hargs.le
  rcases callArgs_cases (L := L) s.ir.created.length args 0 s (Nat.zero_le _) with
    ⟨s', hrest⟩ | ⟨hlen, s', hrest⟩ | ⟨hlen, hlength, stack, hrest⟩
  · exact absurd (EStateM.bind_error hrest) (hstack s')
  · refine iff_of_false ?_ (by omega)
    intro h
    obtain ⟨s'', vs, hok, -⟩ := h
    cases (EStateM.bind_error hrest).symm.trans hok
  · refine iff_of_true ?_ (by omega)
    refine ⟨_, _, (EStateM.bind_ok hrest).trans rfl, rfl, hlength, ?_⟩
    simp only [Nat.zero_add]
    rfl

/-- A variadic function without parameters, called with one argument. -/
theorem not_emitsCall : (⟨true, [], true⟩ : FunctionType Bool).Accepts 1 ∧
    ¬ EmitsCall .integers ⟨⟨true, [], true⟩, 0⟩ [some 1] .init := by
  refine ⟨Nat.zero_le 1, ?_⟩
  intro h
  obtain ⟨s', vs, hok, -⟩ := h
  cases hok

/-- A variadic function, called with its parameter only. -/
theorem emitsCall_variadic :
    EmitsCall .integers ⟨⟨true, [false], true⟩, 0⟩ [none] { State.init with stack := [1] } := by
  refine (emitsCall_iff .integers ⟨⟨true, [false], true⟩, 0⟩ [none] { State.init with stack := [1] }
    (Nat.le_refl 1) fun s' h => ?_).2 rfl
  cases h

end LlvmSc.Builder
