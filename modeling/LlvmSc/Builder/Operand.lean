import LlvmSc.Lib.EState
import LlvmSc.Lib.Run
import LlvmSc.Builder.Basic

/-!
# Operands and created instructions

What `popvalue` and `create` do to the state: `popvalue` changes the stack only, and `create` at a
given site changes the instructions only, in a way that does not depend on the state. The other
computations that the actions are made of, and runs of actions, get their equations here too.
-/

namespace LlvmSc.Builder

variable {V T : Type}

/-- The state after calls of `Create` functions, the last one first. -/
def State.emit (s : State V T) (is : List (Inst V T × V)) : State V T :=
  { s with ir := { s.ir with created := is.map (Prod.mk s.insertBlock) ++ s.ir.created } }

section
variable {s : State V T} {is : List (Inst V T × V)}

@[simp] theorem State.emit_stack : (s.emit is).stack = s.stack := rfl

@[simp] theorem State.emit_keepStack : (s.emit is).keepStack = s.keepStack := rfl

@[simp] theorem State.emit_functions : (s.emit is).functions = s.functions := rfl

@[simp] theorem State.emit_created :
    (s.emit is).ir.created = is.map (Prod.mk s.insertBlock) ++ s.ir.created := rfl

theorem State.emit_emit (s : State V T) (is js : List (Inst V T × V)) :
    (s.emit is).emit js = s.emit (js ++ is) := by
  simp [State.emit, List.append_assoc]

theorem popvalue_keep (h : s.keepStack = true) : popvalue none s = back s := by
  change (if s.keepStack = true then back else pop) s = _
  rw [if_pos h]

theorem popvalue_pop (h : s.keepStack = false) : popvalue none s = pop s := by
  change (if s.keepStack = true then back else pop) s = _
  rw [if_neg (by simp [h])]

theorem pop_cons (h : s.stack = v :: stack) : pop s = .ok v { s with stack := stack } := by
  rw [pop, h]

theorem pop_nil (h : s.stack = []) : pop s = .error .emptyStack s := by
  rw [pop, h]

theorem back_cons (h : s.stack = v :: stack) : back s = .ok v s := by
  rw [back, h]

theorem back_nil (h : s.stack = []) : back s = .error .emptyStack s := by
  rw [back, h]

theorem varAt_none (h : s.vars.lookup name = none) : varAt name s = .error .unboundVar s := by
  rw [varAt, h]

theorem varAt_some (h : s.vars.lookup name = some v) : varAt name s = .ok v s := by
  rw [varAt, h]

theorem blockAt_none (h : s.blocks.left.lookup name = none) :
    blockAt name s = .error .unboundBlock s := by
  rw [blockAt, h]

theorem blockAt_some (h : s.blocks.left.lookup name = some bb) : blockAt name s = .ok bb s := by
  rw [blockAt, h]

theorem popvalue_ok {o : Option V} (h : popvalue o s = .ok v s') :
    ∃ stack, s' = { s with stack := stack } := by
  cases o with
  | some w =>
    cases h
    exact ⟨s.stack, rfl⟩
  | none =>
    change (if s.keepStack = true then back else pop) s = _ at h
    cases hs : s.stack with
    | nil =>
      split at h
      · cases (back_nil hs).symm.trans h
      · cases (pop_nil hs).symm.trans h
    | cons w stack =>
      split at h
      · cases (back_cons hs).symm.trans h
        exact ⟨s.stack, rfl⟩
      · cases (pop_cons hs).symm.trans h
        exact ⟨stack, rfl⟩

end

/-! ## `create` -/

/-- The instruction that `create` makes. -/
inductive Build.Makes (L : LLVM V T) : Build V T → Inst V T → Prop
  | alloc : Makes L (.alloc ty name) (.alloca ty name)
  | load : Makes L (.load (some ty) ptr) (.load ty ptr)
  | store : Makes L (.store val ptr) (.store val ptr)
  | bin : Makes L (.bin op lhs rhs) (.binOp op lhs rhs)
  | fCmp : pred.isFPPredicate = true → Makes L (.cmp pred lhs rhs) (.fCmp pred lhs rhs)
  | iCmp : pred.isFPPredicate = false → Makes L (.cmp pred lhs rhs) (.iCmp pred lhs rhs)
  | phi : Makes L (.phi (edge :: edges)) (.phi (L.getType edge.val) (edge :: edges))
  | bitcast : Makes L (.cast .bitcast val to_) (.bitCast val to_)
  | zfit : Makes L (.cast .zfit val to_) (.zExtOrTrunc val to_)
  | fptoui : Makes L (.cast .fptoui val to_) (.fpToUI val to_)
  | ptrtoint : Makes L (.cast .ptrtoint val to_) (.ptrToInt val to_)
  | inttoptr : Makes L (.cast .inttoptr val to_) (.intToPtr val to_)
  | condbr : Makes L (.condbr val thenbb elsebb) (.condBr val thenbb elsebb)
  | branch : Makes L (.branch dst) (.br dst)
  | call : Makes L (.call fn args) (.call fn args)
  | ret : Makes L (.ret (some val)) (.ret val)
  | retVoid : Makes L (.ret none) .retVoid

variable [DecidableEq T] (L : LLVM V T)

/-- `create` refuses its argument, makes an instruction of it, or returns the operand of a cast to its
own type, in every state. -/
theorem create_cases (site : Site) (b : Build V T) :
    (∃ e, (e = .nullType ∨ e = .emptyPhi) ∧ ∀ s, create L site b s = .error e s) ∨
      (∃ i, b.Makes L i ∧
        ∀ s, create L site b s = .ok (L.value site i) (s.emit [L.made site i])) ∨
      ∃ op val, b = .cast op val (L.getType val) ∧ ∀ s, create L site b s = .ok val s := by
  cases b with
  | alloc ty name => exact .inr (.inl ⟨_, .alloc, fun _ => rfl⟩)
  | load ty ptr =>
    cases ty with
    | none => exact .inl ⟨.nullType, .inl rfl, fun _ => rfl⟩
    | some ty => exact .inr (.inl ⟨_, .load, fun _ => rfl⟩)
  | store val ptr => exact .inr (.inl ⟨_, .store, fun _ => rfl⟩)
  | bin op lhs rhs => exact .inr (.inl ⟨_, .bin, fun _ => rfl⟩)
  | cmp pred lhs rhs =>
    simp only [create]
    split
    next hpred => exact .inr (.inl ⟨_, .fCmp hpred, fun _ => rfl⟩)
    next hpred => exact .inr (.inl ⟨_, .iCmp (Bool.eq_false_iff.2 hpred), fun _ => rfl⟩)
  | phi edges =>
    cases edges with
    | nil => exact .inl ⟨.emptyPhi, .inr rfl, fun _ => rfl⟩
    | cons edge edges => exact .inr (.inl ⟨_, .phi, fun _ => rfl⟩)
  | cast op val to_ =>
    cases op with
    | bitcast => exact .inr (.inl ⟨_, .bitcast, fun _ => rfl⟩)
    | zfit =>
      simp only [create]
      split
      next hto => exact .inr (.inr ⟨_, val, by rw [hto], fun _ => rfl⟩)
      next => exact .inr (.inl ⟨_, .zfit, fun _ => rfl⟩)
    | fptoui =>
      simp only [create]
      split
      next hto => exact .inr (.inr ⟨_, val, by rw [hto], fun _ => rfl⟩)
      next => exact .inr (.inl ⟨_, .fptoui, fun _ => rfl⟩)
    | ptrtoint => exact .inr (.inl ⟨_, .ptrtoint, fun _ => rfl⟩)
    | inttoptr => exact .inr (.inl ⟨_, .inttoptr, fun _ => rfl⟩)
  | condbr cond thenbb elsebb => exact .inr (.inl ⟨_, .condbr, fun _ => rfl⟩)
  | branch dst => exact .inr (.inl ⟨_, .branch, fun _ => rfl⟩)
  | call fn args => exact .inr (.inl ⟨_, .call, fun _ => rfl⟩)
  | ret val =>
    cases val with
    | none => exact .inr (.inl ⟨_, .retVoid, fun _ => rfl⟩)
    | some val => exact .inr (.inl ⟨_, .ret, fun _ => rfl⟩)

/-- `create` refuses its argument, or creates the same in every state. -/
theorem create_emit (site : Site) (b : Build V T) :
    (∃ e, e ≠ .emptyStack ∧ ∀ s, create L site b s = .error e s) ∨
      ∃ v is, ∀ s, create L site b s = .ok v (s.emit is) := by
  rcases create_cases L site b with ⟨e, he, herr⟩ | ⟨i, -, hok⟩ | ⟨op, val, -, hok⟩
  · refine .inl ⟨e, ?_, herr⟩
    rintro rfl
    simp at he
  · exact .inr ⟨_, _, hok⟩
  · exact .inr ⟨val, [], hok⟩

variable {L}

/-! ## Arguments of calls -/

omit [DecidableEq T] in
theorem functionArgumentType_cases (fn : FunctionCallee V T) (idx : Nat) (s : State V T) :
    functionArgumentType fn idx s = .error .paramIndex s ∨
      ∃ ty, fn.type.params[idx]? = some ty ∧ functionArgumentType fn idx s = .ok ty s := by
  unfold functionArgumentType
  cases fn.type.params[idx]? with
  | none => exact .inl rfl
  | some ty => exact .inr ⟨ty, rfl, rfl⟩

/-- `castArgument`, without the instruction that it inserts -/
def castTo (L : LLVM V T) (before idx : Nat) (v : V) (to_ : T) : V :=
  if to_ ≠ L.getType v then L.value ⟨before, some idx⟩ (.bitCast v to_) else v

theorem castArgument_emit (before idx : Nat) (v : V) (to_ : T) : ∃ is, ∀ s,
    castArgument L before idx v to_ s = .ok (castTo L before idx v to_) (s.emit is) := by
  unfold castArgument castTo
  split
  · exact ⟨[L.made ⟨before, some idx⟩ (.bitCast v to_)], fun _ => rfl⟩
  · exact ⟨[], fun _ => rfl⟩

/-! ## `ret` -/

/-- The site of the next action. -/
def State.site (s : State V T) : Site := ⟨s.ir.created.length, none⟩

section
variable {s : State V T} {fn : Function T} {functions : List (Function T)}

omit [DecidableEq T] in
theorem lastFunction_nil (hs : s.functions = []) : lastFunction s = .error .noFunction s := by
  rw [lastFunction, hs]

omit [DecidableEq T] in
theorem lastFunction_cons (hs : s.functions = fn :: functions) : lastFunction s = .ok fn s := by
  rw [lastFunction, hs]

theorem apply_ret_nil (hs : s.functions = []) :
    apply L (.ret val) s = .error .noFunction s :=
  EStateM.bind_error (lastFunction_nil hs)

theorem apply_ret_void (hs : s.functions = fn :: functions)
    (hvoid : L.isVoidTy fn.type.returnType = true) :
    apply L (.ret none) s = .ok () (s.emit [L.made s.site .retVoid]) := by
  refine (EStateM.bind_ok (lastFunction_cons hs)).trans ?_
  rw [hvoid]
  rfl

theorem apply_ret_void_some (hs : s.functions = fn :: functions)
    (hvoid : L.isVoidTy fn.type.returnType = true) :
    apply L (.ret (some v)) s = .error .voidRetValue s := by
  refine (EStateM.bind_ok (lastFunction_cons hs)).trans ?_
  rw [hvoid]
  rfl

theorem apply_ret_value (hs : s.functions = fn :: functions)
    (hvoid : L.isVoidTy fn.type.returnType = false) : apply L (.ret val) s = (do
      let v ← popvalue val
      let _ ← create L s.site (.ret (some v))) s := by
  refine (EStateM.bind_ok (lastFunction_cons hs)).trans ?_
  rw [hvoid]
  rfl

end

/-! ## Runs -/

/-- A step of a builder. -/
abbrev Step (L : LLVM V T) (s : State V T) (a : Action V T) (s' : State V T) : Prop :=
  apply L a s = .ok () s'

theorem run_iff {as : List (Action V T)} {s s' : State V T} :
    run L as s = .ok () s' ↔ Run (Step L) s as s' := by
  induction as generalizing s with
  | nil =>
    rw [Run.nil_iff]
    constructor
    · intro h
      cases h
      rfl
    · intro h
      cases h
      rfl
  | cons a as ih =>
    rw [Run.cons_iff]
    change (apply L a >>= fun _ => run L as) s = _ ↔ _
    rw [EStateM.bind_eq_ok]
    simp only [ih, Step]
    constructor
    · rintro ⟨⟨⟩, s₁, ha, has⟩
      exact ⟨s₁, ha, has⟩
    · rintro ⟨s₁, ha, has⟩
      exact ⟨(), s₁, ha, has⟩

theorem run_append_ok {as bs : List (Action V T)} {s s' s'' : State V T}
    (has : run L as s = .ok () s') (hbs : run L bs s' = .ok () s'') :
    run L (as ++ bs) s = .ok () s'' := by
  rw [run_iff] at has hbs ⊢
  exact Run.append_iff.2 ⟨s', has, hbs⟩

theorem run_singleton {a : Action V T} {s s' : State V T} (h : apply L a s = .ok () s') :
    run L [a] s = .ok () s' :=
  EStateM.bind_ok h

/-- Integers as values: a load gives its pointer, a subtraction the difference, every other call the
number of calls before its action. The type `true` is void. -/
def LLVM.integers : LLVM Int Bool where
  getType _ := false
  isVoidTy ty := ty
  value site
    | .load _ ptr => ptr
    | .binOp .sub lhs rhs => lhs - rhs
    | _ => site.before
  folds
    | .binOp .sub .. => true
    | _ => false

end LlvmSc.Builder
